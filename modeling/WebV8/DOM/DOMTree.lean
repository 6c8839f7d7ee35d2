import Mathlib

/-! # Nodes of a DOM tree

A finite tree of nodes; an element also has attributes. A node is named by the way to it, from the node up to the root, so
that two nodes are the same if the ways to them are. `parentNode`, `ownerElement`, `firstChild` and `nextSibling` are the links of
the tree. The Attr node of an attribute is there whether or not somebody has asked for it.
-/

namespace WebV8

inductive NodeKind where
  | element (attributes : Nat)
  | other
  deriving DecidableEq, Repr

inductive DOMTree where
  | node (kind : NodeKind) (children : List DOMTree)

inductive Edge where
  | attr (i : Nat)
  | child (i : Nat)
  deriving DecidableEq, Repr

abbrev DOMNode := List Edge

namespace DOMNode

def isAttributeNode : DOMNode → Bool
  | .attr _ :: _ => true
  | _ => false

def ownerElement : DOMNode → Option DOMNode
  | .attr _ :: p => some p
  | _ => none

def parentNode : DOMNode → Option DOMNode
  | .child _ :: p => some p
  | _ => none

end DOMNode

variable (t : DOMTree) (n : DOMNode)

namespace DOMTree

def kind : DOMTree → NodeKind
  | .node kind _ => kind

def children : DOMTree → List DOMTree
  | .node _ children => children

def subtree (t : DOMTree) : DOMNode → Option DOMTree
  | [] => some t
  | .child i :: p => (subtree t p).bind fun u => u.children[i]?
  | .attr _ :: _ => none

def childCount : Nat :=
  match t.subtree n with
  | some u => u.children.length
  | none => 0

def attributeCount : Nat :=
  match t.subtree n with
  | some (.node (.element attributes) _) => attributes
  | _ => 0

def isElementNode : Bool :=
  match t.subtree n with
  | some (.node (.element _) _) => true
  | _ => false

def Contains : DOMNode → Prop
  | .attr i :: p => i < t.attributeCount p
  | n => (t.subtree n).isSome

instance (t : DOMTree) : DecidablePred t.Contains := fun n =>
  match n with
  | .attr i :: p => inferInstanceAs (Decidable (i < t.attributeCount p))
  | [] => inferInstanceAs (Decidable ((t.subtree []).isSome = true))
  | .child i :: p => inferInstanceAs (Decidable ((t.subtree (.child i :: p)).isSome = true))

/-! ## Links -/

def firstChild : Option DOMNode :=
  if 0 < t.childCount n then some (.child 0 :: n) else none

def nextSibling : DOMNode → Option DOMNode
  | .child i :: p => if i + 1 < t.childCount p then some (.child (i + 1) :: p) else none
  | _ => none

/-- The children in the order of `nextSibling`. -/
def childNodes : List DOMNode := (List.range (t.childCount n)).map fun i => .child i :: n

def attributes : List DOMNode :=
  (List.range (t.attributeCount n)).map fun i => .attr i :: n

/-! ## NodeTraversal -/

/-- The next sibling of the nearest ancestor that has one. -/
def nextAncestorSibling (t : DOMTree) : DOMNode → Option DOMNode
  | .child _ :: p =>
    match t.nextSibling p with
    | some n => some n
    | none => nextAncestorSibling t p
  | _ => none

def next : Option DOMNode :=
  match t.firstChild n with
  | some n => some n
  | none =>
    match t.nextSibling n with
    | some n => some n
    | none => t.nextAncestorSibling n

def nextSkippingChildren : Option DOMNode :=
  match t.nextSibling n with
  | some n => some n
  | none => t.nextAncestorSibling n

end DOMTree

end WebV8
