import WebV8.DOM.DOMTree

/-! # XPath::NodeSet::sort

A node set is put in document order in one of two ways. Small sets are sorted in place, as rows of a matrix: a row is a node
with its ancestors, and a block of rows is divided by the children of the nearest common ancestor. Large sets are
collected in a traversal of the whole tree.
-/

namespace WebV8.XPath

open DOMNode

def traversalSortCutoff : Nat := 10000

abbrev Matrix := Array (List DOMNode)

def row (parentMatrix : Matrix) (i : Nat) : List DOMNode := parentMatrix.getD i []

def parentWithDepth (depth : Nat) (parents : List DOMNode) : Option DOMNode := parents[parents.length - 1 - depth]?

/-! ## sortBlock -/

section

variable (from_ to_ : Nat) (parentMatrix : Matrix)

def block : List Nat := List.range' from_ (to_ - from_)

/-- `UINT_MAX` stands for no depth yet. -/
def minDepth : Nat :=
  (block from_ to_).foldl (fun minDepth i => min minDepth ((row parentMatrix i).length - 1))
    ((row parentMatrix from_).length - 1)

/-- The common ancestor and its depth, from the least depth upwards. -/
def findCommonAncestor : Nat → Nat × Option DOMNode
  | 0 => (0, parentWithDepth 0 (row parentMatrix from_))
  | depth + 1 =>
    let commonAncestor := parentWithDepth (depth + 1) (row parentMatrix from_)
    if (block (from_ + 1) to_).all fun i => parentWithDepth (depth + 1) (row parentMatrix i) = commonAncestor then
      (depth + 1, commonAncestor)
    else findCommonAncestor depth

end

/-- The loop that moves rows to the beginning, `count` rows from index `i`. -/
def gather (pred : List DOMNode → Bool) : (count i sortedEnd : Nat) → Matrix → Nat × Matrix
  | 0, _, sortedEnd, parentMatrix => (sortedEnd, parentMatrix)
  | count + 1, i, sortedEnd, parentMatrix =>
    if pred (row parentMatrix i) then
      gather pred count (i + 1) (sortedEnd + 1) (parentMatrix.swapIfInBounds i sortedEnd)
    else gather pred count (i + 1) sortedEnd parentMatrix

def isAttributeOf (commonAncestor : DOMNode) (parents : List DOMNode) : Bool :=
  match parents.head? with
  | some n => isAttributeNode n && ownerElement n = some commonAncestor
  | none => false

def sortGroups (sortBlock : Nat → Nat → Matrix → Option Matrix) (parentNodes : DOMNode → Bool) (depth to_ : Nat) :
    List DOMNode → (previousGroupEnd groupEnd : Nat) → Matrix → Option Matrix
  | [], _, _, parentMatrix => some parentMatrix
  | n :: siblings, previousGroupEnd, groupEnd, parentMatrix =>
    if parentNodes n then
      let (groupEnd, parentMatrix) :=
        gather (fun parents => parentWithDepth depth parents = some n) (to_ - groupEnd) groupEnd groupEnd parentMatrix
      if groupEnd - previousGroupEnd > 1 then do
        let parentMatrix ← sortBlock previousGroupEnd groupEnd parentMatrix
        sortGroups sortBlock parentNodes depth to_ siblings groupEnd groupEnd parentMatrix
      else sortGroups sortBlock parentNodes depth to_ siblings groupEnd groupEnd parentMatrix
    else sortGroups sortBlock parentNodes depth to_ siblings previousGroupEnd groupEnd parentMatrix

def findAncestorRow (from_ to_ : Nat) (parentMatrix : Matrix) (commonAncestorDepth : Nat) (commonAncestor : DOMNode) :
    Option Nat :=
  if commonAncestorDepth = minDepth from_ to_ parentMatrix then
    (block from_ to_).find? fun i => (row parentMatrix i).head? = some commonAncestor
  else none

variable (t : DOMTree)

/-- The attributes of the common ancestor are moved to the beginning. -/
def gatherAttributes (mayContainAttributeNodes : Bool) (from_ to_ : Nat) (parentMatrix : Matrix)
    (commonAncestor : DOMNode) : Nat × Matrix :=
  if mayContainAttributeNodes && t.isElementNode commonAncestor then
    gather (isAttributeOf commonAncestor) (to_ - from_) from_ from_ parentMatrix
  else (from_, parentMatrix)

/-- The children of the common ancestor below which there are nodes. -/
def isParentNode (from_ to_ : Nat) (parentMatrix : Matrix) (depth : Nat) (n : DOMNode) : Bool :=
  (block from_ to_).any fun i => parentWithDepth depth (row parentMatrix i) = some n

/-- `sortBlock` calls itself on smaller blocks only; `fuel` bounds the size. -/
def sortBlock (t : DOMTree) (mayContainAttributeNodes : Bool) : (fuel from_ to_ : Nat) → Matrix → Option Matrix
  | 0, _, _, _ => none
  | fuel + 1, from_, to_, parentMatrix =>
    match findCommonAncestor from_ to_ parentMatrix (minDepth from_ to_ parentMatrix) with
    | (_, none) => none
    | (commonAncestorDepth, some commonAncestor) =>
      match findAncestorRow from_ to_ parentMatrix commonAncestorDepth commonAncestor with
      | some i =>
        let parentMatrix := parentMatrix.swapIfInBounds i from_
        if from_ + 2 < to_ then sortBlock t mayContainAttributeNodes fuel (from_ + 1) to_ parentMatrix
        else some parentMatrix
      | none =>
        let (sortedEnd, parentMatrix) :=
          gatherAttributes t mayContainAttributeNodes from_ to_ parentMatrix commonAncestor
        if sortedEnd ≠ from_ then
          if to_ - sortedEnd > 1 then sortBlock t mayContainAttributeNodes fuel sortedEnd to_ parentMatrix
          else some parentMatrix
        else
          sortGroups (sortBlock t mayContainAttributeNodes fuel)
            (isParentNode from_ to_ parentMatrix (commonAncestorDepth + 1)) (commonAncestorDepth + 1) to_
            (t.childNodes commonAncestor) from_ from_ parentMatrix

/-! ## NodeSet -/

/-- The loop over `parentNode`. -/
def parentNodes : DOMNode → List DOMNode
  | .child _ :: p => p :: parentNodes p
  | _ => []

def parentsVector (n : DOMNode) : List DOMNode :=
  match ownerElement n with
  | some owner => n :: owner :: parentNodes owner
  | none => n :: parentNodes n

/-- The part of `sort` for small sets. -/
def blockSort (nodes : List DOMNode) : Option (List DOMNode) := do
  let parentMatrix : Matrix := (nodes.map parentsVector).toArray
  let parentMatrix ← sortBlock t (nodes.any isAttributeNode) nodes.length 0 nodes.length parentMatrix
  pure (parentMatrix.toList.filterMap List.head?)

def findRootNode : DOMNode → DOMNode
  | [] => []
  | _ :: p => findRootNode p

def collect (nodes : List DOMNode) (containsAttributeNodes : Bool) (n : DOMNode) : List DOMNode :=
  (if nodes.contains n then [n] else []) ++
    if containsAttributeNodes && t.isElementNode n then (t.attributes n).filter nodes.contains else []

/-- The loop of the traversal; `fuel` bounds the number of nodes. -/
def traverse (t : DOMTree) (nodes : List DOMNode) (containsAttributeNodes : Bool) :
    (fuel : Nat) → Option DOMNode → (sortedNodes : List DOMNode) → Option (List DOMNode)
  | _, none, sortedNodes => some sortedNodes
  | 0, some _, _ => none
  | fuel + 1, some n, sortedNodes =>
    traverse t nodes containsAttributeNodes fuel (t.next n) (sortedNodes ++ collect t nodes containsAttributeNodes n)

def traversalSort (fuel : Nat) (nodes : List DOMNode) : Option (List DOMNode) :=
  match nodes with
  | [] => none
  | first :: _ => traverse t nodes (nodes.any isAttributeNode) fuel (some (findRootNode first)) []

structure NodeSet where
  nodes : List DOMNode
  isSorted : Bool
  deriving DecidableEq, Repr

def NodeSet.sort (fuel : Nat) (set : NodeSet) : Option NodeSet :=
  if set.isSorted then some set
  else if set.nodes.length < 2 then some { set with isSorted := true }
  else do
    let nodes ←
      if set.nodes.length > traversalSortCutoff then traversalSort t fuel set.nodes else blockSort t set.nodes
    pure { nodes, isSorted := true }

end WebV8.XPath
