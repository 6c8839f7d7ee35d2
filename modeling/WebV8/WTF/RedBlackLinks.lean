import WebV8.Lib.RedBlack

/-!
# The linked nodes of a red-black tree

`wtf/RedBlackTree.h` and `platform/PODRedBlackTree.h` are one algorithm: the rotations and the two
loops that restore the red-black properties are the same text, and so is the insertion of a leaf. The
second file calls a virtual `updateNode` here and there, for trees whose nodes summarise their
subtrees. This module has the common text once, with that hook as a parameter; a tree without
summaries has a hook that does nothing.

Memory is a function from addresses to nodes, and `m_root` and the links are addresses or null. A
statement that follows a null pointer makes the result `none`. The loops take the number of rounds
that they may run; a loop over a proper tree needs fewer than there are nodes.

The branches for a left child and for a right child are mirror images in the source, which says so
("same as "then" clause with "right" and "left" exchanged"). They are one here, with the side as a
parameter: `rotate .left` is `leftRotate`, `rotate .right` is `rightRotate`.
-/

namespace WebV8

open Lib

variable {ι δ σ : Type} [DecidableEq ι]

structure LinkedNode (ι δ : Type) where
  left : Option ι
  right : Option ι
  parent : Option ι
  color : Color
  data : δ
deriving Repr, DecidableEq

/-- `left()` or `right()` -/
def LinkedNode.child (n : LinkedNode ι δ) : Dir → Option ι
  | .left => n.left
  | .right => n.right

/-- `setLeft` or `setRight` -/
def LinkedNode.setChild (n : LinkedNode ι δ) (d : Dir) (child : Option ι) : LinkedNode ι δ :=
  match d with
  | .left => { n with left := child }
  | .right => { n with right := child }

structure LinkedTree (ι δ : Type) where
  root : Option ι
  node : ι → LinkedNode ι δ

/-- The hook for summaries: what the parent reads of a node, and what `updateNode` makes of the data
    of a node, given what it reads of the two children; with the truth value that it returns. -/
structure Augmentation (δ σ : Type) where
  summary : δ → σ
  update : δ → Option σ → Option σ → δ × Bool

/-- `updateNode` of a tree without summaries. -/
def Augmentation.none : Augmentation δ Unit where
  summary := fun _ => ()
  update := fun data _ _ => (data, false)

namespace LinkedTree

/-! ## Fields -/

def modify (t : LinkedTree ι δ) (x : ι) (f : LinkedNode ι δ → LinkedNode ι δ) : LinkedTree ι δ :=
  { t with node := Function.update t.node x (f (t.node x)) }

def setChild (t : LinkedTree ι δ) (d : Dir) (x : ι) (child : Option ι) : LinkedTree ι δ :=
  t.modify x fun n => n.setChild d child

section

variable (t : LinkedTree ι δ)

def setParent (x : ι) (parent : Option ι) : LinkedTree ι δ :=
  t.modify x fun n => { n with parent := parent }

def setColor (x : ι) (color : Color) : LinkedTree ι δ :=
  t.modify x fun n => { n with color := color }

def setData (x : ι) (data : δ) : LinkedTree ι δ :=
  t.modify x fun n => { n with data := data }

/-- `if (x) x->setParent(parent)` -/
def setParentIf (x : Option ι) (parent : Option ι) : LinkedTree ι δ :=
  match x with
  | none => t
  | some x => t.setParent x parent

/-- `if (x) x->setColor(color)` -/
def setColorIf (x : Option ι) (color : Color) : LinkedTree ι δ :=
  match x with
  | none => t
  | some x => t.setColor x color

/-- `!x || x->color() == Black` -/
def isBlack (x : Option ι) : Bool :=
  match x with
  | none => true
  | some x => (t.node x).color == .black

/-- Put `new` where the link from above to `old` is: in `m_root` if there is no parent, else in the
    left or right child of the parent. -/
def relink (parent : Option ι) (old : ι) (new : Option ι) : LinkedTree ι δ :=
  match parent with
  | none => { t with root := new }
  | some p =>
    if (t.node p).left = some old then t.setChild .left p new else t.setChild .right p new

end

/-! ## Searching -/

def treeMinimum (t : LinkedTree ι δ) : Nat → ι → Option ι
  | 0, _ => none
  | rounds + 1, x =>
    match (t.node x).left with
    | none => some x
    | some l => t.treeMinimum rounds l

/-- The loop of `successor` from a node up. -/
def ascend (t : LinkedTree ι δ) : Nat → ι → Option ι → Option (Option ι)
  | 0, _, _ => none
  | _ + 1, _, none => some none
  | rounds + 1, x, some y =>
    if (t.node y).right = some x then t.ascend rounds y (t.node y).parent else some (some y)

/-- `successor` and `treeSuccessor` -/
def successor (t : LinkedTree ι δ) (rounds : Nat) (x : ι) : Option (Option ι) :=
  match (t.node x).right with
  | some r => (t.treeMinimum rounds r).map some
  | none => t.ascend rounds x (t.node x).parent

/-- The loop of `treeInsert`: the last node on the way down to where the data belongs. -/
def descend (t : LinkedTree ι δ) (less : δ → δ → Bool) (data : δ) :
    Nat → Option ι → Option ι → Option (Option ι)
  | 0, _, _ => none
  | _ + 1, none, y => some y
  | rounds + 1, some x, _ =>
    if less data (t.node x).data then t.descend less data rounds (t.node x).left (some x)
    else t.descend less data rounds (t.node x).right (some x)

def treeInsert (t : LinkedTree ι δ) (less : δ → δ → Bool) (rounds : Nat) (z : ι) :
    Option (LinkedTree ι δ) := do
  let y ← t.descend less (t.node z).data rounds t.root none
  let t := t.setParent z y
  match y with
  | none => return { t with root := some z }
  | some y =>
    if less (t.node z).data (t.node y).data then return t.setChild .left y (some z)
    else return t.setChild .right y (some z)

/-! ## Rotations -/

variable (aug : Augmentation δ σ)

section

variable (t : LinkedTree ι δ)

def updateNode (x : ι) : LinkedTree ι δ × Bool :=
  let summaryOf := fun (child : Option ι) => child.map fun c => aug.summary (t.node c).data
  let (data, changed) :=
    aug.update (t.node x).data (summaryOf (t.node x).left) (summaryOf (t.node x).right)
  (t.setData x data, changed)

/-- The links that `leftRotate` and `rightRotate` change. -/
def rotateLinks (d : Dir) (x y : ι) : LinkedTree ι δ :=
  -- turn one subtree of `y` into the other one of `x`
  let t := t.setChild d.flip x ((t.node y).child d)
  let t := t.setParentIf ((t.node y).child d) (some x)
  -- link the parent of `x` to `y`
  let t := t.setParent y (t.node x).parent
  let t := t.relink (t.node x).parent x (some y)
  -- put `x` below `y`
  let t := t.setChild d y (some x)
  t.setParent x (some y)

/-- `leftRotate` and `rightRotate`: `x` goes down on side `d`. The second result is the node that has
    taken its place. -/
def rotate (d : Dir) (x : ι) : Option (LinkedTree ι δ × ι) := do
  let y ← (t.node x).child d.flip
  let t := t.rotateLinks d x y
  -- update nodes lowest to highest
  let t := (t.updateNode aug x).1
  let t := (t.updateNode aug y).1
  return (t, y)

/-! ## Insertion -/

/-- Case 3 of the loop of `insert`, for an outer grandchild `x`. -/
def insertCase3 (d : Dir) (x : ι) : Option (LinkedTree ι δ × ι × Option ι) := do
  let p ← (t.node x).parent
  let t := t.setColor p .black
  let g ← (t.node p).parent
  let t := t.setColor g .red
  let (t, newSubTreeRoot) ← t.rotate aug d.flip g
  return (t, x, (t.node newSubTreeRoot).parent)

/-- One round of the loop of `insert`, for a node `x` whose red parent `p` is the child on side `d` of
    `g`. The results are the tree, the next `x` and the node from which to update upwards. -/
def insertRound (d : Dir) (x p g : ι) : Option (LinkedTree ι δ × ι × Option ι) :=
  let y := (t.node g).child d.flip
  if t.isBlack y then
    if (t.node p).child d.flip = some x then do
      -- case 2
      let (t, _) ← t.rotate aug d p
      t.insertCase3 aug d p
    else t.insertCase3 aug d x
  else
    -- case 1
    let t := t.setColor p .black
    let t := t.setColorIf y .black
    let t := t.setColor g .red
    let t := (t.updateNode aug p).1
    let t := (t.updateNode aug g).1
    some (t, g, (t.node g).parent)

end

/-- The loop of `insert`. -/
def insertFixup : Nat → LinkedTree ι δ → ι → Option ι → Option (LinkedTree ι δ × Option ι)
  | 0, _, _, _ => none
  | rounds + 1, t, x, updateStart =>
    if t.root = some x then some (t, updateStart)
    else do
      let p ← (t.node x).parent
      if (t.node p).color = .red then
        let g ← (t.node p).parent
        let d : Dir := if some p = (t.node g).left then .left else .right
        let (t, x, updateStart) ← t.insertRound aug d x p g
        insertFixup rounds t x updateStart
      else return (t, updateStart)

/-! ## Removal -/

section

variable (t : LinkedTree ι δ)

/-- Case 3 of the loop of `removeFixup`; the second result is the new sibling. -/
def removeCase3 (d : Dir) (xParent w : ι) : Option (LinkedTree ι δ × ι) := do
  let near ← (t.node w).child d
  let t := t.setColor near .black
  let t := t.setColor w .red
  let (t, _) ← t.rotate aug d.flip w
  let w ← (t.node xParent).child d.flip
  return (t, w)

def removeCase4 (d : Dir) (xParent w : ι) :
    Option (LinkedTree ι δ × Option ι × Option ι) := do
  let t := t.setColor w (t.node xParent).color
  let t := t.setColor xParent .black
  let t := t.setColorIf ((t.node w).child d.flip) .black
  let (t, _) ← t.rotate aug d xParent
  let root ← t.root
  return (t, some root, (t.node root).parent)

/-- Cases 2 to 4, for a black sibling `w`. -/
def removeCases (d : Dir) (xParent w : ι) :
    Option (LinkedTree ι δ × Option ι × Option ι) :=
  if t.isBlack ((t.node w).child d) && t.isBlack ((t.node w).child d.flip) then
    -- case 2
    let t := t.setColor w .red
    some (t, some xParent, (t.node xParent).parent)
  else if t.isBlack ((t.node w).child d.flip) then do
    let (t, w) ← t.removeCase3 aug d xParent w
    t.removeCase4 aug d xParent w
  else t.removeCase4 aug d xParent w

/-- One round of the loop of `removeFixup`, for the child `x` on side `d` of `xParent`. The results
    are the tree and the next `x` and `xParent`. -/
def removeRound (d : Dir) (xParent : ι) :
    Option (LinkedTree ι δ × Option ι × Option ι) := do
  -- the sibling of `x`; the source asserts that it is not null
  let w ← (t.node xParent).child d.flip
  if (t.node w).color = .red then
    -- case 1
    let t := t.setColor w .black
    let t := t.setColor xParent .red
    let (t, _) ← t.rotate aug d xParent
    let w ← (t.node xParent).child d.flip
    t.removeCases aug d xParent w
  else t.removeCases aug d xParent w

end

/-- `removeFixup` and `deleteFixup` -/
def removeFixup : Nat → LinkedTree ι δ → Option ι → Option ι → Option (LinkedTree ι δ)
  | 0, _, _, _ => none
  | rounds + 1, t, x, xParent =>
    if x ≠ t.root ∧ t.isBlack x then do
      let p ← xParent
      let d : Dir := if x = (t.node p).left then .left else .right
      let (t, x, xParent) ← t.removeRound aug d p
      removeFixup rounds t x xParent
    else some (t.setColorIf x .black)

/-- What `remove` and `deleteNode` do first: unlink a node `y` that has at most one child. The results
    are the tree, that child and its parent. -/
def unlink (t : LinkedTree ι δ) (y : ι) : LinkedTree ι δ × Option ι × Option ι :=
  let x := (t.node y).left.or (t.node y).right
  let t := t.setParentIf x (t.node y).parent
  let xParent := x.elim (t.node y).parent fun x => (t.node x).parent
  (t.relink (t.node y).parent y x, x, xParent)

end LinkedTree

end WebV8
