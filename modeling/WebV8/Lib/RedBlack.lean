import Mathlib

/-!
# Red-black trees with a hole

Binary trees with a colour at every node, and trees with one subtree cut out: a list of frames from
the hole up to the root. `plug` puts a subtree back. An algorithm that walks up and down a tree and
repairs it on the way is a walk of the hole.

`Balanced t c n` says that `t` has root colour `c`, no red node with a red child, and `n` black nodes
on every path. `HoleOk ctx c n` says the same of a tree with a hole: a subtree with `n` black nodes on
every path fits, under a node of colour `c`. The two compose (`Balanced.plug`) and come apart
(`Balanced.unplug`).

The two children of a node are named by a direction, so that a case and its mirror image are one.
-/

namespace WebV8.Lib

open List

inductive Color where
  | red
  | black
deriving Repr, DecidableEq

inductive Dir where
  | left
  | right
deriving Repr, DecidableEq

def Dir.flip : Dir → Dir
  | .left => .right
  | .right => .left

@[simp] theorem Dir.flip_flip (d : Dir) : d.flip.flip = d := by cases d <;> rfl

@[simp] theorem Dir.flip_left : Dir.left.flip = Dir.right := rfl

@[simp] theorem Dir.flip_right : Dir.right.flip = Dir.left := rfl

theorem Dir.eq_or_eq_flip (d e : Dir) : e = d ∨ e = d.flip := by
  cases d <;> cases e <;> simp

inductive ColorTree (α : Type*) where
  | nil
  | node (color : Color) (left : ColorTree α) (label : α) (right : ColorTree α)
deriving Repr, DecidableEq

variable {α : Type*} {a : α}

namespace ColorTree

def inorder : ColorTree α → List α
  | nil => []
  | node _ l a r => l.inorder ++ a :: r.inorder

def root? : ColorTree α → Option α
  | nil => none
  | node _ _ a _ => some a

def blacken : ColorTree α → ColorTree α
  | nil => nil
  | node _ l a r => node .black l a r

def rootColor : ColorTree α → Color
  | nil => .black
  | node c _ _ _ => c

@[simp] theorem inorder_nil : (nil : ColorTree α).inorder = [] := rfl

@[simp] theorem inorder_node (c : Color) (l : ColorTree α) (a : α) (r : ColorTree α) :
    (node c l a r).inorder = l.inorder ++ a :: r.inorder := rfl

theorem mem_inorder_node {c : Color} {l r : ColorTree α} {b : α} :
    b ∈ (node c l a r).inorder ↔ b ∈ l.inorder ∨ b = a ∨ b ∈ r.inorder := by
  rw [inorder_node, mem_append, mem_cons]

theorem length_children {c : Color} {l r : ColorTree α} {n : Nat}
    (h : (node c l a r).inorder.length < n + 1) : l.inorder.length < n ∧ r.inorder.length < n := by
  rw [inorder_node, length_append, length_cons] at h
  omega

@[simp] theorem root?_nil : (nil : ColorTree α).root? = none := rfl

@[simp] theorem root?_node (c : Color) (l : ColorTree α) (a : α) (r : ColorTree α) :
    (node c l a r).root? = some a := rfl

@[simp] theorem inorder_blacken (t : ColorTree α) : t.blacken.inorder = t.inorder := by
  cases t <;> rfl

section

variable (d : Dir)

section

variable (c : Color)

section

variable (t : ColorTree α)

/-- A node whose child on side `d` is `t`, and whose other child is `s`. -/
def branch (a : α) (s : ColorTree α) : ColorTree α :=
  match d with
  | .left => node c t a s
  | .right => node c s a t

@[simp] theorem root?_branch (a : α) (s : ColorTree α) :
    (branch d c t a s).root? = some a := by
  cases d <;> rfl

@[simp] theorem rootColor_branch (a : α) (s : ColorTree α) :
    (branch d c t a s).rootColor = c := by
  cases d <;> rfl

@[simp] theorem blacken_branch (a : α) (s : ColorTree α) :
    (branch d c t a s).blacken = branch d .black t a s := by
  cases d <;> rfl

theorem branch_flip (a : α) (s : ColorTree α) :
    branch d.flip c s a t = branch d c t a s := by
  cases d <;> rfl

end

theorem node_eq_branch (l : ColorTree α) (a : α) (r : ColorTree α) :
    ∃ t s, node c l a r = branch d c t a s := by
  cases d with
  | left => exact ⟨l, r, rfl⟩
  | right => exact ⟨r, l, rfl⟩

theorem inorder_branch_perm (t : ColorTree α) (a : α) (s : ColorTree α) :
    (branch d c t a s).inorder.Perm (a :: (t.inorder ++ s.inorder)) := by
  cases d with
  | left => exact perm_middle
  | right => exact perm_middle.trans (List.Perm.cons a perm_append_comm)

end

end

/-! ## Balance -/

/-- Root colour `c`, no red node with a red child, `n` black nodes on every path. The empty tree
    counts as black. -/
inductive Balanced : ColorTree α → Color → Nat → Prop where
  | nil : Balanced nil .black 0
  | red {l r : ColorTree α} {a : α} {n : Nat} : Balanced l .black n → Balanced r .black n →
      Balanced (node .red l a r) .red n
  | black {l r : ColorTree α} {a : α} {c₁ c₂ : Color} {n : Nat} : Balanced l c₁ n → Balanced r c₂ n →
      Balanced (node .black l a r) .black (n + 1)

variable {d : Dir} {c c₁ c₂ : Color} {t s : ColorTree α} {a : α} {n : Nat}

theorem Balanced.rootColor_eq (h : Balanced t c n) : t.rootColor = c := by
  cases h <;> rfl

theorem Balanced.branch_red (ht : Balanced t .black n) (hs : Balanced s .black n) :
    Balanced (branch d .red t a s) .red n := by
  cases d with
  | left => exact .red ht hs
  | right => exact .red hs ht

theorem Balanced.branch_black (ht : Balanced t c₁ n) (hs : Balanced s c₂ n) :
    Balanced (branch d .black t a s) .black (n + 1) := by
  cases d with
  | left => exact .black ht hs
  | right => exact .black hs ht

theorem Balanced.of_branch_red (h : Balanced (branch d .red t a s) c n) :
    c = .red ∧ Balanced t .black n ∧ Balanced s .black n := by
  cases d with
  | left =>
    cases h with
    | red hl hr => exact ⟨rfl, hl, hr⟩
  | right =>
    cases h with
    | red hl hr => exact ⟨rfl, hr, hl⟩

theorem Balanced.of_branch_black (h : Balanced (branch d .black t a s) c n) :
    c = .black ∧ ∃ m c₁ c₂, n = m + 1 ∧ Balanced t c₁ m ∧ Balanced s c₂ m := by
  cases d with
  | left =>
    cases h with
    | black hl hr => exact ⟨rfl, _, _, _, rfl, hl, hr⟩
  | right =>
    cases h with
    | black hl hr => exact ⟨rfl, _, _, _, rfl, hr, hl⟩

theorem Balanced.blacken (h : Balanced t c n) : ∃ m, Balanced t.blacken .black m := by
  cases h with
  | nil => exact ⟨0, .nil⟩
  | red hl hr | black hl hr => exact ⟨_, .black hl hr⟩

theorem Balanced.blacken_red (h : Balanced t .red n) : Balanced t.blacken .black (n + 1) := by
  cases h with
  | red hl hr => exact .black hl hr

theorem Balanced.exists_branch (d : Dir) (h : Balanced t c (n + 1)) : ∃ l a r, t = branch d c l a r := by
  cases h with
  | red _ _ =>
    obtain ⟨t, s, h⟩ := node_eq_branch d .red _ _ _
    exact ⟨t, _, s, h⟩
  | black _ _ =>
    obtain ⟨t, s, h⟩ := node_eq_branch d .black _ _ _
    exact ⟨t, _, s, h⟩

theorem Balanced.exists_branch_red (d : Dir) (h : Balanced t .red n) : ∃ l a r, t = branch d .red l a r := by
  cases h with
  | red _ _ =>
    obtain ⟨t, s, h⟩ := node_eq_branch d .red _ _ _
    exact ⟨t, _, s, h⟩

end ColorTree

open ColorTree

/-! ## Trees with a hole -/

/-- A node above the hole: the hole is on its side `dir`. -/
structure Frame (α : Type*) where
  dir : Dir
  color : Color
  label : α
  sibling : ColorTree α

def Frame.fill (f : Frame α) (t : ColorTree α) : ColorTree α := branch f.dir f.color t f.label f.sibling

/-- The tree with a subtree in its hole. The first frame is the one next to the hole. -/
def plug : List (Frame α) → ColorTree α → ColorTree α
  | [], t => t
  | f :: ctx, t => plug ctx (f.fill t)

def above? : List (Frame α) → Option α
  | [] => none
  | f :: _ => some f.label

@[simp] theorem plug_nil (t : ColorTree α) : plug [] t = t := rfl

theorem plug_cons (f : Frame α) (ctx : List (Frame α)) (t : ColorTree α) :
    plug (f :: ctx) t = plug ctx (f.fill t) := rfl

theorem plug_append (ctx₁ ctx₂ : List (Frame α)) (t : ColorTree α) :
    plug (ctx₁ ++ ctx₂) t = plug ctx₂ (plug ctx₁ t) := by
  induction ctx₁ generalizing t with
  | nil => rfl
  | cons f ctx₁ ih => exact ih _

def before : List (Frame α) → List α
  | [] => []
  | f :: ctx =>
    before ctx ++ match f.dir with
      | .left => []
      | .right => f.sibling.inorder ++ [f.label]

def after : List (Frame α) → List α
  | [] => []
  | f :: ctx =>
    (match f.dir with
      | .left => f.label :: f.sibling.inorder
      | .right => []) ++ after ctx

theorem before_append (ctx₁ ctx₂ : List (Frame α)) : before (ctx₁ ++ ctx₂) = before ctx₂ ++ before ctx₁ := by
  induction ctx₁ with
  | nil => exact (append_nil _).symm
  | cons f ctx₁ ih =>
    rw [cons_append, before, before, ih, append_assoc]

theorem inorder_plug (ctx : List (Frame α)) (t : ColorTree α) :
    (plug ctx t).inorder = before ctx ++ t.inorder ++ after ctx := by
  induction ctx generalizing t with
  | nil => simp [before, after]
  | cons f ctx ih =>
    obtain ⟨d, c, a, s⟩ := f
    rw [plug_cons, ih]
    cases d <;> simp [before, after, Frame.fill, ColorTree.branch]

theorem length_inorder_plug (ctx : List (Frame α)) (t : ColorTree α) :
    ctx.length + t.inorder.length ≤ (plug ctx t).inorder.length := by
  induction ctx generalizing t with
  | nil => exact Nat.le_of_eq (Nat.zero_add _)
  | cons f ctx ih =>
    refine le_trans ?_ (ih (f.fill t))
    have hperm := (inorder_branch_perm f.dir f.color t f.label f.sibling).length_eq
    rw [length_cons, length_append] at hperm
    rw [Frame.fill, hperm, length_cons]
    omega

theorem exists_plug_of_mem : ∀ {t : ColorTree α}, a ∈ t.inorder →
    ∃ ctx c l r, t = plug ctx (node c l a r) := by
  intro t
  induction t with
  | nil =>
    intro h
    cases h
  | node c l b r ihl ihr =>
    intro h
    rcases mem_append.mp h with hl | hr
    · obtain ⟨ctx, c', l', r', rfl⟩ := ihl hl
      exact ⟨ctx ++ [⟨.left, c, b, r⟩], c', l', r', by rw [plug_append]; rfl⟩
    · rcases mem_cons.mp hr with rfl | hr
      · exact ⟨[], c, l, r, rfl⟩
      · obtain ⟨ctx, c', l', r', rfl⟩ := ihr hr
        exact ⟨ctx ++ [⟨.right, c, b, l⟩], c', l', r', by rw [plug_append]; rfl⟩

/-- A subtree with `n` black nodes on every path fits into the hole, below a node of colour `c` (black
    at the root). The root of the whole tree is not red. -/
inductive HoleOk : List (Frame α) → Color → Nat → Prop where
  | root {n : Nat} : HoleOk [] .black n
  | red {d : Dir} {a : α} {s : ColorTree α} {ctx : List (Frame α)} {n : Nat} : Balanced s .black n →
      HoleOk ctx .black n → ctx ≠ [] → HoleOk (⟨d, .red, a, s⟩ :: ctx) .red n
  | black {d : Dir} {a : α} {s : ColorTree α} {ctx : List (Frame α)} {c c' : Color} {n : Nat} :
      Balanced s c n → HoleOk ctx c' (n + 1) → HoleOk (⟨d, .black, a, s⟩ :: ctx) .black n

variable {ctx : List (Frame α)} {t : ColorTree α} {c c' : Color} {n : Nat}

/-- A subtree that fits into the hole makes a balanced tree, with a black root unless it is the whole
    tree. -/
theorem ColorTree.Balanced.plug (ht : Balanced t c n) (hctx : HoleOk ctx c' n) (hc : c' = .red → c = .black) :
    ∃ k m, Balanced (plug ctx t) k m ∧ (ctx = [] → k = c) ∧ (ctx ≠ [] → k = .black) := by
  induction hctx generalizing t c with
  | root => exact ⟨c, _, ht, fun _ => rfl, fun h => absurd rfl h⟩
  | red hs _ hne ih =>
    obtain rfl := hc rfl
    obtain ⟨k, m, hplug, -, hbla⟩ := ih (ht.branch_red hs) nofun
    exact ⟨k, m, hplug, nofun, fun _ => hbla hne⟩
  | @black d a s ctx c₂ c'' n hs hctx ih =>
    obtain ⟨k, m, hplug, htop, hrest⟩ := ih (ht.branch_black hs) (fun _ => rfl)
    refine ⟨k, m, hplug, nofun, fun _ => ?_⟩
    by_cases hemp : ctx = []
    · exact htop hemp
    · exact hrest hemp

theorem ColorTree.Balanced.unplug : ∀ {ctx : List (Frame α)} {t : ColorTree α} {m : Nat},
    Balanced (Lib.plug ctx t) .black m →
    ∃ c c' n, HoleOk ctx c' n ∧ Balanced t c n ∧ (c' = .red → c = .black) ∧ (ctx = [] → c = .black) := by
  intro ctx
  induction ctx with
  | nil =>
    intro t m h
    exact ⟨.black, .black, m, .root, h, fun _ => rfl, fun _ => rfl⟩
  | cons f ctx ih =>
    intro t m h
    obtain ⟨c, c', n, hctx, hfill, hc, hroot⟩ := ih h
    obtain ⟨d, cf, a, s⟩ := f
    cases cf with
    | red =>
      obtain ⟨rfl, ht, hs⟩ := Balanced.of_branch_red hfill
      cases c' with
      | red => cases hc rfl
      | black =>
        refine ⟨.black, .red, n, .red hs hctx ?_, ht, fun _ => rfl, nofun⟩
        intro hnil
        cases hroot hnil
    | black =>
      obtain ⟨rfl, k, c₁, c₂, rfl, ht, hs⟩ := Balanced.of_branch_black hfill
      exact ⟨c₁, .black, k, .black hs hctx, ht, nofun, nofun⟩

theorem HoleOk.replace {d : Dir} {s A B : ColorTree α}
    (hctx : HoleOk (⟨d, c, a, s⟩ :: ctx) c' n) (a' : α) (hA : Balanced A .black n) (hB : Balanced B .black n) :
    ∃ m, Balanced (plug ctx (branch d c A a' B)) .black m := by
  cases hctx with
  | red hs hctx hne =>
    obtain ⟨k, m, hplug, -, hbla⟩ := (hA.branch_red hB).plug hctx nofun
    obtain rfl := hbla hne
    exact ⟨m, hplug⟩
  | @black _ _ _ _ c₁ c₂ _ hs hctx =>
    obtain ⟨k, m, hplug, hroot, hbla⟩ := (hA.branch_black hB).plug hctx fun _ => rfl
    obtain rfl : k = .black := by
      by_cases hnil : ctx = []
      · exact hroot hnil
      · exact hbla hnil
    exact ⟨m, hplug⟩

theorem ColorTree.Balanced.relabel {l r : ColorTree α} (h : Balanced (Lib.plug ctx (node c l a r)) .black n)
    (b : α) : ∃ m, Balanced (Lib.plug ctx (node c l b r)) .black m := by
  obtain ⟨c₁, c₂, k, hctx, hsub, hc, hroot⟩ := h.unplug
  have hsub' : Balanced (node c l b r) c₁ k := by
    cases hsub with
    | red hl hr => exact .red hl hr
    | black hl hr => exact .black hl hr
  obtain ⟨c₃, m, hplug, htop, hrest⟩ := hsub'.plug hctx hc
  obtain rfl : c₃ = .black := by
    by_cases hnil : ctx = []
    · exact (htop hnil).trans (hroot hnil)
    · exact hrest hnil
  exact ⟨m, hplug⟩

end WebV8.Lib
