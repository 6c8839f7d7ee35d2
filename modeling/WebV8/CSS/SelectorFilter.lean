import WebV8.Lib.Run
import WebV8.WTF.BloomFilter

/-! # SelectorFilter

While the style of a tree is resolved, the filter holds the hashes of the tag names, ids and classes of the
ancestors of the current element. A selector with an identifier that an ancestor must have, and no ancestor has, is
rejected without matching it.
-/

namespace WebV8

open Lib List

/-- A finite tree of elements, with the trees of shadow roots below their hosts. -/
structure ElementTree (E : Type) where
  parentElement : E → Option E
  parentOrShadowHostElement : E → Option E
  shadowHost : E → Option E
  previousElementSibling : E → Option E
  /-- `parentNode()` or `isShadowRoot()` -/
  hasParentNode : E → Bool
  localName : E → String
  namespaceURI : E → String
  idForStyleResolution : E → Option String
  classNames : E → List String
  parent : ∀ {e p}, parentElement e = some p → parentOrShadowHostElement e = some p
  sibling : ∀ {e s}, previousElementSibling e = some s → parentOrShadowHostElement s = parentOrShadowHostElement e
  root : ∀ {e}, hasParentNode e = false → parentOrShadowHostElement e = none
  finite : WellFounded fun p e => parentOrShadowHostElement e = some p
  host : ∀ {e h}, shadowHost e = some h → Relation.TransGen (fun p e => parentOrShadowHostElement e = some p) h e

namespace ElementTree

variable {E : Type}

def ancestors (tree : ElementTree E) (e : E) : List E :=
  match _h : tree.parentOrShadowHostElement e with
  | none => []
  | some p => p :: ancestors tree p
termination_by tree.finite.wrap e
decreasing_by exact _h

variable {tree : ElementTree E}

theorem ancestors_of_some {e p : E} (h : tree.parentOrShadowHostElement e = some p) :
    tree.ancestors e = p :: tree.ancestors p := by
  rw [ancestors]
  split
  · rename_i hnone
    rw [h] at hnone
    exact nomatch hnone
  · rename_i p' hsome
    obtain rfl : p = p' := Option.some.inj (h.symm.trans hsome)
    rfl

theorem ancestors_of_none {e : E} (h : tree.parentOrShadowHostElement e = none) : tree.ancestors e = [] := by
  rw [ancestors]
  split
  · rfl
  · rename_i p' hsome
    rw [h] at hsome
    exact nomatch hsome

end ElementTree

open ElementTree

/-! ## Selectors -/

namespace CSSSelector

inductive Relation where
  | descendant | child | directAdjacent | indirectAdjacent | subSelector | shadowDescendant

/-- What a simple selector asks of an element; the filter knows tags, ids and classes. -/
inductive Match (E : Type) where
  | tag (localName namespaceURI : String)
  | id (value : String)
  | className (value : String)
  | other (condition : E → Bool)

end CSSSelector

/-- A simple selector, and how it is related to the next one. A selector is a list of these, from right to left: the
    tail is the `tagHistory`. -/
structure CSSSelector (E : Type) where
  match_ : CSSSelector.Match E
  relation : CSSSelector.Relation

namespace CSSSelector

variable {E : Type}

def starAtom : String := "*"

def checkOne (tree : ElementTree E) (e : E) : Match E → Prop
  | .tag localName namespaceURI =>
    (localName = starAtom ∨ localName = tree.localName e) ∧
      (namespaceURI = starAtom ∨ namespaceURI = tree.namespaceURI e)
  | .id value => tree.idForStyleResolution e = some value
  | .className value => value ∈ tree.classNames e
  | .other condition => condition e = true

def Related (tree : ElementTree E) (e e' : E) : Relation → Prop
  | .descendant => Relation.TransGen (fun p e => tree.parentElement e = some p) e' e
  | .child => tree.parentElement e = some e'
  | .directAdjacent => tree.previousElementSibling e = some e'
  | .indirectAdjacent => Relation.TransGen (fun s e => tree.previousElementSibling e = some s) e' e
  | .subSelector => e' = e
  | .shadowDescendant => tree.shadowHost e = some e'

def Matches (tree : ElementTree E) : List (CSSSelector E) → E → Prop
  | [], _ => True
  | [selector], e => checkOne tree e selector.match_
  | selector :: next :: history, e =>
    checkOne tree e selector.match_ ∧ ∃ e', Related tree e e' selector.relation ∧ Matches tree (next :: history) e'

end CSSSelector

/-! ## The filter -/

structure ParentStackFrame (E : Type) where
  element : E
  identifierHashes : List UInt32

structure SelectorFilter (E : Type) where
  parentStack : List (ParentStackFrame E)
  ancestorIdentifierFilter : Option (BloomFilter 12)

namespace SelectorFilter

variable {E : Type}

def TagNameSalt : UInt32 := 13
def IdAttributeSalt : UInt32 := 17
def ClassAttributeSalt : UInt32 := 19

section

variable (tree : ElementTree E) (hash : String → UInt32)

def collectElementIdentifierHashes (element : E) : List UInt32 :=
  hash (tree.localName element) * TagNameSalt ::
    ((tree.idForStyleResolution element).toList.map fun id => hash id * IdAttributeSalt) ++
    (tree.classNames element).map fun className => hash className * ClassAttributeSalt

def pushParentStackFrame (filter : SelectorFilter E) (parent : E) : Option (SelectorFilter E) := do
  let bloom ← filter.ancestorIdentifierFilter
  let identifierHashes := collectElementIdentifierHashes tree hash parent
  some
    { parentStack := ⟨parent, identifierHashes⟩ :: filter.parentStack
      ancestorIdentifierFilter := some (identifierHashes.foldl BloomFilter.add bloom) }

def popParentStackFrame (filter : SelectorFilter E) : Option (SelectorFilter E) :=
  match filter.parentStack with
  | [] => none
  | parentFrame :: rest => do
    let bloom ← filter.ancestorIdentifierFilter
    let bloom := parentFrame.identifierHashes.foldl BloomFilter.remove bloom
    some { parentStack := rest, ancestorIdentifierFilter := if rest.isEmpty then none else some bloom }

def setupParentStack (parent : E) : Option (SelectorFilter E) :=
  let filter : SelectorFilter E := { parentStack := [], ancestorIdentifierFilter := some BloomFilter.clear }
  if !tree.hasParentNode parent then pushParentStackFrame tree hash filter parent
  else (parent :: tree.ancestors parent).reverse.foldlM (pushParentStackFrame tree hash) filter

def pushParent [DecidableEq E] (filter : SelectorFilter E) (parent : E) : Option (SelectorFilter E) :=
  match filter.parentStack with
  | [] => none
  | frame :: _ =>
    if some frame.element ≠ tree.parentOrShadowHostElement parent then some filter
    else pushParentStackFrame tree hash filter parent

inductive Operation (E : Type) where
  | setupParentStack (parent : E)
  | pushParent (parent : E)
  | popParent

def step [DecidableEq E] (filter : SelectorFilter E) : Operation E → Option (SelectorFilter E)
  | .setupParentStack parent => setupParentStack tree hash parent
  | .pushParent parent => pushParent tree hash filter parent
  | .popParent => popParentStackFrame filter

end

def start : SelectorFilter E := { parentStack := [], ancestorIdentifierFilter := none }

/-! ## Rejection -/

section

variable (hash : String → UInt32)

def collectDescendantSelectorIdentifierHashes (selector : CSSSelector E) : List UInt32 :=
  match selector.match_ with
  | .id value => if value ≠ "" then [hash value * IdAttributeSalt] else []
  | .className value => if value ≠ "" then [hash value * ClassAttributeSalt] else []
  | .tag localName _ => if localName ≠ CSSSelector.starAtom then [hash localName * TagNameSalt] else []
  | .other _ => []

/-- The loop over the tag history: what is collected for a selector depends on its relation to the one before. -/
def collectLoop (maximumIdentifierCount : Nat) :
    CSSSelector.Relation → Bool → List UInt32 → List (CSSSelector E) → List UInt32
  | _, _, hashes, [] => hashes ++ [0]
  | relation, skipOverSubselectors, hashes, selector :: history =>
    let (skipOverSubselectors, collected) :=
      match relation with
      | .subSelector =>
        (skipOverSubselectors,
          if !skipOverSubselectors then collectDescendantSelectorIdentifierHashes hash selector else [])
      | .directAdjacent | .indirectAdjacent | .shadowDescendant => (true, [])
      | .descendant | .child => (false, collectDescendantSelectorIdentifierHashes hash selector)
    if (hashes ++ collected).length = maximumIdentifierCount then hashes ++ collected
    else collectLoop maximumIdentifierCount selector.relation skipOverSubselectors (hashes ++ collected) history

/-- The entries that are written; the topmost selector is skipped. -/
def collectIdentifierHashes (maximumIdentifierCount : Nat) (selector : CSSSelector E)
    (tagHistory : List (CSSSelector E)) : List UInt32 :=
  collectLoop hash maximumIdentifierCount selector.relation true [] tagHistory

end

def fastRejectSelector (bloom : BloomFilter 12) : Nat → List UInt32 → Bool
  | 0, _ => false
  | _ + 1, [] => false
  | n + 1, hash :: identifierHashes =>
    if hash = 0 then false
    else if !bloom.mayContain hash then true
    else fastRejectSelector bloom n identifierHashes

/-! ## The stack -/

section

variable {tree : ElementTree E} {hash : String → UInt32} {filter : SelectorFilter E} {elements : List E}

/-- The filter holds the hashes of these elements, the last one on top. -/
structure StackOf (tree : ElementTree E) (hash : String → UInt32) (elements : List E) (filter : SelectorFilter E) :
    Prop where
  stack : filter.parentStack = elements.map fun e => ⟨e, collectElementIdentifierHashes tree hash e⟩
  bloom : ∃ bloom ∈ filter.ancestorIdentifierFilter,
    bloom.Holds (elements.flatMap (collectElementIdentifierHashes tree hash))

variable {keyBits : Nat} {bloom : BloomFilter keyBits} {held hashes : List UInt32} {e : E}
    {relation : CSSSelector.Relation} {next : SelectorFilter E}

theorem holds_foldl_add (h : bloom.Holds held)
    (hashes : List UInt32) : (hashes.foldl BloomFilter.add bloom).Holds (hashes ++ held) := by
  induction hashes generalizing bloom held with
  | nil => exact h
  | cons first rest ih => exact (ih (h.add first)).perm perm_middle

theorem holds_foldl_remove
    (h : bloom.Holds (hashes ++ held)) : (hashes.foldl BloomFilter.remove bloom).Holds held := by
  induction hashes generalizing bloom with
  | nil => exact h
  | cons first rest ih => exact ih (BloomFilter.Holds.remove h)

theorem StackOf.push (h : StackOf tree hash elements filter) (parent : E) :
    ∃ next, pushParentStackFrame tree hash filter parent = some next ∧ StackOf tree hash (parent :: elements) next := by
  obtain ⟨hstk, bloom, hblo, hhol⟩ := h
  have hblo : filter.ancestorIdentifierFilter = some bloom := hblo
  rw [pushParentStackFrame, hblo]
  refine ⟨_, rfl, ?_, _, rfl, ?_⟩
  · rw [hstk]
    rfl
  · exact holds_foldl_add hhol _

theorem StackOf.pop {top : E} (h : StackOf tree hash (top :: elements) filter) (hne : elements ≠ [])
    (hpop : popParentStackFrame filter = some next) : StackOf tree hash elements next := by
  obtain ⟨hstk, bloom, hblo, hhol⟩ := h
  have hblo : filter.ancestorIdentifierFilter = some bloom := hblo
  rw [popParentStackFrame, hstk, hblo] at hpop
  obtain rfl := Option.some.inj hpop
  refine ⟨rfl, _, if_neg ?_, holds_foldl_remove hhol⟩
  rw [List.isEmpty_iff, map_eq_nil_iff]
  exact hne

theorem StackOf.foldlM (h : StackOf tree hash elements filter) (more : List E)
    (hpush : more.foldlM (pushParentStackFrame tree hash) filter = some next) :
    StackOf tree hash (more.reverse ++ elements) next := by
  induction more generalizing filter elements with
  | nil =>
    obtain rfl := Option.some.inj hpush
    exact h
  | cons first rest ih =>
    obtain ⟨filter₁, hfst, hstk⟩ := h.push first
    rw [foldlM_cons, hfst] at hpush
    rw [reverse_cons, append_assoc]
    exact ih hstk hpush

/-- The stack is empty, or the path from the root to its top. -/
def Consistent (tree : ElementTree E) (hash : String → UInt32) (filter : SelectorFilter E) : Prop :=
  filter.parentStack = [] ∨ ∃ top, StackOf tree hash (top :: tree.ancestors top) filter

theorem Consistent.step [DecidableEq E] (h : Consistent tree hash filter) (op : Operation E)
    (hstep : step tree hash filter op = some next) : Consistent tree hash next := by
  cases op with
  | setupParentStack parent =>
    have hemp : StackOf tree hash [] { parentStack := [], ancestorIdentifierFilter := some BloomFilter.clear } :=
      ⟨rfl, _, rfl, BloomFilter.holds_clear⟩
    right
    refine ⟨parent, ?_⟩
    rw [SelectorFilter.step, setupParentStack] at hstep
    by_cases hroot : tree.hasParentNode parent
    · rw [if_neg (by rw [hroot]; decide)] at hstep
      have hstk := hemp.foldlM _ hstep
      rwa [reverse_reverse, append_nil] at hstk
    · rw [if_pos (by rw [Bool.eq_false_of_not_eq_true hroot]; rfl)] at hstep
      obtain ⟨next', hpush, hstk⟩ := hemp.push parent
      obtain rfl := Option.some.inj (hstep.symm.trans hpush)
      rwa [ancestors_of_none (tree.root (Bool.eq_false_of_not_eq_true hroot))]
  | pushParent parent =>
    rw [SelectorFilter.step, pushParent] at hstep
    rcases h with hemp | ⟨top, hstk⟩
    · rw [hemp] at hstep
      exact nomatch hstep
    · rw [hstk.stack] at hstep
      change (if some top ≠ tree.parentOrShadowHostElement parent then some filter else _) = some next at hstep
      by_cases htop : some top ≠ tree.parentOrShadowHostElement parent
      · rw [if_pos htop] at hstep
        obtain rfl := Option.some.inj hstep
        exact Or.inr ⟨top, hstk⟩
      · rw [if_neg htop] at hstep
        obtain ⟨next', hpush, hstk'⟩ := hstk.push parent
        obtain rfl := Option.some.inj (hstep.symm.trans hpush)
        refine Or.inr ⟨parent, ?_⟩
        rwa [ancestors_of_some (not_not.mp htop).symm]
  | popParent =>
    rw [SelectorFilter.step] at hstep
    rcases h with hemp | ⟨top, hstk⟩
    · rw [popParentStackFrame, hemp] at hstep
      exact nomatch hstep
    · cases hpar : tree.parentOrShadowHostElement top with
      | none =>
        left
        obtain ⟨hfrs, bloom, hblo, -⟩ := hstk
        have hblo : filter.ancestorIdentifierFilter = some bloom := hblo
        rw [popParentStackFrame, hfrs, hblo] at hstep
        obtain rfl := Option.some.inj hstep
        rw [ancestors_of_none hpar, map_nil]
      | some parent =>
        rw [ancestors_of_some hpar] at hstk
        exact Or.inr ⟨parent, hstk.pop (cons_ne_nil _ _) hstep⟩

/-! ## Ancestors of a match -/

def Above (tree : ElementTree E) (hash : String → UInt32) (e : E) (h : UInt32) : Prop :=
  ∃ a ∈ tree.ancestors e, h ∈ collectElementIdentifierHashes tree hash a

theorem mem_collect_of_checkOne {selector : CSSSelector E} (h : CSSSelector.checkOne tree e selector.match_) :
    ∀ x ∈ collectDescendantSelectorIdentifierHashes hash selector, x ∈ collectElementIdentifierHashes tree hash e := by
  intro x hx
  rw [collectDescendantSelectorIdentifierHashes] at hx
  rw [collectElementIdentifierHashes]
  cases hmat : selector.match_ with
  | tag localName namespaceURI =>
    rw [hmat] at h hx
    dsimp only at hx
    split_ifs at hx with hstar
    · obtain rfl := mem_singleton.mp hx
      rw [h.1.resolve_left hstar]
      exact mem_append_left _ mem_cons_self
    · exact nomatch hx
  | id value =>
    rw [hmat] at h hx
    dsimp only at hx
    split_ifs at hx
    · obtain rfl := mem_singleton.mp hx
      have hid : tree.idForStyleResolution e = some value := h
      rw [hid]
      exact mem_append_left _ (mem_cons_of_mem _ mem_cons_self)
    · exact nomatch hx
  | className value =>
    rw [hmat] at h hx
    dsimp only at hx
    split_ifs at hx
    · obtain rfl := mem_singleton.mp hx
      exact mem_append_right _ (mem_map_of_mem h)
    · exact nomatch hx
  | other condition =>
    rw [hmat] at hx
    exact nomatch hx

theorem mem_ancestors_of_transGen {a : E}
    (h : Relation.TransGen (fun p e => tree.parentOrShadowHostElement e = some p) a e) :
    a ∈ tree.ancestors e ∧ tree.ancestors a ⊆ tree.ancestors e := by
  induction h with
  | single hpar =>
    rw [ancestors_of_some hpar]
    exact ⟨mem_cons_self, subset_cons_self _ _⟩
  | tail _ hpar ih =>
    rw [ancestors_of_some hpar]
    exact ⟨mem_cons_of_mem _ ih.1, subset_cons_of_subset _ ih.2⟩

theorem mem_ancestors_of_descendant {a : E} (h : Relation.TransGen (fun p e => tree.parentElement e = some p) a e) :
    a ∈ tree.ancestors e ∧ tree.ancestors a ⊆ tree.ancestors e :=
  mem_ancestors_of_transGen (Relation.TransGen.mono (fun _ _ hpar => tree.parent hpar) _ _ h)

theorem ancestors_of_sibling {s : E} (h : tree.previousElementSibling e = some s) :
    tree.ancestors s = tree.ancestors e := by
  have hpar := tree.sibling h
  cases hs : tree.parentOrShadowHostElement s with
  | none => rw [ancestors_of_none hs, ancestors_of_none (hpar.symm.trans hs)]
  | some p => rw [ancestors_of_some hs, ancestors_of_some (hpar.symm.trans hs)]

theorem ancestors_of_related {e' : E} (h : CSSSelector.Related tree e e' relation) :
    tree.ancestors e' ⊆ tree.ancestors e := by
  cases relation with
  | descendant => exact (mem_ancestors_of_descendant h).2
  | child => exact (mem_ancestors_of_transGen (.single (tree.parent h))).2
  | directAdjacent => exact fun a ha => ancestors_of_sibling h ▸ ha
  | indirectAdjacent =>
    induction h with
    | single hs => exact fun a ha => ancestors_of_sibling hs ▸ ha
    | tail _ hs ih => exact fun a ha => ancestors_of_sibling hs ▸ ih ha
  | subSelector =>
    obtain rfl : e' = e := h
    exact List.Subset.refl _
  | shadowDescendant => exact (mem_ancestors_of_transGen (tree.host h)).2

/-- **What is collected is found above**: `x` is the element that the selector before the history matches, and `e` the
    one that the whole selector matches. -/
theorem above_of_mem_collectLoop {x : E} {maximumIdentifierCount : Nat} {skip : Bool}
    {history : List (CSSSelector E)} (hpath : tree.ancestors x ⊆ tree.ancestors e)
    (hskip : skip = false → x ∈ tree.ancestors e)
    (hmat : history ≠ [] → ∃ x', CSSSelector.Related tree x x' relation ∧ CSSSelector.Matches tree history x')
    (hhas : ∀ h ∈ hashes, h = 0 ∨ Above tree hash e h) :
    ∀ h ∈ collectLoop hash maximumIdentifierCount relation skip hashes history, h = 0 ∨ Above tree hash e h := by
  induction history generalizing x relation skip hashes with
  | nil =>
    intro h hmem
    rcases mem_append.mp hmem with hold | hzero
    · exact hhas h hold
    · exact Or.inl (mem_singleton.mp hzero)
  | cons selector history ih =>
    obtain ⟨x', hrel, hx'⟩ := hmat (cons_ne_nil _ _)
    have hpath' := List.Subset.trans (ancestors_of_related hrel) hpath
    have hche : CSSSelector.checkOne tree x' selector.match_ := by
      cases history with
      | nil => exact hx'
      | cons next history => exact hx'.1
    have hnext : history ≠ [] →
        ∃ x'', CSSSelector.Related tree x' x'' selector.relation ∧ CSSSelector.Matches tree history x'' := by
      intro hne
      cases history with
      | nil => exact absurd rfl hne
      | cons next history => exact hx'.2
    -- What one turn collects is of the element that the selector matches, which is above if it is collected.
    have hturn : ∀ (skip' : Bool) (collected : List UInt32), (skip' = false → x' ∈ tree.ancestors e) →
        (∀ h ∈ collected, x' ∈ tree.ancestors e ∧ h ∈ collectDescendantSelectorIdentifierHashes hash selector) →
        ∀ h ∈ (if (hashes ++ collected).length = maximumIdentifierCount then hashes ++ collected
          else collectLoop hash maximumIdentifierCount selector.relation skip' (hashes ++ collected) history),
          h = 0 ∨ Above tree hash e h := by
      intro skip' collected hskip' hcol
      have hhas' : ∀ h ∈ hashes ++ collected, h = 0 ∨ Above tree hash e h := by
        intro h hmem
        rcases mem_append.mp hmem with hold | hnew
        · exact hhas h hold
        · obtain ⟨habv, hsel⟩ := hcol h hnew
          exact Or.inr ⟨x', habv, mem_collect_of_checkOne hche h hsel⟩
      split_ifs
      · exact hhas'
      · exact ih hpath' hskip' hnext hhas'
    cases relation with
    | subSelector =>
      obtain rfl : x' = x := hrel
      refine hturn skip _ hskip fun h hmem => ?_
      cases hs : skip with
      | true =>
        rw [hs] at hmem
        exact nomatch hmem
      | false =>
        rw [hs] at hmem
        exact ⟨hskip hs, hmem⟩
    | directAdjacent | indirectAdjacent | shadowDescendant => exact hturn true [] nofun nofun
    | descendant =>
      have hx := hpath (mem_ancestors_of_descendant hrel).1
      exact hturn false _ (fun _ => hx) fun h hmem => ⟨hx, hmem⟩
    | child =>
      have hx := hpath (mem_ancestors_of_transGen (.single (tree.parent hrel))).1
      exact hturn false _ (fun _ => hx) fun h hmem => ⟨hx, hmem⟩

theorem fastRejectSelector_of_forall {bloom : BloomFilter 12} (n : Nat)
    (h : ∀ x ∈ hashes, x = 0 ∨ bloom.mayContain x = true) : fastRejectSelector bloom n hashes = false := by
  induction n generalizing hashes with
  | zero => rfl
  | succ n ih =>
    cases hashes with
    | nil => rfl
    | cons first rest =>
      obtain ⟨hfst, hrest⟩ := forall_mem_cons.mp h
      rw [fastRejectSelector]
      by_cases hzero : first = 0
      · rw [if_pos hzero]
      · rw [if_neg hzero, hfst.resolve_left hzero]
        exact ih hrest

end

def pair : ElementTree Bool where
  parentElement child := if child then some false else none
  parentOrShadowHostElement child := if child then some false else none
  shadowHost _ := none
  previousElementSibling _ := none
  hasParentNode child := child
  localName _ := "div"
  namespaceURI _ := ""
  idForStyleResolution child := if child then none else some "main"
  classNames _ := []
  parent h := h
  sibling h := nomatch h
  root {e} h := by
    rw [h]
    rfl
  finite := by
    refine Subrelation.wf (r := (· < ·)) ?_ wellFounded_lt
    intro p e h
    cases e with
    | false => exact nomatch h
    | true =>
      obtain rfl : false = p := Option.some.inj h
      decide
  host h := nomatch h

end SelectorFilter

end WebV8
