import Mathlib

/-!
# Key paths of IndexedDB

A key path is empty or consists of identifiers with dots between them. `IDBParseKeyPath` pulls
tokens from a lexer that keeps a view of the remaining text, and stops at the first token that does
not fit its state, with the elements it has so far. `idbParseKeyPath_spec` compares it with the
grammar.

Which characters make identifiers is a parameter: all that matters is that the dot is none.
-/

namespace WebV8

open List

/-- The dot. -/
def keyPathDot : UInt16 := 0x2E

/-- `isIdentifierStartCharacter` and `isIdentifierCharacter`. -/
structure IdentifierCharacters where
  isStart : UInt16 → Bool
  isPart : UInt16 → Bool
  isStart_dot : isStart keyPathDot = false
  isPart_dot : isPart keyPathDot = false

inductive KeyPathToken where
  | tokenIdentifier | tokenDot | tokenEnd | tokenError
  deriving DecidableEq, Repr

inductive KeyPathParserState where
  | identifier | dot | stop
  deriving DecidableEq, Repr

inductive IDBKeyPathParseError where
  | errorNone | errorStart | errorIdentifier | errorDot
  deriving DecidableEq, Repr

structure IDBKeyPathLexer where
  currentElement : List UInt16 := []
  remainingText : List UInt16
  deriving DecidableEq, Repr

namespace IdentifierCharacters

variable (C : IdentifierCharacters)

def lexIdentifier (l : IDBKeyPathLexer) : KeyPathToken × IDBKeyPathLexer :=
  match l.remainingText with
  | [] => (.tokenError, l)
  | c :: text =>
    if C.isStart c then (.tokenIdentifier, ⟨c :: text.takeWhile C.isPart, text.dropWhile C.isPart⟩)
    else (.tokenError, l)

def lex (l : IDBKeyPathLexer) : KeyPathToken × IDBKeyPathLexer :=
  match l.remainingText with
  | [] => (.tokenEnd, l)
  | c :: text =>
    if c = keyPathDot then (.tokenDot, { l with remainingText := text }) else C.lexIdentifier l

/-- **What the lexer can do.** -/
inductive Lexed (l : IDBKeyPathLexer) : KeyPathToken × IDBKeyPathLexer → Prop
  | finished (ht : l.remainingText = []) : Lexed l (.tokenEnd, l)
  | dot {text : List UInt16} (ht : l.remainingText = keyPathDot :: text) :
      Lexed l (.tokenDot, { l with remainingText := text })
  | identifier {c : UInt16} {text : List UInt16} (ht : l.remainingText = c :: text)
      (hstart : C.isStart c) :
      Lexed l (.tokenIdentifier, ⟨c :: text.takeWhile C.isPart, text.dropWhile C.isPart⟩)
  | error {c : UInt16} {text : List UInt16} (ht : l.remainingText = c :: text)
      (hdot : c ≠ keyPathDot) (hstart : C.isStart c = false) : Lexed l (.tokenError, l)

theorem lexed (l : IDBKeyPathLexer) {t : KeyPathToken × IDBKeyPathLexer} (h : C.lex l = t) :
    C.Lexed l t := by
  subst h
  unfold lex lexIdentifier
  cases ht : l.remainingText with
  | nil => exact .finished ht
  | cons c text =>
    dsimp only
    split_ifs with hdot hstart
    · exact .dot (hdot ▸ ht)
    · exact .identifier ht hstart
    · exact .error ht hdot (Bool.eq_false_iff.mpr hstart)

/-- The loop of `IDBParseKeyPath`. It ends because each token but the last takes some text. -/
def parseLoop (state : KeyPathParserState) (l : IDBKeyPathLexer) (elements : List (List UInt16)) :
    List (List UInt16) × IDBKeyPathParseError :=
  match state with
  | .identifier =>
    match _h : C.lex l with
    | (.tokenDot, l') => parseLoop .dot l' (elements ++ [l.currentElement])
    | (.tokenEnd, l') => parseLoop .stop l' (elements ++ [l.currentElement])
    | _ => (elements ++ [l.currentElement], .errorIdentifier)
  | .dot =>
    match _h : C.lex l with
    | (.tokenIdentifier, l') => parseLoop .identifier l' elements
    | _ => (elements, .errorDot)
  | .stop => (elements, .errorNone)
termination_by (l.remainingText.length, if state = .stop then 0 else 1)
decreasing_by
  all_goals
    cases C.lexed l _h with
    | _ => simp [Prod.lex_def, *, length_dropWhile_le]

def idbParseKeyPath (keyPath : List UInt16) : List (List UInt16) × IDBKeyPathParseError :=
  match C.lex { remainingText := keyPath } with
  | (.tokenIdentifier, l) => C.parseLoop .identifier l []
  | (.tokenEnd, l) => C.parseLoop .stop l []
  | _ => ([], .errorStart)

/-! ## The grammar -/

def IsIdentifier : List UInt16 → Prop
  | [] => False
  | c :: text => C.isStart c ∧ ∀ d ∈ text, C.isPart d

/-- The elements with a dot before each. -/
def dotted (ws : List (List UInt16)) : List UInt16 := ws.flatMap (keyPathDot :: ·)

/-- The elements with dots between them. -/
def join : List (List UInt16) → List UInt16
  | [] => []
  | w :: ws => w ++ dotted ws

/-- `EMPTY_STRING | identifier ('.' identifier)*` -/
def IsKeyPath (text : List UInt16) : Prop := ∃ ws, (∀ w ∈ ws, C.IsIdentifier w) ∧ join ws = text

/-- `('.' identifier)*` -/
def IsTail (text : List UInt16) : Prop :=
  ∃ ws, (∀ w ∈ ws, C.IsIdentifier w) ∧ dotted ws = text

variable {C} {c : UInt16} {text : List UInt16} {elements : List (List UInt16)}
  {r : List (List UInt16) × IDBKeyPathParseError}

theorem IsTail.eq_dot (h : C.IsTail (c :: text)) : c = keyPathDot := by
  obtain ⟨ws, -, h⟩ := h
  cases ws with
  | nil => cases h
  | cons w ws => exact (List.cons.inj h).1.symm

/-- The lexer takes the longest identifier, and no other can be followed by a dot or the end. -/
theorem IsTail.of_dot (h : C.IsTail (keyPathDot :: text)) :
    ∃ c rest, text = c :: rest ∧ C.isStart c ∧ C.IsTail (rest.dropWhile C.isPart) := by
  obtain ⟨ws, hids, h⟩ := h
  cases ws with
  | nil => cases h
  | cons w ws =>
    obtain ⟨hw, hws⟩ := forall_mem_cons.mp hids
    cases w with
    | nil => exact hw.elim
    | cons c w =>
      refine ⟨c, w ++ dotted ws, (List.cons.inj h).2.symm, hw.1, ws, hws, ?_⟩
      rw [dropWhile_append_of_pos hw.2]
      cases ws <;> simp [dotted, C.isPart_dot]

theorem not_isTail_of_lex {l : IDBKeyPathLexer}
    (hid : ∀ l', C.lex l = (.tokenIdentifier, l') → False) :
    ¬C.IsTail (keyPathDot :: l.remainingText) := by
  intro htail
  obtain ⟨c, rest, ht, hstart, -⟩ := htail.of_dot
  generalize hlex : C.lex l = t at hid
  cases C.lexed l hlex with
  | finished ht' => cases ht.symm.trans ht'
  | dot ht' =>
    cases ht.symm.trans ht'
    simp [C.isStart_dot] at hstart
  | identifier => exact hid _ rfl
  | error ht' _ hstart' =>
    cases ht.symm.trans ht'
    simp [hstart'] at hstart

/-- What the parser makes of a text `('.' identifier)*`, with the elements it had before. -/
def Parsed (C : IdentifierCharacters) (text : List UInt16) (elements : List (List UInt16))
    (r : List (List UInt16) × IDBKeyPathParseError) : Prop :=
  ∃ ws, r.1 = elements ++ ws ∧ (∀ w ∈ ws, C.IsIdentifier w) ∧
    dotted ws <+: text ∧ (r.2 = .errorNone → dotted ws = text) ∧ (C.IsTail text → r.2 = .errorNone)

theorem parsed_error {e : IDBKeyPathParseError} (hnot : ¬C.IsTail text) (he : e ≠ .errorNone) :
    Parsed C text elements (elements, e) :=
  ⟨[], by simp, by simp, nil_prefix, fun h => absurd h he, fun h => absurd h hnot⟩

theorem Parsed.identifier (hstart : C.isStart c)
    (h : Parsed C (text.dropWhile C.isPart) (elements ++ [c :: text.takeWhile C.isPart]) r) :
    Parsed C (keyPathDot :: c :: text) elements r := by
  obtain ⟨ws, helems, hids, hpre, hnone, htail⟩ := h
  have hdotted : dotted ((c :: text.takeWhile C.isPart) :: ws) =
      keyPathDot :: c :: (text.takeWhile C.isPart ++ dotted ws) := rfl
  have htext : text = text.takeWhile C.isPart ++ text.dropWhile C.isPart :=
    takeWhile_append_dropWhile.symm
  refine ⟨_ :: ws, helems.trans (append_assoc _ _ _), ?_, ?_, ?_, ?_⟩
  · exact forall_mem_cons.mpr ⟨⟨hstart, fun d hd => mem_takeWhile_imp hd⟩, hids⟩
  · have := (prefix_append_right_inj (text.takeWhile C.isPart)).mpr hpre
    rw [← htext] at this
    simpa [hdotted] using this
  · intro hr
    rw [hdotted, hnone hr, ← htext]
  · intro h
    obtain ⟨_, _, heq, -, hrest⟩ := h.of_dot
    cases heq
    exact htail hrest

/-- **The loop of the parser**, from each of its states. -/
theorem parseLoop_spec (state : KeyPathParserState) (l : IDBKeyPathLexer)
    (elements : List (List UInt16)) :
    match state with
    | .identifier =>
      Parsed C l.remainingText (elements ++ [l.currentElement]) (C.parseLoop state l elements)
    | .dot => Parsed C (keyPathDot :: l.remainingText) elements (C.parseLoop state l elements)
    | .stop => Parsed C [] elements (C.parseLoop state l elements) := by
  fun_induction parseLoop C state l elements with
  | case1 l elements l' h ih =>
    cases C.lexed l h with
    | dot ht => rwa [ht]
  | case2 l elements l' h ih =>
    cases C.lexed l h with
    | finished ht => rwa [ht]
  | case3 l elements hdot hend =>
    refine parsed_error (fun htail => ?_) (by decide)
    generalize hlex : C.lex l = t at hdot hend
    cases C.lexed l hlex with
    | finished => exact hend _ rfl
    | dot => exact hdot _ rfl
    | identifier ht hstart => simp_all [(ht ▸ htail).eq_dot, C.isStart_dot]
    | error ht hne => exact hne (ht ▸ htail).eq_dot
  | case4 l elements l' h ih =>
    cases C.lexed l h with
    | identifier ht hstart =>
      rw [ht]
      exact ih.identifier hstart
  | case5 l elements hid =>
    exact parsed_error (not_isTail_of_lex hid) (by decide)
  | case6 l elements => exact ⟨[], by simp, by simp, by simp [dotted], fun _ => rfl, fun _ => rfl⟩

theorem join_eq_of_dotted (h : dotted elements = keyPathDot :: text) : join elements = text := by
  cases elements with
  | nil => cases h
  | cons w ws => exact (List.cons.inj h).2

/-- A text that is not empty is parsed as if a dot stood before it. -/
theorem parsed_idbParseKeyPath (hne : text ≠ []) :
    Parsed C (keyPathDot :: text) [] (C.idbParseKeyPath text) := by
  unfold idbParseKeyPath
  split
  · next l h =>
    cases C.lexed _ h with
    | identifier ht hstart =>
      dsimp only at ht
      subst ht
      exact (parseLoop_spec .identifier _ []).identifier hstart
  · next l h =>
    cases C.lexed _ h with
    | finished ht => exact absurd ht hne
  · next hid hend => exact parsed_error (not_isTail_of_lex hid) (by decide)

/-- **The parser and the grammar**: there is no error exactly for the key paths, and then the
    elements are their identifiers. After an error the elements are what was read before it. -/
theorem idbParseKeyPath_spec (C : IdentifierCharacters) (text : List UInt16) :
    let (elements, error) := C.idbParseKeyPath text
    (error = .errorNone ↔ C.IsKeyPath text) ∧
      (error = .errorNone → join elements = text ∧ ∀ w ∈ elements, C.IsIdentifier w) ∧
      (error ≠ .errorNone → join elements <+: text) := by
  by_cases hne : text = []
  · have hparse : C.idbParseKeyPath [] = ([], .errorNone) := by
      simp [idbParseKeyPath, lex, parseLoop]
    rw [hne, hparse]
    exact ⟨⟨fun _ => ⟨[], by simp, rfl⟩, fun _ => rfl⟩, fun _ => ⟨rfl, by simp⟩, by simp⟩
  · have hparsed := parsed_idbParseKeyPath (C := C) hne
    generalize C.idbParseKeyPath text = r at hparsed ⊢
    obtain ⟨elements, error⟩ := r
    obtain ⟨ws, rfl, hids, hpre, hnone, htail⟩ := hparsed
    have hjoin := fun h => join_eq_of_dotted (hnone h)
    refine ⟨⟨fun h => ⟨_, hids, hjoin h⟩, ?_⟩, fun h => ⟨hjoin h, hids⟩, fun _ => ?_⟩
    · rintro ⟨vs, hvs, hvjoin⟩
      refine htail ⟨vs, hvs, ?_⟩
      cases vs with
      | nil => exact absurd hvjoin.symm hne
      | cons v vs => exact congrArg _ hvjoin
    · cases elements with
      | nil => exact nil_prefix
      | cons w ws => exact (cons_prefix_cons.mp hpre).2

end IdentifierCharacters

end WebV8
