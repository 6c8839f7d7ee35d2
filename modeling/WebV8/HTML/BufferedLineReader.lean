import Mathlib

/-!
# The lines of a WebVTT file

`BufferedLineReader` gets a file in pieces and hands out its lines. A line ends with CR, LF or
CR LF. When the data ends with a CR, the reader returns the line and has to remember that an LF at
the beginning of the next piece belongs to it. `getLine_lines` says that the reader gives the lines
of the whole file, however it is cut into pieces and whenever it is asked.

The `SegmentedString` and the `StringBuilder` of the reader are the lists of their characters.
-/

namespace WebV8

structure BufferedLineReader where
  buffer : List UInt16 := []
  lineBuffer : List UInt16 := []
  endOfStream : Bool := false
  maybeSkipLF : Bool := false
  deriving DecidableEq, Repr

namespace BufferedLineReader

def newlineCharacter : UInt16 := 0x0A

def carriageReturn : UInt16 := 0x0D

/-- NULs are transformed into U+FFFD. -/
def replaceNull (c : UInt16) : UInt16 := if c = 0 then 0xFFFD else c

variable (r : BufferedLineReader)

def append (data : List UInt16) : BufferedLineReader :=
  { r with buffer := r.buffer ++ data }

def setEndOfStream : BufferedLineReader := { r with endOfStream := true }

def isAtEndOfStream : Bool := r.endOfStream && r.buffer.isEmpty

/-- Consume the next character of the buffer if it is the character `c`. -/
def scanCharacter (c : UInt16) : BufferedLineReader :=
  if r.buffer.head? = some c then { r with buffer := r.buffer.tail } else r

/-- The loop of `getLine`: the character that ended the line, the line and what is left. -/
def readLine (line : List UInt16) : List UInt16 → Option UInt16 × List UInt16 × List UInt16
  | [] => (none, line, [])
  | c :: buffer =>
    if c = newlineCharacter ∨ c = carriageReturn then (some c, line, buffer)
    else readLine (line ++ [replaceNull c]) buffer

/-- The data ran out after a CR: an LF that comes now belongs to it. -/
def skipLF : BufferedLineReader :=
  if r.maybeSkipLF ∧ r.buffer ≠ [] then
    { r.scanCharacter newlineCharacter with maybeSkipLF := false }
  else r

/-- The answer `none` is `false`. -/
def getLine : Option (List UInt16) × BufferedLineReader :=
  let (ending, lineBuffer, buffer) := readLine r.skipLF.lineBuffer r.skipLF.buffer
  let r := { r.skipLF with lineBuffer, buffer }
  let r :=
    if ending = some carriageReturn then
      -- May be in the middle of a CRLF pair.
      if r.buffer ≠ [] then r.scanCharacter newlineCharacter else { r with maybeSkipLF := true }
    else r
  if ending.isSome ∨ r.isAtEndOfStream ∧ r.lineBuffer ≠ [] then
    (some r.lineBuffer, { r with lineBuffer := [] })
  else (none, r)

inductive Call where
  | append (data : List UInt16)
  | getLine

def Call.data : Call → List UInt16
  | append data => data
  | getLine => []

/-- The reader, and the lines it has returned. -/
def perform (s : BufferedLineReader × List (List UInt16)) :
    Call → BufferedLineReader × List (List UInt16)
  | .append data => (s.1.append data, s.2)
  | .getLine => (s.1.getLine.2, s.2 ++ s.1.getLine.1.toList)

/-- `getLine` is called until it returns `false`, and returns the lines. -/
inductive Drains : BufferedLineReader → List (List UInt16) → Prop
  | stop {r : BufferedLineReader} (h : r.getLine.1 = none) : Drains r []
  | line {r : BufferedLineReader} {line : List UInt16} {lines : List (List UInt16)}
      (h : r.getLine.1 = some line) (hrest : Drains r.getLine.2 lines) : Drains r (line :: lines)

/-! ## The lines of a text -/

/-- The lines of a text whose first line has begun with `line`; `afterCR` tells that an LF at the
    beginning is the second half of a line ending. -/
def linesFrom (afterCR : Bool) (line : List UInt16) : List UInt16 → List (List UInt16)
  | [] => if line = [] then [] else [line]
  | c :: text =>
    if c = newlineCharacter then
      if afterCR then linesFrom false line text else line :: linesFrom false [] text
    else if c = carriageReturn then line :: linesFrom true [] text
    else linesFrom false (line ++ [replaceNull c]) text

/-- The lines that a reader has still to return when the text `rest` is to come. -/
def lines (rest : List UInt16) : List (List UInt16) :=
  linesFrom r.maybeSkipLF r.lineBuffer (r.buffer ++ rest)

variable (line rest : List UInt16)

@[simp] theorem scanCharacter_frame (c : UInt16) :
    (r.scanCharacter c).lineBuffer = r.lineBuffer ∧
      (r.scanCharacter c).endOfStream = r.endOfStream ∧
      (r.scanCharacter c).maybeSkipLF = r.maybeSkipLF := by
  unfold scanCharacter
  split_ifs <;> simp

/-- After a CR the reader looks for an LF when there is data. -/
theorem linesFrom_scanCharacter (hne : r.buffer ≠ []) :
    linesFrom true line (r.buffer ++ rest) =
      linesFrom false line ((r.scanCharacter newlineCharacter).buffer ++ rest) := by
  obtain ⟨c, buffer, hbuf⟩ := List.exists_cons_of_ne_nil hne
  by_cases hc : c = newlineCharacter <;> simp [scanCharacter, hbuf, hc, linesFrom]

theorem skipLF_spec :
    r.skipLF.lines rest = r.lines rest ∧ r.skipLF.endOfStream = r.endOfStream ∧
      (r.skipLF.maybeSkipLF → r.skipLF.buffer = []) := by
  by_cases h : r.maybeSkipLF ∧ r.buffer ≠ []
  · rw [skipLF, if_pos h, lines, lines, h.1, linesFrom_scanCharacter r _ _ h.2]
    simp
  · rw [skipLF, if_neg h]
    simpa using h

/-- **The loop of `getLine`** stops at the end of the first line, or at the end of the data. -/
theorem linesFrom_readLine (buffer : List UInt16) :
    (∃ line', readLine line buffer = (none, line', []) ∧
      linesFrom false line (buffer ++ rest) = linesFrom false line' rest) ∨
    ∃ c line' left, readLine line buffer = (some c, line', left) ∧
      linesFrom false line (buffer ++ rest) =
        line' :: linesFrom (decide (c = carriageReturn)) [] (left ++ rest) := by
  induction buffer generalizing line with
  | nil => exact Or.inl ⟨line, rfl, rfl⟩
  | cons c buffer ih =>
    rw [List.cons_append, linesFrom, readLine]
    by_cases hlf : c = newlineCharacter
    · subst hlf
      exact Or.inr ⟨_, line, buffer, rfl, rfl⟩
    · by_cases hcr : c = carriageReturn
      · subst hcr
        exact Or.inr ⟨_, line, buffer, rfl, rfl⟩
      · rw [if_neg hlf, if_neg hcr, if_neg (not_or.mpr ⟨hlf, hcr⟩)]
        exact ih _

/-- **One call** takes the line it returns from the lines to come. At the end of the stream it
    returns `false` only when there are none. -/
theorem lines_getLine (heos : r.endOfStream → rest = []) :
    r.lines rest = r.getLine.1.toList ++ r.getLine.2.lines rest ∧
      r.getLine.2.endOfStream = r.endOfStream ∧
      (r.endOfStream → r.getLine.1 = none → r.lines rest = []) := by
  obtain ⟨hlines, hstream, hskip⟩ := skipLF_spec r rest
  rw [← hstream] at heos
  rw [← hlines, ← hstream]
  unfold getLine
  generalize r.skipLF = s at *
  rcases linesFrom_readLine s.lineBuffer rest s.buffer with
    ⟨line, hread, hline⟩ | ⟨c, line, left, hread, hline⟩
  · -- the data ends before the line does
    have hl : s.lines rest = linesFrom s.maybeSkipLF line rest := by
      cases hflag : s.maybeSkipLF with
      | false => rw [lines, hflag, hline]
      | true =>
        rw [hskip hflag] at hread
        cases hread
        rw [lines, hflag, hskip hflag, List.nil_append]
    rw [hl]
    by_cases hend : s.endOfStream ∧ line ≠ []
    · obtain rfl := heos hend.1
      simp [hread, isAtEndOfStream, hend, lines, linesFrom]
    · have hnil : s.endOfStream → linesFrom s.maybeSkipLF line rest = [] := by
        intro h
        rw [heos h, linesFrom, if_pos (not_not.mp fun hne => hend ⟨h, hne⟩)]
      simpa [hread, isAtEndOfStream, hend, lines] using hnil
  · have hflag : s.maybeSkipLF = false := by
      refine Bool.eq_false_iff.mpr fun h => ?_
      rw [hskip h] at hread
      cases hread
    rw [lines, hflag, hline]
    by_cases hc : c = carriageReturn
    · by_cases hleft : left = []
      · simp [hread, hc, hleft, lines]
      · have hscan :=
          linesFrom_scanCharacter { s with lineBuffer := line, buffer := left } [] rest hleft
        simpa [hread, hc, hleft, lines, hflag] using hscan
    · simp [hread, hc, lines, hflag]

/-- At the end of the stream the reader gives the lines that are left, and then `false`. -/
theorem drains_lines (heos : r.endOfStream) : Drains r (r.lines []) := by
  generalize hlines : r.lines [] = lines
  induction lines generalizing r with
  | nil =>
    have hcall := (lines_getLine r [] fun _ => rfl).1
    rw [hlines] at hcall
    exact .stop (Option.toList_eq_nil_iff.mp (List.append_eq_nil_iff.mp hcall.symm).1)
  | cons line lines ih =>
    obtain ⟨hcall, hstream, hnone⟩ := lines_getLine r [] fun _ => rfl
    cases hget : r.getLine.1 with
    | none => exact absurd (hlines.symm.trans (hnone heos hget)) (List.cons_ne_nil line lines)
    | some first =>
      rw [hlines, hget] at hcall
      obtain ⟨rfl, hrest⟩ := List.cons.inj hcall
      exact .line hget (ih _ (hstream.trans heos) hrest.symm)

/-- The lines returned and the lines to come are the lines of the file. -/
theorem lines_perform (calls : List Call) (s : BufferedLineReader × List (List UInt16))
    (hopen : s.1.endOfStream = false) :
    s.2 ++ s.1.lines (calls.flatMap Call.data ++ rest) =
      (calls.foldl perform s).2 ++ (calls.foldl perform s).1.lines rest := by
  induction calls generalizing s with
  | nil => rfl
  | cons call calls ih =>
    cases call with
    | append data =>
      rw [List.foldl_cons, ← ih (perform s (.append data)) hopen]
      simp [perform, append, lines, Call.data]
    | getLine =>
      obtain ⟨hcall, hstream, -⟩ :=
        lines_getLine s.1 (calls.flatMap Call.data ++ rest) (by simp [hopen])
      rw [List.foldl_cons, ← ih (perform s .getLine) (hstream.trans hopen)]
      simpa [perform, Call.data] using hcall

/-- **The lines do not depend on the pieces**: whatever is appended and whenever lines are asked
    for, the reader returns the lines of the whole text, and the last line without an end exactly
    when it is not empty. -/
theorem getLine_lines (calls : List Call) :
    let (r, returned) := calls.foldl perform ({}, [])
    ∃ left, Drains r.setEndOfStream left ∧
      returned ++ left = linesFrom false [] (calls.flatMap Call.data) := by
  refine ⟨_, drains_lines _ rfl, ?_⟩
  simpa [lines, setEndOfStream] using (lines_perform [] calls ({}, []) rfl).symm

end BufferedLineReader

end WebV8
