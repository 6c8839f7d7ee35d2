import WebV8.Platform.SharedBuffer

/-! # Runs over shared buffers

Several buffers, with the bytes that each of them should hold. Sizes are always right; reading goes wrong when the
size of the segments of a buffer does not fit its 32 bits. A copy has the slack of the last segment among its
bytes: it is right only when there is none.
-/

namespace WebV8

open Lib SharedBuffer List Option

variable {ι : Type}

/-- The buffers, and the bytes appended to each since it was cleared. -/
structure SharedBuffers (ι : Type) where
  objects : ι → SharedBuffer
  contents : ι → List UInt8

namespace SharedBuffers

def start : SharedBuffers ι := ⟨fun _ => .empty, fun _ => []⟩

inductive Operation (ι : Type) where
  | append (i : ι) (data : List UInt8)
  | appendBuffer (i other : ι)
  /-- `buffer()` or `data()` -/
  | buffer (i : ι)
  | clear (i : ι)

section

variable [DecidableEq ι]

def update (s : SharedBuffers ι) (i : ι) (object : SharedBuffer) (content : List UInt8) : SharedBuffers ι :=
  ⟨Function.update s.objects i object, Function.update s.contents i content⟩

def step (s : SharedBuffers ι) : Operation ι → Option (SharedBuffers ι)
  | .append i data => do
    let object ← (s.objects i).append (data.map some)
    return s.update i object (s.contents i ++ data)
  | .appendBuffer i other => do
    let object ← (s.objects i).appendBuffer (s.objects other)
    return s.update i object (s.contents i ++ s.contents other)
  | .buffer i => some (s.update i (s.objects i).buffer (s.contents i))
  | .clear i => some (s.update i (s.objects i).clear [])

end

/-- Lengths stay below 2^32, and a buffer is not appended to itself. -/
def Allowed (s : SharedBuffers ι) : Operation ι → Prop
  | .append i data => (s.contents i).length + data.length < 2 ^ 32
  | .appendBuffer i other => i ≠ other ∧ (s.contents i).length + (s.contents other).length < 2 ^ 32
  | _ => True

def Stores (b : SharedBuffer) (bytes : List UInt8) : Prop :=
  bytes.length < 2 ^ 32 ∧ ∃ slack, b.Layout (bytes.map some) slack

def Stored (s : SharedBuffers ι) : Prop := ∀ i, Stores (s.objects i) (s.contents i)

/-! ## Steps -/

variable {s s' : SharedBuffers ι} {bytes : List UInt8}

theorem stored_start : (start : SharedBuffers ι).Stored := fun _ => ⟨Nat.two_pow_pos 32, [], layout_empty⟩

section

variable [DecidableEq ι]

theorem Stored.update (h : s.Stored) {i : ι} {object : SharedBuffer} {content : List UInt8}
    (hi : Stores object content) : (s.update i object content).Stored := by
  intro j
  simp only [SharedBuffers.update, Function.update_apply]
  split_ifs
  · exact hi
  · exact h j

theorem Stores.appendAll {b b' : SharedBuffer} {more : List UInt8} (h : Stores b bytes)
    (ps : List (List Cell)) (hps : ps.flatten = more.map some) (hsize : bytes.length + more.length < 2 ^ 32)
    (happ : ps.foldlM SharedBuffer.append b = some b') : Stores b' (bytes ++ more) := by
  obtain ⟨-, slack, hlay⟩ := h
  obtain ⟨b₁, slack₁, hb₁, hlay₁⟩ := foldlM_append_spec hlay ps
    (by rw [hps, length_map, length_map]; exact hsize)
  obtain rfl : b₁ = b' := Option.some.inj (hb₁.symm.trans happ)
  refine ⟨by rwa [length_append], slack₁, ?_⟩
  rwa [hps, ← map_append] at hlay₁

/-- **Every step that comes to an end** keeps the bytes. -/
theorem Stored.step (h : s.Stored) {op : Operation ι} (hop : s.Allowed op) (hstep : s.step op = some s') :
    s'.Stored := by
  cases op with
  | append i data =>
    obtain ⟨object, hobj, hs'⟩ := bind_eq_some_iff.mp hstep
    obtain rfl := Option.some.inj hs'
    refine h.update ((h i).appendAll [data.map some] (by simp) hop ?_)
    rw [foldlM_cons, hobj]
    rfl
  | appendBuffer i other =>
    obtain ⟨object, hobj, hs'⟩ := bind_eq_some_iff.mp hstep
    obtain rfl := Option.some.inj hs'
    obtain ⟨ps, hps, hfold⟩ := bind_eq_some_iff.mp hobj
    obtain ⟨hsize, slack, hlay⟩ := h other
    have hflat : ps.flatten = (s.contents other).map some := piecesFrom_zero hlay (by rwa [length_map]) hps
    exact h.update ((h i).appendAll ps hflat hop.2 hfold)
  | buffer i =>
    obtain rfl := Option.some.inj hstep
    obtain ⟨hsize, slack, hlay⟩ := h i
    exact h.update ⟨hsize, [], (buffer_spec hlay).2⟩
  | clear i =>
    obtain rfl := Option.some.inj hstep
    exact h.update ⟨by decide, [], layout_empty⟩

end

/-! ## Contents -/

/-- Every buffer has the right size, and gives the right bytes from every position on. -/
def Faithful (s : SharedBuffers ι) : Prop :=
  ∀ i, (s.objects i).size = (s.contents i).length ∧
    ∀ position < (s.objects i).size, (s.objects i).ReadsFrom ((s.contents i).map some) position

def Few (s : SharedBuffers ι) : Prop := ∀ i, (s.objects i).FewSegments

theorem faithful_iff_few (h : s.Stored) : s.Faithful ↔ s.Few := by
  refine forall_congr' fun i => ?_
  obtain ⟨hsize, slack, hlay⟩ := h i
  rw [readsFrom_iff hlay (by rwa [length_map])]
  refine and_iff_right ?_
  rw [hlay.size, length_map]

/-- **Shared buffers hold the bytes appended**: along every run with lengths below 2^32, the sizes are right and
    reading gives the right bytes from every position, exactly as long as every buffer has fewer than 2^20
    segments. -/
theorem contents_iff [DecidableEq ι] (ops : List (Operation ι)) (hops : EachStep step Allowed start ops) :
    Along step Faithful (start : SharedBuffers ι) ops ↔ Along step Few start ops :=
  along_iff_along (fun _ => faithful_iff_few) (fun _ _ _ h hop hstep => h.step hop hstep) ops stored_start hops

theorem contents_iff_small : Along step Faithful start [Operation.append () [1, 2, 3], .buffer ()] ↔
      Along step Few start [Operation.append () [1, 2, 3], .buffer ()] :=
  contents_iff _ ⟨show 0 + 3 < 2 ^ 32 by decide, fun _ _ => ⟨trivial, fun _ _ => trivial⟩⟩

theorem append_largest (h : bytes.length = 2 ^ 32 - 1) :
    ∃ b, SharedBuffer.empty.append (bytes.map some) = some b ∧ Stores b bytes ∧ ¬b.FewSegments := by
  have hlen : (bytes.map some).length = 2 ^ 32 - 1 := by rw [length_map, h]
  obtain ⟨b, slack, hb, hlay⟩ := append_spec layout_empty
    (show ([] : List Cell).length + (bytes.map some).length < 2 ^ 32 by rw [hlen]; decide)
  rw [nil_append] at hlay
  refine ⟨b, hb, ⟨by omega, slack, hlay⟩, fun hfew => ?_⟩
  have hdata : b.data = [] := append_data hb (by rw [hlen]; decide)
  have hseg := hlay.length_eq
  rw [hdata, hlen, segmentSize] at hseg
  rw [FewSegments] at hfew
  simp at hseg
  omega

theorem not_faithful_append (h : bytes.length = 2 ^ 32 - 1) :
    ¬Along step Faithful start [Operation.append () bytes] := by
  obtain ⟨b, hb, hsts, hmany⟩ := append_largest h
  rintro ⟨-, s', hstep, hfai⟩
  obtain ⟨object, hobj, hs'⟩ := bind_eq_some_iff.mp hstep
  obtain rfl : b = object := Option.some.inj (hb.symm.trans hobj)
  obtain rfl := Option.some.inj hs'
  obtain ⟨hsize, slack, hlay⟩ := hsts
  refine hmany ((readsFrom_iff hlay (by rwa [length_map])).mp ?_)
  have hrea := (hfai ()).2
  exact hrea

/-- Zeroes, as many as a size can count. -/
theorem read_never_ends : ¬Along step Faithful start [Operation.append () (List.replicate (2 ^ 32 - 1) 0)] :=
  not_faithful_append length_replicate

/-! ## Copies -/

section

variable [DecidableEq ι]

/-- `j` becomes a copy of `i`. -/
def copyTo (s : SharedBuffers ι) (i j : ι) : SharedBuffers ι := s.update j (s.objects i).copy (s.contents i)

/-- The copy has the size and the bytes, flattened and read piece by piece, and what is appended to it goes
    behind them and leaves the original as it is. -/
structure CopiesWell (s : SharedBuffers ι) (i j : ι) : Prop where
  size : ((s.copyTo i j).objects j).size = (s.objects i).size
  buffer : ((s.copyTo i j).objects j).buffer.data = (s.contents i).map some
  reads : ∀ position < (s.objects i).size,
    ((s.copyTo i j).objects j).ReadsFrom ((s.contents i).map some) position
  appends : ∀ more : List (List UInt8), (s.contents i).length + more.flatten.length < 2 ^ 32 →
    ∃ s', run step (s.copyTo i j) (more.map (.append j)) = some s' ∧ s'.objects i = s.objects i ∧
      (s'.objects j).buffer.data = (s.contents i ++ more.flatten).map some

theorem objects_copyTo (s : SharedBuffers ι) (i j : ι) : (s.copyTo i j).objects j = (s.objects i).copy :=
  Function.update_self _ _ _

theorem run_append {j : ι} (hj : Stores (s.objects j) (s.contents j)) (more : List (List UInt8))
    (hsize : (s.contents j).length + more.flatten.length < 2 ^ 32) :
    ∃ s', run step s (more.map (.append j)) = some s' ∧ (∀ i ≠ j, s'.objects i = s.objects i) ∧
      Stores (s'.objects j) (s.contents j ++ more.flatten) := by
  induction more generalizing s with
  | nil =>
    rw [flatten_nil, append_nil]
    exact ⟨s, rfl, fun _ _ => rfl, hj⟩
  | cons data more ih =>
    rw [flatten_cons, length_append] at hsize
    obtain ⟨-, slack, hlay⟩ := id hj
    obtain ⟨b, slack', happ, -⟩ := append_spec hlay
      (show ((s.contents j).map some).length + (data.map some).length < 2 ^ 32 by
        rw [length_map, length_map]
        omega)
    have hstep : s.step (.append j data) = some (s.update j b (s.contents j ++ data)) := by
      rw [SharedBuffers.step, happ]
      rfl
    have hb : Stores b (s.contents j ++ data) := by
      refine hj.appendAll [data.map some] (by simp) (by omega) ?_
      rw [foldlM_cons, happ]
      rfl
    have hobj : (s.update j b (s.contents j ++ data)).objects j = b := Function.update_self _ _ _
    have hcon : (s.update j b (s.contents j ++ data)).contents j = s.contents j ++ data :=
      Function.update_self _ _ _
    obtain ⟨s', hrun, hoth, hsts⟩ := ih
      (by rwa [hobj, hcon]) (by rw [hcon, length_append]; omega)
    refine ⟨s', by rw [map_cons, run_cons hstep, hrun], fun i hi => ?_, ?_⟩
    · rw [hoth i hi]
      exact Function.update_of_ne hi _ _
    · rwa [hcon, append_assoc, ← flatten_cons] at hsts

theorem copiesWell_iff (h : s.Stored) {i j : ι} (hij : i ≠ j) :
    s.CopiesWell i j ↔ segmentSize ∣ (s.objects i).size - (s.objects i).data.length := by
  obtain ⟨hsize, slack, hlay⟩ := h i
  have hlen := hlay.length_eq
  have hsla := hlay.slack
  rw [← hlay.size] at hlen
  constructor
  · intro hcop
    have hflat := hcop.buffer
    have hcopy : (s.objects i).copy.buffer = (s.objects i).copy := by
      rw [SharedBuffer.buffer, if_neg]
      simp [SharedBuffer.copy, hlay.wide.length_flatten]
      omega
    rw [objects_copyTo, hcopy, SharedBuffer.copy, hlay.stored] at hflat
    have hnone : slack = [] := append_right_eq_self.mp hflat
    rw [hnone, length_nil, Nat.add_zero] at hlen
    exact ⟨_, by rw [← hlen, Nat.mul_comm]⟩
  · rintro ⟨full, hfull⟩
    have hnone : slack = [] := by
      rw [segmentSize] at hlen hsla hfull
      exact eq_nil_of_length_eq_zero (by omega)
    have hsto := hlay.stored
    rw [hnone, append_nil] at hsto
    have hcopy : (s.objects i).copy.Layout ((s.contents i).map some) [] := by
      rw [SharedBuffer.copy, hsto]
      exact ⟨hlay.size, forall_mem_nil _, rfl, Nat.le_refl _, segmentSize_pos, fun _ => rfl⟩
    have hcon : (s.copyTo i j).contents j = s.contents i := Function.update_self _ _ _
    have hsts : Stores ((s.copyTo i j).objects j) ((s.copyTo i j).contents j) := by
      rw [objects_copyTo, hcon]
      exact ⟨hsize, [], hcopy⟩
    refine ⟨?_, ?_, ?_, fun more hmore => ?_⟩
    · rw [objects_copyTo]
      rfl
    · rw [objects_copyTo]
      exact (buffer_spec hcopy).1
    · rw [objects_copyTo]
      exact (readsFrom_iff hcopy (by rwa [length_map])).mpr (Nat.two_pow_pos 20)
    · obtain ⟨s', hrun, hoth, -, slack', hlay'⟩ := run_append hsts more (by rwa [hcon])
      refine ⟨s', hrun, ?_, ?_⟩
      · rw [hoth i hij]
        exact Function.update_of_ne hij _ _
      · rw [(buffer_spec hlay').1, hcon]

/-- **A copy equals the original** exactly if the original has no segment that is filled only in part, for every
    buffer of every run. -/
theorem copy_iff (ops : List (Operation ι)) (hops : EachStep step Allowed start ops)
    (hrun : run step start ops = some s) {i j : ι} (hij : i ≠ j) :
    s.CopiesWell i j ↔ segmentSize ∣ (s.objects i).size - (s.objects i).data.length :=
  copiesWell_iff (run_keeps (fun _ _ _ h hop hstep => h.step hop hstep) ops stored_start hops hrun) hij

end

theorem allowed_append (i : Bool) {data : List UInt8} (h : data.length < 2 ^ 32) :
    EachStep step Allowed start [Operation.append i data] := by
  refine ⟨?_, fun _ _ => trivial⟩
  rw [Allowed, start, length_nil, Nat.zero_add]
  exact h

theorem copy_iff_small : ∃ s, run step start [Operation.append false [1, 2, 3]] = some s ∧
      (s.CopiesWell false true ↔ segmentSize ∣ (s.objects false).size - (s.objects false).data.length) :=
  ⟨_, rfl, copy_iff [Operation.append false [1, 2, 3]] (allowed_append false (by decide)) rfl (by decide)⟩

/-- The copy of a buffer of 4097 bytes has 8192. -/
theorem copy_has_slack : ∃ s, run step start [Operation.append false (List.replicate 4097 0)] = some s ∧
      (s.objects false).size = 4097 ∧ ((s.copyTo false true).objects true).buffer.data.length = 8192 ∧
      ¬s.CopiesWell false true := by
  have hrun : (run step start [Operation.append false (List.replicate 4097 0)]).map (fun s =>
      ((s.objects false).size, ((s.copyTo false true).objects true).buffer.data.length)) =
        some (4097, 8192) := by
    decide +kernel
  obtain ⟨s, hs, heq⟩ := map_eq_some_iff.mp hrun
  obtain ⟨hsize, hlength⟩ := Prod.mk.inj heq
  refine ⟨s, hs, hsize, hlength, fun hcopies => ?_⟩
  have hlen : (List.replicate 4097 (0 : UInt8)).length < 2 ^ 32 := by
    rw [length_replicate]
    decide
  have hstored := run_keeps (fun _ _ _ h hop hstep => Stored.step h hop hstep) _ stored_start
    (allowed_append false hlen) hs
  obtain ⟨-, slack, hlayout⟩ := hstored false
  have hcount := congrArg List.length hcopies.buffer
  rw [hlength, ← hlayout.size, hsize] at hcount
  exact absurd hcount (by decide)

end SharedBuffers

end WebV8
