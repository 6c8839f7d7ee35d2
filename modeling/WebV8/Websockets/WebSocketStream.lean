import WebV8.Websockets.WebSocketReceive

/-!
# Receiving a stream

The channel as an incremental consumer. The verdict on a frame determines what is done, apart from
what is left in the buffer, and more bytes do not change a verdict; so a receiving channel satisfies
the laws of `Lib.Consumer`, and the receive loop drains it.

`reference` is where a channel would come to with everything it has received, were it not
suspended. Data feeds it, suspending and resuming leave it alone, and a channel that is neither
suspended nor about to resume has come there.
-/

namespace WebV8

open Lib List Consumer

def InboundState.Receiving (s : InboundState) : Prop :=
  s.client = true ∧ s.shouldDiscardReceivedData = false ∧ s.receivedClosingHandshake = false

instance (s : InboundState) : Decidable s.Receiving := by
  unfold InboundState.Receiving
  infer_instance

namespace ChannelState

variable (env : Environment)

/-! ## The channel as a consumer -/

theorem blind_deliverText (data : List UInt8) : Blind (deliverText data) := by
  intro s b
  unfold deliverText
  split
  · exact Blind.fail _ s b
  · exact ⟨b, rfl⟩

theorem blind_skipBuffer (n : Nat) : Blind (skipBuffer n) := fun _ b => ⟨b.drop n, rfl⟩

theorem blind_finishContinuousFrame : Blind finishContinuousFrame := by
  have htext : Blind fun s =>
      { s with continuousFrameData := [], hasContinuousFrame := false }.deliverText
        s.continuousFrameData := fun s b =>
    blind_deliverText _ { s with continuousFrameData := [], hasContinuousFrame := false } b
  exact .ite (fun _ _ => rfl) htext (.ite (fun _ _ => rfl) (fun _ b => ⟨b, rfl⟩) fun _ b => ⟨b, rfl⟩)

variable (frame : WebSocketFrame)

theorem blind_appendContinuousFrame (n : Nat) :
    Blind (appendContinuousFrame frame n) := fun _ b => ⟨b.drop n, rfl⟩

theorem blind_startContinuousFrame (opCode : OpCode) (frame : WebSocketFrame) (n : Nat) :
    Blind (startContinuousFrame opCode frame n) := fun _ b => ⟨b.drop n, rfl⟩

theorem blind_processContinuationFrame (n : Nat) :
    Blind (processContinuationFrame frame n) := by
  have happ : Blind fun s =>
      if frame.final then (s.appendContinuousFrame frame n).finishContinuousFrame
      else s.appendContinuousFrame frame n :=
    .ite (fun _ _ => rfl) (.comp blind_finishContinuousFrame (blind_appendContinuousFrame frame n))
      (blind_appendContinuousFrame frame n)
  exact .ite (fun _ _ => rfl) (.fail _) happ

theorem blind_processCloseFrame (n : Nat) : Blind (processCloseFrame env frame n) := by
  unfold processCloseFrame
  cases closeFrameCode frame.payload with
  | error reason =>
    intro s b
    exact Blind.fail reason { s with closeEventCode := closeEventCodeAbnormalClosure } b
  | ok code =>
    have hrec : Blind (receiveCloseFrame code (closeFrameReason frame.payload) n) := fun _ b => ⟨b.drop n, rfl⟩
    have h := Blind.comp (Blind.finishClosingHandshake env) (Blind.comp (Blind.startClosingHandshake env code
        (env.utf8 .lenientConversion ((closeFrameReason frame.payload).getD []))) hrec)
    exact h

theorem blind_processPingFrame (n : Nat) : Blind (processPingFrame env frame n) := by
  have henq : Blind fun s => (s.enqueueRawFrame .pong frame.payload).skipBuffer n := fun _ b => ⟨b.drop n, rfl⟩
  have h := Blind.comp (Blind.processOutgoingFrameQueue env) henq
  exact h

theorem blind_handleFrame (n : Nat) : Blind (handleFrame env frame n) := by
  unfold handleFrame
  cases frame.opCode with
  | continuation => exact blind_processContinuationFrame frame n
  | text =>
    exact .ite (fun _ _ => rfl) (.comp (blind_deliverText _) (blind_skipBuffer n))
      (blind_startContinuousFrame .text frame n)
  | binary =>
    exact .ite (fun _ _ => rfl) (.comp (.emit _) (blind_skipBuffer n)) (blind_startContinuousFrame .binary frame n)
  | close => exact blind_processCloseFrame env frame n
  | ping => exact blind_processPingFrame env frame n
  | pong | reserved code => exact blind_skipBuffer n

theorem blind_react (verdict : ParseFrameResult) : Blind (react env verdict) := by
  intro s b
  cases verdict with
  | frameIncomplete => exact ⟨b, rfl⟩
  | frameError errorString => exact Blind.fail errorString s b
  | frameOK frame n =>
    have hche : (s.withBuffer b).frameFailure frame = s.frameFailure frame := rfl
    simp only [react, hche]
    cases s.frameFailure frame with
    | some reason => exact Blind.fail reason s b
    | none => exact blind_handleFrame env frame n s b

def consumed : ParseFrameResult → Nat
  | .frameOK _ frameEnd => frameEnd
  | _ => 0

/-- One look at the received bytes by a channel whose own buffer is left out. -/
def readFrame (s : ChannelState) (b : List UInt8) : Reading ChannelState :=
  if s.Receiving then
    if parseFrame b = .frameIncomplete then .wait
    else
      let t := (s.withBuffer b).react env (parseFrame b)
      if t.Receiving then .take (consumed (parseFrame b)) (t.withBuffer [])
      else .stop (t.withBuffer [])
  else .stop s

theorem not_receiving_fail (s : ChannelState) (reason : String) : ¬ (s.fail reason).Receiving := by
  rintro ⟨-, hdis, -⟩
  exact absurd (fail_discards s reason) (by simp [hdis])

variable {s t : ChannelState} {b : List UInt8}

theorem readFrame_append (c : List UInt8)
    (h : readFrame env s b ≠ .wait) : readFrame env s (b ++ c) = readFrame env s b := by
  unfold readFrame at h ⊢
  split at h
  · rename_i hs
    split at h
    · exact absurd rfl h
    · rename_i hver
      have hpar := parseFrame_append c hver
      obtain ⟨b', hb'⟩ := blind_react env (parseFrame b) (s.withBuffer b) (b ++ c)
      have hrea : (s.withBuffer (b ++ c)).react env (parseFrame b) =
          ((s.withBuffer b).react env (parseFrame b)).withBuffer b' := hb'
      simp only [if_pos hs, hpar, if_neg hver, hrea]
      rfl
  · rename_i hs
    simp only [if_neg hs]

theorem readFrame_wait (hr : s.Receiving) (h : readFrame env s b = .wait) : parseFrame b = .frameIncomplete := by
  by_contra hv
  rw [readFrame, if_pos hr, if_neg hv] at h
  dsimp only at h
  split at h <;> cases h

theorem readFrame_stop (hr : s.Receiving) (h : readFrame env s b = .stop t) :
    parseFrame b ≠ .frameIncomplete ∧ ¬ ((s.withBuffer b).react env (parseFrame b)).Receiving ∧
      t = ((s.withBuffer b).react env (parseFrame b)).withBuffer [] := by
  rw [readFrame, if_pos hr] at h
  dsimp only at h
  split_ifs at h with hv hstop
  cases h
  exact ⟨hv, hstop, rfl⟩

theorem readFrame_take {n : Nat} (h : readFrame env s b = .take n t) :
    ∃ frame, parseFrame b = .frameOK frame n ∧ s.Receiving ∧ t.Receiving ∧
      (s.withBuffer b).frameFailure frame = none ∧ t = ((s.withBuffer b).handleFrame env frame n).withBuffer [] ∧
      (s.withBuffer b).handleFrame env frame n = t.withBuffer (b.drop n) := by
  unfold readFrame at h
  split at h
  · rename_i hs
    split at h
    · cases h
    · rename_i hver
      dsimp only at h
      split at h
      · rename_i ht
        cases hv : parseFrame b with
        | frameIncomplete => exact absurd hv hver
        | frameError errorString =>
          rw [hv] at ht
          exact absurd ht (not_receiving_fail _ _)
        | frameOK frame m =>
          rw [hv] at h ht
          simp only [Reading.take.injEq, consumed] at h
          obtain ⟨rfl, rfl⟩ := h
          cases hf : (s.withBuffer b).frameFailure frame with
          | some reason =>
            simp only [react, hf] at ht
            exact absurd ht (not_receiving_fail _ _)
          | none =>
            have hrea : (s.withBuffer b).react env (.frameOK frame m) =
                (s.withBuffer b).handleFrame env frame m := by
              simp only [react, hf]
            rw [hrea] at ht ⊢
            have hrest := (handleFrame_handled env frame m (s.withBuffer b)).leavesRest.2 ht.2.1
            refine ⟨frame, rfl, hs, ht, hf, rfl, ?_⟩
            rw [show b.drop m = ((s.withBuffer b).handleFrame env frame m).buffer from hrest.symm]
            rfl
      · cases h
  · cases h

def receiver : Consumer ChannelState UInt8 where
  read := readFrame env
  take_pos := by
    intro s t b n h
    obtain ⟨frame, hparse, -⟩ := readFrame_take env h
    have := frameEnd_bounds hparse
    omega
  take_append := by
    intro s t b n c h
    rw [readFrame_append env c (by simp [h]), h]
  stop_append := by
    intro s t b c h
    rw [readFrame_append env c (by simp [h]), h]

/-! ## The loop drains the consumer -/

theorem Handled.awake {frame : WebSocketFrame} {n : Nat} (hst : Handled env frame n s t) (h : Awake s) : Awake t := by
  cases hst with
  | fail =>
    refine Awake.acts ?_ (.fail _ _)
    exact ⟨h.suspended, h.linked, h.wired, h.honest⟩
  | keep => exact ⟨h.suspended, h.linked, h.wired, h.honest⟩
  | deliver _ _ _ error =>
    refine Awake.emit ?_ error
    exact ⟨h.suspended, h.linked, h.wired, h.honest⟩
  | close =>
    refine Awake.acts ?_ ((Acts.startClosingHandshake env _ _ _).trans (.finishClosingHandshake env _))
    exact ⟨h.suspended, h.linked, h.wired, h.honest⟩
  | ping =>
    refine Awake.acts ?_ (.processOutgoingFrameQueue env _)
    exact ⟨h.suspended, h.linked, h.wired, h.honest⟩

theorem awake_react (h : Awake s) (verdict : ParseFrameResult) : Awake (s.react env verdict) := by
  cases verdict with
  | frameIncomplete => exact h
  | frameError errorString => exact h.acts (.fail s errorString)
  | frameOK frame n =>
    unfold react
    dsimp only
    split
    · exact h.acts (.fail s _)
    · exact (handleFrame_handled env frame n s).awake env h

theorem receiveLoop_of_empty (h : s.buffer = []) : s.receiveLoop env = s := by
  rw [receiveLoop, if_neg (by simp [h])]

theorem receiveLoop_of_suspended (h : s.suspended = true) : s.receiveLoop env = s := by
  rw [receiveLoop, if_neg (by simp [h])]

theorem processBuffer_of_receiving (h : s.Receiving) : s.processBuffer env = s.processFrame env := by
  rw [processBuffer, if_neg (by simp [h.2.1]), if_neg (by simp [h.2.2])]

theorem receiveLoop_of_wait (hr : s.Receiving)
    (hv : parseFrame s.buffer = .frameIncomplete) : s.receiveLoop env = s := by
  have hpro : s.processBuffer env = (s, false) := by
    rw [processBuffer_of_receiving env hr, processFrame, hv]
  rw [receiveLoop, hpro]
  split
  · exact dif_neg Bool.false_ne_true
  · rfl

theorem receiveLoop_of_verdict (hs : s.suspended = false) (hr : s.Receiving)
    (hv : parseFrame s.buffer ≠ .frameIncomplete) :
    s.receiveLoop env = (s.react env (parseFrame s.buffer)).receiveLoop env := by
  have hbuf : ¬ s.buffer.isEmpty = true := by
    intro hemp
    rw [List.isEmpty_iff.mp hemp] at hv
    exact hv rfl
  rw [receiveLoop, if_pos ⟨by simp [hs], hr.1, hbuf⟩, processBuffer_of_receiving env hr,
    processFrame_snd env hv, processFrame_fst]
  split
  · rfl
  · rename_i hemp
    exact (receiveLoop_of_empty env (by simpa using hemp)).symm

theorem receiveLoop_of_not_receiving (h : ¬ s.Receiving) : (s.receiveLoop env).withBuffer [] = s.withBuffer [] := by
  rw [receiveLoop]
  split
  · rename_i hloop
    have hpro : (s.processBuffer env).2 = false ∧
        (s.processBuffer env).1.withBuffer [] = s.withBuffer [] := by
      unfold processBuffer
      split
      · exact ⟨rfl, rfl⟩
      · rename_i hdis
        split
        · exact ⟨rfl, rfl⟩
        · rename_i hclg
          exact absurd ⟨hloop.2.1, by simpa using hdis, by simpa using hclg⟩ h
    rw [dif_neg (by simp [hpro.1])]
    exact hpro.2
  · rfl

/-- What it means for a channel to have come to where a consumer stands. -/
def ComesTo (t : ChannelState) : Lib.Fed ChannelState UInt8 → Prop
  | .waiting u rest => t = u.withBuffer rest ∧ u.buffer = [] ∧ u.Receiving ∧
      parseFrame rest = .frameIncomplete
  | .stopped u => t.withBuffer [] = u ∧ ¬ u.Receiving

/-- **The receive loop drains the consumer.** -/
theorem receiveLoop_drain (s : ChannelState) (b : List UInt8) (hawa : Awake s)
    (hbuf : s.buffer = []) (hr : s.Receiving) :
    ComesTo ((s.withBuffer b).receiveLoop env) ((receiver env).drain s b) := by
  fun_induction drain (receiver env) s b with
  | case1 s b hread =>
    have hv := readFrame_wait env hr hread
    exact ⟨receiveLoop_of_wait env hr hv, hbuf, hr, hv⟩
  | case2 s b n t hread ih =>
    obtain ⟨frame, hv, -, ht, hf, rfl, hhan⟩ := readFrame_take env hread
    have hawa' : Awake ((s.withBuffer b).handleFrame env frame n) :=
      (handleFrame_handled env frame n _).awake env (hawa.withBuffer b)
    have hver : parseFrame (s.withBuffer b).buffer ≠ .frameIncomplete := by
      rw [show (s.withBuffer b).buffer = b from rfl, hv]
      simp
    have hrea : (s.withBuffer b).react env (parseFrame (s.withBuffer b).buffer) =
        (s.withBuffer b).handleFrame env frame n := by
      rw [show (s.withBuffer b).buffer = b from rfl, hv]
      simp only [react, hf]
    rw [receiveLoop_of_verdict env (s := s.withBuffer b) hawa.suspended hr hver, hrea, hhan]
    exact ih (hawa'.withBuffer []) rfl ht
  | case3 s b t hread =>
    obtain ⟨hv, hstop, rfl⟩ := readFrame_stop env hr hread
    refine ⟨?_, hstop⟩
    rw [receiveLoop_of_verdict env (s := s.withBuffer b) hawa.suspended hr hv]
    exact receiveLoop_of_not_receiving env hstop

theorem awake_receiveLoop (h : Awake s) : Awake (s.receiveLoop env) := by
  have hpro : ∀ {u : ChannelState}, Awake u → Awake (u.processBuffer env).1 := by
    intro u hu
    unfold processBuffer
    split
    · exact hu
    · split
      · exact ⟨hu.suspended, hu.linked, hu.wired, hu.honest⟩
      · rw [processFrame_fst]
        exact awake_react env hu _
  fun_induction receiveLoop env s with
  | case1 s _ _ ih => exact ih (hpro h)
  | case2 s _ _ => exact hpro h
  | case3 s _ => exact h

/-! ## Where a channel would come to -/

def norm (s : ChannelState) : ChannelState := { s with buffer := [], suspended := false }

def reference (s : ChannelState) : Lib.Fed ChannelState UInt8 :=
  if s.Receiving then (receiver env).drain s.norm s.buffer else .stopped s.norm

theorem reference_of_comesTo {x : Lib.Fed ChannelState UInt8}
    (hsus : t.suspended = false) (h : ComesTo t x) : t.reference env = x := by
  cases x with
  | waiting u rest =>
    obtain ⟨rfl, hbuf, hr, hv⟩ := h
    have hnorm : (u.withBuffer rest).norm = u := by
      have : u.norm = u := by rw [norm, ← hbuf, ← hsus]; rfl
      exact this
    have hread : (receiver env).read u rest = .wait := by
      change readFrame env u rest = .wait
      rw [readFrame, if_pos hr, if_pos hv]
    rw [reference, if_pos (show (u.withBuffer rest).Receiving from hr), hnorm]
    exact drain_wait hread
  | stopped u =>
    obtain ⟨rfl, hr⟩ := h
    rw [reference, if_neg (show ¬ t.Receiving from hr), norm, ← hsus]
    rfl

theorem receiveLoop_reference (h : Awake s) : ComesTo (s.receiveLoop env) (s.reference env) := by
  have hs : s.norm.withBuffer s.buffer = s := by
    rw [norm, ← h.suspended]
    rfl
  unfold reference
  split
  · rename_i hr
    have hnorm : Awake s.norm := ⟨rfl, h.linked, h.wired, h.honest⟩
    have := receiveLoop_drain env s.norm s.buffer hnorm rfl hr
    rwa [hs] at this
  · rename_i hr
    refine ⟨?_, hr⟩
    rw [receiveLoop_of_not_receiving env hr, norm, ← h.suspended]
    rfl

theorem norm_of_reference (hs : s.Receiving → parseFrame s.buffer = .frameIncomplete)
    (ht : t.Receiving → parseFrame t.buffer = .frameIncomplete)
    (h : s.reference env = t.reference env) : s.norm = t.norm := by
  have hrest : ∀ {u : ChannelState}, (u.Receiving → parseFrame u.buffer = .frameIncomplete) →
      u.reference env = .waiting u.norm u.buffer ∨ u.reference env = .stopped u.norm := by
    intro u hu
    unfold reference
    split
    · rename_i hr
      refine .inl (drain_wait ?_)
      change readFrame env u.norm u.buffer = .wait
      rw [readFrame, if_pos (show u.norm.Receiving from hr), if_pos (hu hr)]
    · exact .inr rfl
  rcases hrest hs with hs | hs <;> rcases hrest ht with ht | ht <;> rw [hs, ht] at h
  · exact (Lib.Fed.waiting.inj h).1
  · exact absurd h nofun
  · exact absurd h nofun
  · exact Lib.Fed.stopped.inj h

theorem feed_reference_nil (s : ChannelState) : (receiver env).feed (s.reference env) [] = s.reference env := by
  unfold reference
  split
  · rw [feed_drain, append_nil]
  · rfl

theorem receiveLoop_buffer_le (s : ChannelState) : (s.receiveLoop env).buffer.length ≤ s.buffer.length := by
  have hpro : ∀ u : ChannelState,
      (u.processBuffer env).1.buffer.length ≤ u.buffer.length := by
    intro u
    unfold processBuffer
    split
    · exact le_rfl
    · split
      · simp [skipBuffer]
      · rw [processFrame_fst]
        cases hv : parseFrame u.buffer with
        | frameIncomplete => exact le_rfl
        | frameError errorString => simp [react, fail_buffer]
        | frameOK frame n =>
          rcases (react_leavesRest env u).1 with hb | hb
          · rw [hb, length_drop]
            omega
          · simp [hb]
  fun_induction receiveLoop env s with
  | case1 s _ _ ih => exact ih.trans (hpro s)
  | case2 s _ _ => exact hpro s
  | case3 s _ => exact le_rfl

theorem didReceiveSocketStreamData_cases {data : List UInt8} (hlin : s.document = s.client) (hdata : data ≠ [])
    (hroom : s.buffer.length + data.length < 2 ^ 64) :
    (¬ s.Receiving ∧ s.didReceiveSocketStreamData env data = s) ∨
    s.didReceiveSocketStreamData env data = (s.withBuffer (s.buffer ++ data)).receiveLoop env := by
  have happ : s.appendToBuffer data = some (s.withBuffer (s.buffer ++ data)) := by
    rw [appendToBuffer, Nat.mod_eq_of_lt hroom, if_neg (by omega)]
    rfl
  have hpos : ¬ data.length ≤ 0 := by
    have := length_pos_iff.mpr hdata
    omega
  unfold didReceiveSocketStreamData InboundState.Receiving
  rw [hlin, if_neg hpos, happ]
  cases s.client with
  | false => exact .inl ⟨by simp, rfl⟩
  | true =>
    cases s.shouldDiscardReceivedData with
    | true => exact .inl ⟨by simp, rfl⟩
    | false => exact .inr rfl

end ChannelState

/-! ## Runs of chunks, suspensions and resumptions -/

/-- What one call of `didReceiveSocketStreamData` delivers: not nothing, and its length is an
    `int`. -/
structure SocketData where
  bytes : List UInt8
  nonempty : bytes ≠ []
  fits : bytes.length < 2 ^ 31

inductive ReceiveStep where
  | data (chunk : SocketData)
  | suspend
  | resume
  | resumeTimerFired

def ReceiveStep.bytes : ReceiveStep → List UInt8
  | data chunk => chunk.bytes
  | _ => []

variable {s : WebSocketChannel}

namespace WebSocketChannel

open ChannelState

variable (env : Environment) (s : WebSocketChannel)

def receiveStep : ReceiveStep → WebSocketChannel
  | .data chunk =>
    { s with toChannelState := s.toChannelState.didReceiveSocketStreamData env chunk.bytes }
  | .suspend => s.suspend
  | .resume => s.resume
  | .resumeTimerFired => if s.resumeTimerActive then s.resumeTimerFired env else s

def receiveRun (steps : List ReceiveStep) : WebSocketChannel :=
  steps.foldl (receiveStep env) s

def AtRest : Prop := s.suspended = false ∧ s.resumeTimerActive = false

structure Steady (s : WebSocketChannel) : Prop where
  awake : Awake s.norm
  drained : s.AtRest → s.Receiving → parseFrame s.buffer = .frameIncomplete

variable {s : WebSocketChannel}

theorem Steady.awake' (h : Steady s) (hs : s.suspended = false) :
    Awake s.toChannelState := ⟨hs, h.awake.linked, h.awake.wired, h.awake.honest⟩

/-- What one step does: the invariant, the bytes fed to the reference, the buffer's size. -/
structure Fits (s t : WebSocketChannel) (bytes : List UInt8) : Prop where
  steady : Steady t
  reference : t.reference env = (receiver env).feed (s.reference env) bytes
  buffer : t.buffer.length ≤ s.buffer.length + bytes.length

theorem fits_of_loop {s : ChannelState} (h : Awake s) (active : Bool) :
    Steady { toChannelState := s.receiveLoop env, resumeTimerActive := active } ∧
      (s.receiveLoop env).reference env = s.reference env := by
  have hcom := receiveLoop_reference env h
  have hawa := awake_receiveLoop env h
  have href := reference_of_comesTo env hawa.suspended hcom
  refine ⟨⟨⟨rfl, hawa.linked, hawa.wired, hawa.honest⟩, fun _ hr => ?_⟩, href⟩
  cases hx : s.reference env with
  | waiting u rest =>
    rw [hx] at hcom
    obtain ⟨ht, -, -, hv⟩ := hcom
    change parseFrame (s.receiveLoop env).buffer = _
    rw [ht]
    exact hv
  | stopped u =>
    rw [hx] at hcom
    obtain ⟨rfl, hstop⟩ := hcom
    exact absurd hr hstop

theorem Steady.suspend (h : Steady s) : Fits env s s.suspend [] where
  steady := ⟨h.awake, fun hrest => absurd hrest.1 nofun⟩
  reference := (feed_reference_nil env s.toChannelState).symm
  buffer := le_rfl

theorem resume_toChannelState :
    s.resume.toChannelState = { s.toChannelState with suspended := false } := by
  unfold resume
  dsimp only
  split <;> rfl

theorem Steady.resume (h : Steady s) : Fits env s s.resume [] := by
  have hsta := s.resume_toChannelState
  have href : s.resume.reference env = s.reference env := by
    rw [hsta]
    rfl
  refine ⟨⟨by rw [hsta]; exact h.awake, ?_⟩, ?_, ?_⟩
  · rintro ⟨-, htim⟩ hr
    rw [hsta] at hr ⊢
    -- The timer is started unless there is nothing to process.
    have hemp : s.buffer = [] := by
      by_contra hne
      unfold WebSocketChannel.resume at htim
      dsimp only at htim
      split at htim
      · cases htim
      · rename_i hidle
        exact hidle ⟨.inl (by simpa using hne), hr.1, by simpa using htim⟩
    change parseFrame s.buffer = .frameIncomplete
    rw [hemp]
    rfl
  · rw [href]
    exact (feed_reference_nil env s.toChannelState).symm
  · rw [hsta]
    exact le_rfl

theorem Steady.resumeTimerFired_eq (h : Steady s) : s.resumeTimerFired env =
      { toChannelState := s.toChannelState.receiveLoop env, resumeTimerActive := false } := by
  unfold WebSocketChannel.resumeTimerFired
  dsimp only
  rw [if_neg]
  rintro ⟨hsus, hcli, hclo, -⟩
  cases hs : s.suspended with
  | true =>
    rw [receiveLoop_of_suspended env hs] at hsus
    exact hsus hs
  | false =>
    rw [((awake_receiveLoop env (h.awake' hs)).wired hcli).2] at hclo
    cases hclo

theorem Steady.resumeTimerFired (h : Steady s) : Fits env s (s.resumeTimerFired env) [] := by
  have hnil := feed_reference_nil env s.toChannelState
  rw [h.resumeTimerFired_eq env]
  cases hs : s.suspended with
  | true =>
    rw [receiveLoop_of_suspended env hs]
    exact ⟨⟨h.awake, fun hrest => absurd (hrest.1.symm.trans hs) Bool.false_ne_true⟩, hnil.symm, le_rfl⟩
  | false =>
    obtain ⟨hste, href⟩ := fits_of_loop env (h.awake' hs) false
    exact ⟨hste, href.trans hnil.symm, receiveLoop_buffer_le env s.toChannelState⟩

theorem reference_append (s : ChannelState) (data : List UInt8) : (s.withBuffer (s.buffer ++ data)).reference env =
      (receiver env).feed (s.reference env) data := by
  unfold reference
  by_cases hr : s.Receiving
  · rw [if_pos hr, if_pos (show (s.withBuffer (s.buffer ++ data)).Receiving from hr), feed_drain]
    rfl
  · rw [if_neg hr, if_neg (show ¬ (s.withBuffer (s.buffer ++ data)).Receiving from hr)]
    rfl

theorem Steady.data (h : Steady s) (chunk : SocketData)
    (hroom : s.buffer.length + chunk.bytes.length < 2 ^ 64) :
    Fits env s (s.receiveStep env (.data chunk)) chunk.bytes := by
  have hcas := didReceiveSocketStreamData_cases env (s := s.toChannelState) h.awake.linked chunk.nonempty hroom
  have hdead : ¬ s.Receiving →
      (receiver env).feed (s.reference env) chunk.bytes = s.reference env := by
    intro hr
    rw [ChannelState.reference, if_neg hr]
    rfl
  obtain ⟨t, ht⟩ : ∃ t, t = s.toChannelState.didReceiveSocketStreamData env chunk.bytes := ⟨_, rfl⟩
  change Fits env s { s with toChannelState := _ } chunk.bytes
  rw [← ht] at hcas ⊢
  rcases hcas with ⟨hr, rfl⟩ | rfl
  · exact ⟨h, (hdead hr).symm, Nat.le_add_right _ _⟩
  · have href := reference_append env s.toChannelState chunk.bytes
    have hlen : (s.withBuffer (s.buffer ++ chunk.bytes)).buffer.length =
        s.buffer.length + chunk.bytes.length := length_append
    cases hs : s.suspended with
    | true =>
      rw [receiveLoop_of_suspended env (s := s.withBuffer (s.buffer ++ chunk.bytes)) hs]
      exact ⟨⟨h.awake, fun hrest => absurd hrest.1 (by simp [ChannelState.withBuffer, hs])⟩, href, hlen.le⟩
    | false =>
      obtain ⟨hste, hloop⟩ := fits_of_loop env
        ((h.awake' hs).withBuffer (s.buffer ++ chunk.bytes)) s.resumeTimerActive
      exact ⟨hste, hloop.trans href, (receiveLoop_buffer_le env _).trans hlen.le⟩

theorem Steady.step (h : Steady s) (step : ReceiveStep)
    (hroom : s.buffer.length + step.bytes.length < 2 ^ 64) : Fits env s (s.receiveStep env step) step.bytes := by
  cases step with
  | data chunk => exact h.data env chunk hroom
  | suspend => exact h.suspend env
  | resume => exact h.resume env
  | resumeTimerFired =>
    simp only [receiveStep]
    split
    · exact h.resumeTimerFired env
    · exact ⟨h, (feed_reference_nil env s.toChannelState).symm, le_rfl⟩

def received (steps : List ReceiveStep) : List UInt8 := steps.flatMap ReceiveStep.bytes

theorem steady_connected : Steady connected :=
  ⟨⟨rfl, rfl, fun _ => ⟨rfl, rfl⟩, fun ⟨_, he, _⟩ => absurd he nofun⟩, fun _ _ => rfl⟩

theorem received_cons_length (step : ReceiveStep) (steps : List ReceiveStep) :
    (received (step :: steps)).length = step.bytes.length + (received steps).length := by
  rw [received, flatMap_cons, length_append]
  rfl

theorem receiveRun_fits (h : Steady s) (steps : List ReceiveStep)
    (hroom : s.buffer.length + (received steps).length < 2 ^ 64) :
    Fits env s (s.receiveRun env steps) (received steps) := by
  induction steps generalizing s with
  | nil => exact ⟨h, (feed_reference_nil env s.toChannelState).symm, le_rfl⟩
  | cons step steps ih =>
    have hspl := received_cons_length step steps
    obtain ⟨hste, href, hbuf⟩ := h.step env step (by omega)
    obtain ⟨hste', href', hbuf'⟩ := ih hste (by omega)
    refine ⟨hste', ?_, by rw [hspl]; exact hbuf'.trans (by omega)⟩
    rw [received, flatMap_cons, ← feed_feed, ← href]
    exact href'

end WebSocketChannel

end WebV8
