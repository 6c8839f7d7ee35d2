import WebV8.Lib.Incremental
import WebV8.Websockets.WebSocketOutward

/-!
# The receive loop

The loop over `processBuffer` that `didReceiveSocketStreamData` and `resumeTimerFired` run, and the
calls a channel gets: from the page, from the socket and from the blob loader.

A frame verdict determines what is done, apart from the bytes left in the buffer (`react`, `Blind`).
So a channel that receives is an incremental consumer (`receiver`), and the loop drains it
(`receiveLoop_drain`).
-/

namespace WebV8

open Lib

namespace ChannelState

variable (env : Environment)

/-! ## One frame -/

/-- What `processFrame` does about a verdict of `parseFrame`. -/
def react : ParseFrameResult → ChannelState → ChannelState
  | .frameIncomplete, s => s
  | .frameError errorString, s => s.fail errorString
  | .frameOK frame frameEnd, s =>
    match s.frameFailure frame with
    | some reason => s.fail reason
    | none => s.handleFrame env frame frameEnd

variable (s : ChannelState)

theorem processFrame_fst : (s.processFrame env).1 = s.react env (parseFrame s.buffer) := by
  unfold processFrame react
  cases parseFrame s.buffer with
  | frameIncomplete => rfl
  | frameError errorString => rfl
  | frameOK frame frameEnd =>
    dsimp only
    cases s.frameFailure frame <;> rfl

theorem fail_discards (reason : String) : (s.fail reason).shouldDiscardReceivedData = true := by
  unfold fail
  dsimp only
  split
  · exact (Acts.disconnectHandle (s.discardReceived reason)).outward.discards rfl
  · rfl

theorem fail_buffer (reason : String) : (s.fail reason).buffer = [] := by
  unfold fail
  dsimp only
  split
  · rcases (Acts.disconnectHandle (s.discardReceived reason)).outward.buffer with h | h <;> exact h
  · rfl

variable {s u t : ChannelState} {n : Nat} {frame : WebSocketFrame}

theorem processFrame_snd (h : parseFrame s.buffer ≠ .frameIncomplete) :
    (s.processFrame env).2 = !(s.processFrame env).1.buffer.isEmpty := by
  unfold processFrame
  split
  · exact absurd (by assumption) h
  · simp [fail_buffer]
  · split
    · simp [fail_buffer]
    · rfl

/-- Other received bytes, another message under assembly and another close code. -/
def withReceived (b : List UInt8) (has : Bool) (opCode : OpCode) (data : List UInt8) (code : Nat)
    (s : ChannelState) : ChannelState :=
  { s with
      buffer := b
      hasContinuousFrame := has
      continuousFrameOpCode := opCode
      continuousFrameData := data
      closeEventCode := code }

/-- All that can become of a channel that handles a frame. -/
inductive Handled (frame : WebSocketFrame) (n : Nat) (s : ChannelState) : ChannelState → Prop where
  | fail (b : List UInt8) (has : Bool) (opCode : OpCode) (data : List UInt8) (code : Nat) (reason : String) :
      Handled frame n s ((s.withReceived b has opCode data code).fail reason)
  | keep (has : Bool) (opCode : OpCode) (data : List UInt8) :
      Handled frame n s (s.withReceived (s.buffer.drop n) has opCode data s.closeEventCode)
  | deliver (has : Bool) (opCode : OpCode) (data : List UInt8) {e : ClientEvent} (error : e.isError = false) :
      Handled frame n s ((s.withReceived (s.buffer.drop n) has opCode data s.closeEventCode).emit e)
  | close (code : Nat) (reason : Option (List UInt16)) (payload : List UInt8) :
      Handled frame n s (((s.receiveCloseFrame code reason n).startClosingHandshake env code
        payload).finishClosingHandshake env)
  | ping : Handled frame n s (s.processPingFrame env frame n)

theorem handled_deliverText (frame : WebSocketFrame) (n : Nat) (s : ChannelState) (has : Bool) (opCode : OpCode)
    (data text : List UInt8) : Handled env frame n s
      ((s.withReceived (s.buffer.drop n) has opCode data s.closeEventCode).deliverText text) := by
  unfold deliverText
  split
  · exact .fail _ _ _ _ _ _
  · exact .deliver _ _ _ rfl

theorem handleFrame_handled (frame : WebSocketFrame) (n : Nat) (s : ChannelState) :
    Handled env frame n s (s.handleFrame env frame n) := by
  unfold handleFrame
  split
  · unfold processContinuationFrame finishContinuousFrame
    dsimp only
    split
    · exact .fail s.buffer _ _ _ s.closeEventCode _
    · split
      · split
        · exact handled_deliverText env frame n s false s.continuousFrameOpCode [] _
        · split
          · exact .deliver false _ [] rfl
          · exact .keep false _ []
      · exact .keep _ _ _
  · unfold processTextFrame
    split
    · exact handled_deliverText env frame n s s.hasContinuousFrame s.continuousFrameOpCode s.continuousFrameData _
    · exact .keep true _ _
  · unfold processBinaryFrame
    split
    · exact .deliver s.hasContinuousFrame _ _ rfl
    · exact .keep true _ _
  · unfold processCloseFrame
    split
    · exact .fail s.buffer _ _ _ _ _
    · exact .close _ _ _
  · exact .ping
  · exact .keep s.hasContinuousFrame _ _
  · exact .keep s.hasContinuousFrame _ _

/-- What a frame leaves in the buffer: what follows it, or nothing. -/
def LeavesRest (n : Nat) (s t : ChannelState) : Prop :=
  (t.buffer = s.buffer.drop n ∨ t.buffer = []) ∧
    (t.shouldDiscardReceivedData = false → t.buffer = s.buffer.drop n)

theorem LeavesRest.of_outward (hu : u.buffer = s.buffer.drop n)
    (h : Outward u.toInboundState t.toInboundState) : LeavesRest n s t :=
  ⟨h.buffer.imp_left (·.trans hu), fun ht => (h.kept ht).1.trans hu⟩

theorem LeavesRest.fail {n : Nat} {s u : ChannelState} (reason : String) : LeavesRest n s (u.fail reason) :=
  ⟨.inr (fail_buffer u reason), fun h => absurd (fail_discards u reason) (by simp [h])⟩

theorem Handled.leavesRest (h : Handled env frame n s t) :
    LeavesRest n s t := by
  cases h with
  | fail => exact .fail _
  | keep | deliver => exact ⟨.inl rfl, fun _ => rfl⟩
  | close =>
    exact .of_outward rfl ((Acts.startClosingHandshake env _ _ _).trans (.finishClosingHandshake env _)).outward
  | ping => exact .of_outward rfl (Acts.processOutgoingFrameQueue env _).outward

theorem react_leavesRest (s : ChannelState) :
    LeavesRest n s (s.react env (.frameOK frame n)) := by
  unfold react
  dsimp only
  split
  · exact .fail _
  · exact (handleFrame_handled env frame n s).leavesRest

theorem processFrame_buffer_lt (h : (s.processFrame env).2 = true) :
    (s.processFrame env).1.buffer.length < s.buffer.length := by
  have hver : parseFrame s.buffer ≠ .frameIncomplete := by
    intro hv
    simp [processFrame, hv] at h
  rw [processFrame_snd env hver, processFrame_fst] at h
  rw [processFrame_fst]
  cases hv : parseFrame s.buffer with
  | frameIncomplete => exact absurd hv hver
  | frameError errorString => simp [hv, react, fail_buffer] at h
  | frameOK frame n =>
    rw [hv] at h
    have hbds := frameEnd_bounds hv
    rcases (react_leavesRest env s).1 with hb | hb
    · rw [hb, List.length_drop]
      omega
    · simp [hb] at h

theorem processBuffer_buffer_lt (h : (s.processBuffer env).2 = true) :
    (s.processBuffer env).1.buffer.length < s.buffer.length := by
  unfold processBuffer at h ⊢
  split
  · simp_all
  · split
    · simp_all
    · simp_all only [Bool.false_eq_true, if_false]
      exact processFrame_buffer_lt env h

/-! ## The loop and the calls on a channel -/

/-- `while (!m_suspended && m_client && !m_buffer.isEmpty()) if (!processBuffer()) break;` -/
def receiveLoop (s : ChannelState) : ChannelState :=
  if ¬ s.suspended ∧ s.client ∧ ¬ s.buffer.isEmpty then
    if _h : (s.processBuffer env).2 = true then receiveLoop (s.processBuffer env).1
    else (s.processBuffer env).1
  else s
termination_by s.buffer.length
decreasing_by exact processBuffer_buffer_lt env _h

/-- `none` where the sum of the sizes overflows. -/
def appendToBuffer (data : List UInt8) (s : ChannelState) : Option ChannelState :=
  if (s.buffer.length + data.length) % 2 ^ 64 < s.buffer.length then none
  else some { s with buffer := s.buffer ++ data }

def didReceiveSocketStreamData (data : List UInt8) (s : ChannelState) : ChannelState :=
  if ¬ s.document then s
  else if data.length ≤ 0 then s.disconnectHandle
  else if ¬ s.client then { s with shouldDiscardReceivedData := true }.disconnectHandle
  else if s.shouldDiscardReceivedData then s
  else
    match s.appendToBuffer data with
    | none =>
      { s with shouldDiscardReceivedData := true }.fail
        "Ran out of memory while receiving WebSocket data."
    | some s => s.receiveLoop env

def sendString (message : List UInt16) (s : ChannelState) : ChannelState :=
  (s.enqueueTextFrame (env.utf8 .strictConversionReplacingUnpairedSurrogatesWithFFFD
    message)).processOutgoingFrameQueue env

def sendArrayBuffer (binaryData : List UInt8) (byteOffset byteLength : Nat) (s : ChannelState) :
    ChannelState :=
  (s.enqueueRawFrame .binary ((binaryData.drop byteOffset).take
    byteLength)).processOutgoingFrameQueue env

def sendBlob (binaryData : Blob) (s : ChannelState) : ChannelState :=
  (s.enqueueBlobFrame .binary binaryData).processOutgoingFrameQueue env

def closingTimerFired (s : ChannelState) : ChannelState :=
  if s.handle then s.disconnectHandle else s

end ChannelState

structure WebSocketChannel extends ChannelState where
  resumeTimerActive : Bool

namespace WebSocketChannel

variable (env : Environment)

def connected : WebSocketChannel := { ChannelState.connected with resumeTimerActive := false }

variable (s : WebSocketChannel)

def suspend : WebSocketChannel := { s with suspended := true }

def resume : WebSocketChannel :=
  let s := { s with suspended := false }
  if (¬ s.buffer.isEmpty ∨ s.closed) ∧ s.client ∧ ¬ s.resumeTimerActive then
    { s with resumeTimerActive := true }
  else s

def resumeTimerFired : WebSocketChannel :=
  let t := s.toChannelState.receiveLoop env
  { toChannelState :=
      if ¬ t.suspended ∧ t.client ∧ t.closed ∧ t.handle then t.didCloseSocketStream else t
    resumeTimerActive := false }

end WebSocketChannel

end WebV8
