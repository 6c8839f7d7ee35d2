import WebV8.Websockets.WebSocketSend
import WebV8.Websockets.WebSocketStream

/-!
# Runs of sends, received frames and blob completions

`Sending` is what holds between the calls on a channel that is not suspended: the outgoing frames
are in order and gone through, at most one close frame was ever to be sent, and as long as frames
are received the queue is open. Each call keeps it; the main theorem reads it off at the end of a
run.
-/

namespace WebV8

open List Bool

structure Sending (s : ChannelState) : Prop where
  awake : Awake s
  order : InOrder s.toOutboundState
  settled : QueueSettled s.toOutboundState
  matched : s.outgoingFrameQueueStatus ≠ .closed → s.closing = false →
    s.toSend.countP isClose = 0
  listening : s.client = true → s.receivedClosingHandshake = false →
    s.outgoingFrameQueueStatus = .opened

structure ReadyToSend (s : ChannelState) : Prop where
  awake : Awake s
  order : InOrder s.toOutboundState
  listening : s.client = true → s.receivedClosingHandshake = false →
    s.outgoingFrameQueueStatus = .opened

namespace ChannelState

variable (env : Environment) {s : ChannelState}

/-! ## The queue -/

theorem processOutgoingFrameQueue_flush (s : ChannelState) :
    Flush s.toOutboundState (s.processOutgoingFrameQueue env).toOutboundState := by
  unfold processOutgoingFrameQueue
  split
  · exact .refl _
  · exact processOutgoingFrames_flush env s

theorem processOutgoingFrameQueue_ready (h : ReadyToSend s) : ReadyToSend (s.processOutgoingFrameQueue env) ∧
      QueueSettled (s.processOutgoingFrameQueue env).toOutboundState := by
  have hawa := h.awake.acts (.processOutgoingFrameQueue env s)
  have hflu := processOutgoingFrameQueue_flush env s
  have hout := (Acts.processOutgoingFrameQueue env s).outward
  have hord : InOrder (s.processOutgoingFrameQueue env).toOutboundState ∧
      QueueSettled (s.processOutgoingFrameQueue env).toOutboundState := by
    unfold processOutgoingFrameQueue
    split
    · rename_i hclo
      exact ⟨h.order, fun hopen => absurd hclo hopen⟩
    · rename_i hopen
      exact processOutgoingFrames_inOrder env h.order fun hclo => absurd hclo hopen
  refine ⟨⟨hawa, hord.1, fun hcli hrcv => ?_⟩, hord.2⟩
  have hope := h.listening (hout.client hcli) (hout.receivedClosingHandshake ▸ hrcv)
  rcases hflu.status with heq | ⟨-, hend⟩
  · exact heq.trans hope
  · rcases hend with hclo | hclg
    · exact absurd ((hawa.wired hcli).2.symm.trans hclo) false_ne_true
    · exact absurd (hope.symm.trans hclg) nofun

theorem toSend_enqueue (s : ChannelState) (frame : QueuedFrame) :
    (s.enqueue frame).toSend = s.toSend ++ [frame.wire] := by
  simp [OutboundState.toSend, enqueue]

theorem enqueue_ready (h : ReadyToSend s) (frame : QueuedFrame)
    (hclo : s.outgoingFrameQueueStatus ≠ .closed → isClose frame.wire = true →
      s.toSend.countP isClose = 0) : ReadyToSend (s.enqueue frame) := by
  refine ⟨h.awake.acts (.quiet rfl rfl rfl),
    ⟨⟨?_, h.order.sentOneClose, h.order.emptied⟩, ?_, ?_, h.order.live, ?_, h.order.ended⟩, h.listening⟩
  · rw [toSend_enqueue]
    exact h.order.sent.trans (prefix_append _ _)
  · intro hopen
    rw [toSend_enqueue, h.order.rest hopen, append_assoc]
    change _ = s.sent ++ (s.outgoingFrameQueue ++ [frame]).map QueuedFrame.wire
    rw [map_append]
    rfl
  · intro hopen
    have hagr := h.order.loader hopen
    have hsame : (s.enqueue frame).blobLoaderStatus = s.blobLoaderStatus := rfl
    unfold LoaderAgrees at hagr ⊢
    rw [hsame]
    cases hstt : s.blobLoaderStatus with
    | notStarted => trivial
    | started | finished =>
      rw [hstt] at hagr
      obtain ⟨opCode, b, rest, hb, hq⟩ := hagr
      exact ⟨opCode, b, rest ++ [frame], hb, congrArg (· ++ [frame]) hq⟩
    | failed =>
      rw [hstt] at hagr
      exact hagr
  · intro hopen
    rw [toSend_enqueue, countP_append]
    have hone := h.order.toSendOneClose hopen
    cases hc : isClose frame.wire with
    | false => simpa [hc] using hone
    | true => simp [hc, hclo hopen hc]

end ChannelState

namespace Sending

open ChannelState

variable (env : Environment) {s : ChannelState}

variable (h : Sending s) {t : ChannelState}
include h

theorem ready : ReadyToSend s := ⟨h.awake, h.order, h.listening⟩

omit h in
theorem flush_status (hflu : Flush s.toOutboundState t.toOutboundState)
    (hopen : t.outgoingFrameQueueStatus ≠ .closed) : t.outgoingFrameQueueStatus = s.outgoingFrameQueueStatus := by
  rcases hflu.status with heq | ⟨hclo, -⟩
  · exact heq
  · exact absurd hclo hopen

theorem send (frame : QueuedFrame) (hfr : isClose frame.wire = false) :
    Sending ((s.enqueue frame).processOutgoingFrameQueue env) := by
  have hrea := enqueue_ready h.ready frame fun _ hc => absurd hc (by simp [hfr])
  have hflu := processOutgoingFrameQueue_flush env (s.enqueue frame)
  obtain ⟨hrea', hset⟩ := processOutgoingFrameQueue_ready env hrea
  refine ⟨hrea'.awake, hrea'.order, hset, ?_, hrea'.listening⟩
  intro hopen hclg
  have hstt := flush_status hflu hopen
  rw [OutboundState.toSend, hflu.enqueued]
  change (s.enqueue frame).toSend.countP isClose = 0
  rw [toSend_enqueue, countP_append, h.matched (hstt ▸ hopen) (hflu.closing ▸ hclg)]
  simp [hfr]

omit h in
theorem disconnectHandle (hawa : Awake s) (hsent : SentInOrder s.toOutboundState) :
    Sending s.disconnectHandle := by
  have hshut := (s.call .disconnect).didCloseSocketStream_shut
  have hawa' := hawa.acts (.disconnectHandle s)
  have hclo : s.disconnectHandle.outgoingFrameQueueStatus = .closed := hshut.status
  refine ⟨hawa', disconnectHandle_inOrder hsent, fun h => absurd hclo h,
    fun h => absurd hclo h, fun hcli => ?_⟩
  have hopen := (hawa'.wired hcli).2
  exact absurd (hopen.symm.trans hshut.closed) false_ne_true

theorem fail (reason : String) : Sending (s.fail reason) := by
  have hdis := h.awake.acts (.discardReceived s reason)
  unfold ChannelState.fail
  dsimp only
  split
  · exact disconnectHandle hdis h.order.toSentInOrder
  · exact ⟨hdis, h.order, h.settled, h.matched, h.listening⟩

theorem withTimer (active : Bool) : Sending { s with closingTimerActive := active } :=
  ⟨h.awake.acts (.quiet rfl rfl rfl), h.order.withFlags s.closing active, h.settled, h.matched, h.listening⟩

/-! ## Closing handshakes -/

omit h in
theorem enterClosing (h : ReadyToSend s) (hset : QueueSettled s.toOutboundState) : Sending s.enterClosing := by
  have hclg : Awake { s with closing := true } := h.awake.acts (.quiet rfl rfl rfl)
  have hord := h.order.withFlags true s.closingTimerActive
  unfold ChannelState.enterClosing
  dsimp only
  split_ifs with hclo
  · refine ⟨h.awake, h.order, hset, fun hopen => ?_, h.listening⟩
    exact absurd ((h.order.live hopen).2.symm.trans hclo) false_ne_true
  · exact ⟨hclg.emit rfl, hord, hset, fun _ h => absurd h nofun, h.listening⟩
  · exact ⟨hclg, hord, hset, fun _ h => absurd h nofun, h.listening⟩

theorem startClosingHandshake (code : Int) (reason : List UInt8) :
    Sending (s.startClosingHandshake env code reason) := by
  unfold ChannelState.startClosingHandshake
  split
  · exact h
  · rename_i hclg
    have hrea := enqueue_ready h.ready ⟨.close, .vector (s.closeFramePayload code reason)⟩
      fun hopen _ => h.matched hopen (by simpa using hclg)
    obtain ⟨hrea', hset⟩ := processOutgoingFrameQueue_ready env hrea
    exact enterClosing hrea' hset

omit h in
theorem startClosingHandshake_status (code : Int) (reason : List UInt8)
    (hope : s.outgoingFrameQueueStatus = .opened) : (s.startClosingHandshake env code reason).closing = true →
      (s.startClosingHandshake env code reason).outgoingFrameQueueStatus = .opened := by
  unfold ChannelState.startClosingHandshake
  split
  · exact fun _ => hope
  · rename_i hclg
    have hflu := processOutgoingFrameQueue_flush env (s.enqueueRawFrame .close (s.closeFramePayload code reason))
    obtain ⟨t, ht⟩ : ∃ t, t = (s.enqueueRawFrame .close
      (s.closeFramePayload code reason)).processOutgoingFrameQueue env := ⟨_, rfl⟩
    rw [← ht] at hflu ⊢
    have hstt : t.closed = false → t.outgoingFrameQueueStatus = .opened := by
      intro hopen
      rcases hflu.status with heq | ⟨-, hend⟩
      · exact heq.trans hope
      · rcases hend with hclo | hend
        · exact absurd (hopen.symm.trans hclo) false_ne_true
        · exact absurd (hope.symm.trans hend) nofun
    unfold ChannelState.enterClosing
    dsimp only
    split
    · intro hc
      exact absurd (hflu.closing.symm.trans hc) hclg
    · rename_i hopen
      split
      · exact fun _ => hstt (by simpa using hopen)
      · exact fun _ => hstt (by simpa using hopen)

theorem finishClosingHandshake (hrcv : s.receivedClosingHandshake = true)
    (hope : s.closing = true → s.outgoingFrameQueueStatus = .opened) :
    Sending (s.finishClosingHandshake env) := by
  unfold ChannelState.finishClosingHandshake
  split
  · rename_i hclg
    have hne : s.outgoingFrameQueueStatus ≠ .closed := by
      rw [hope hclg]
      nofun
    have hrea : ReadyToSend { s with outgoingFrameQueueStatus := .closing } := by
      refine ⟨h.awake.acts (.quiet rfl rfl rfl), ⟨⟨h.order.sent, h.order.sentOneClose, h.order.emptied⟩, fun _ => h.order.rest hne,
          fun _ => h.order.loader hne, fun _ => h.order.live hne,
          fun _ => h.order.toSendOneClose hne, fun hc => absurd hc nofun⟩, fun _ hr => ?_⟩
      exact absurd (hr.symm.trans hrcv) false_ne_true
    have hflu := processOutgoingFrameQueue_flush env { s with outgoingFrameQueueStatus := .closing }
    obtain ⟨hrea', hset⟩ := processOutgoingFrameQueue_ready env hrea
    refine ⟨hrea'.awake, hrea'.order, hset, fun _ hc => ?_, hrea'.listening⟩
    exact absurd (hc.symm.trans (hflu.closing.trans hclg)) false_ne_true
  · exact h

theorem close (code : Int) (reason : List UInt16) : Sending (s.close env code reason) := by
  have hst := h.startClosingHandshake env code (env.utf8 .lenientConversion reason)
  unfold ChannelState.close
  dsimp only
  split_ifs
  · exact hst.withTimer true
  · exact hst
  · exact h

/-! ## Received frames -/

theorem inbound (hawa : Awake t)
    (hout : t.toOutboundState = s.toOutboundState) (hcli : t.client = s.client)
    (hrcv : t.receivedClosingHandshake = s.receivedClosingHandshake) : Sending t := by
  refine ⟨hawa, hout ▸ h.order, hout ▸ h.settled, ?_, ?_⟩
  · have hmat := h.matched
    rwa [← hout] at hmat
  · have hlis := h.listening
    rwa [← hout, ← hcli, ← hrcv] at hlis

theorem handleFrame (hr : s.Receiving) (frame : WebSocketFrame) (n : Nat) :
    Sending (s.handleFrame env frame n) := by
  have hh := handleFrame_handled env frame n s
  generalize s.handleFrame env frame n = t at hh ⊢
  have hrcv : ∀ b has opCode data code, Sending (s.withReceived b has opCode data code) :=
    fun b has opCode data code => h.inbound ⟨h.awake.suspended, h.awake.linked, h.awake.wired, h.awake.honest⟩ rfl rfl rfl
  cases hh with
  | fail => exact (hrcv _ _ _ _ _).fail _
  | keep => exact hrcv _ _ _ _ _
  | deliver _ _ _ error => exact h.inbound ((hrcv _ _ _ _ _).awake.emit error) rfl rfl rfl
  | close code reason payload =>
    have hope := h.listening hr.1 hr.2.2
    have hsen : Sending (s.receiveCloseFrame code reason n) :=
      ⟨⟨h.awake.suspended, h.awake.linked, h.awake.wired, h.awake.honest⟩, h.order, h.settled, h.matched,
        fun _ hc => absurd hc nofun⟩
    refine (hsen.startClosingHandshake env code payload).finishClosingHandshake env ?_
      (startClosingHandshake_status env _ _ hope)
    exact (Acts.startClosingHandshake env (s.receiveCloseFrame code reason n) _ _).outward.receivedClosingHandshake
  | ping => exact (hrcv _ s.hasContinuousFrame s.continuousFrameOpCode s.continuousFrameData
      s.closeEventCode).send env ⟨.pong, .vector frame.payload⟩ rfl

theorem processBuffer (hcli : s.client = true) : Sending (s.processBuffer env).1 := by
  unfold ChannelState.processBuffer
  split
  · exact h
  · rename_i hdis
    split
    · exact h.inbound ⟨h.awake.suspended, h.awake.linked, h.awake.wired, h.awake.honest⟩ rfl rfl rfl
    · rename_i hrcv
      have hr : s.Receiving := ⟨hcli, by simpa using hdis, by simpa using hrcv⟩
      rw [processFrame_fst]
      cases parseFrame s.buffer with
      | frameIncomplete => exact h
      | frameError errorString => exact h.fail errorString
      | frameOK frame n =>
        unfold react
        dsimp only
        split
        · exact h.fail _
        · exact h.handleFrame env hr frame n

theorem receiveLoop : Sending (s.receiveLoop env) := by
  fun_induction ChannelState.receiveLoop env s with
  | case1 s hloop _ ih => exact ih (h.processBuffer env hloop.2.1)
  | case2 s hloop _ => exact h.processBuffer env hloop.2.1
  | case3 s _ => exact h

theorem didReceiveSocketStreamData (data : List UInt8) :
    Sending (s.didReceiveSocketStreamData env data) := by
  have hdis : Sending { s with shouldDiscardReceivedData := true } :=
    h.inbound ⟨h.awake.suspended, h.awake.linked, h.awake.wired, fun _ => rfl⟩ rfl rfl rfl
  unfold ChannelState.didReceiveSocketStreamData
  split
  · exact h
  · split
    · exact disconnectHandle h.awake h.order.toSentInOrder
    · split
      · exact disconnectHandle hdis.awake hdis.order.toSentInOrder
      · split
        · exact h
        · split
          · exact hdis.fail _
          · rename_i t happ
            unfold appendToBuffer at happ
            split at happ
            · cases happ
            · cases happ
              refine receiveLoop env ?_
              exact h.inbound ⟨h.awake.suspended, h.awake.linked, h.awake.wired, h.awake.honest⟩ rfl rfl rfl

/-! ## The blob loader -/

theorem didFinishLoading (hstd : s.blobLoaderStatus = .started) :
    Sending (s.didFinishLoading env) := by
  have hrea : ReadyToSend { s with blobLoaderStatus := .finished } := by
    refine ⟨h.awake.acts (.quiet rfl rfl rfl), ⟨⟨h.order.sent, h.order.sentOneClose, h.order.emptied⟩,
      h.order.rest, fun hopen => ?_, h.order.live, h.order.toSendOneClose, h.order.ended⟩, h.listening⟩
    have hagr := h.order.loader hopen
    rw [LoaderAgrees, hstd] at hagr
    exact hagr
  have hflu := processOutgoingFrameQueue_flush env { s with blobLoaderStatus := .finished }
  obtain ⟨hrea', hset⟩ := processOutgoingFrameQueue_ready env hrea
  refine ⟨hrea'.awake, hrea'.order, hset, fun hopen hclg => ?_, hrea'.listening⟩
  rw [OutboundState.toSend, ChannelState.didFinishLoading, hflu.enqueued]
  refine h.matched ?_ (hflu.closing ▸ hclg)
  have hstt := flush_status hflu hopen
  exact fun hclo => hopen (hstt.trans hclo)

theorem didFail (errorCode : Nat) : Sending (s.didFail errorCode) := by
  have hawa : Awake { s with blobLoader := none, blobLoaderStatus := .failed } := h.awake.acts (.quiet rfl rfl rfl)
  have hsent : SentInOrder { s with blobLoader := none, blobLoaderStatus := .failed }.toOutboundState :=
    ⟨h.order.sent, h.order.sentOneClose, h.order.emptied⟩
  unfold ChannelState.didFail
  by_cases hclo : s.outgoingFrameQueueStatus = .closed
  · have hdown := hsent.of_closed hclo (h.order.ended hclo)
    exact fail ⟨hawa, hdown, fun hopen => absurd hclo hopen, fun hopen => absurd hclo hopen, h.listening⟩ _
  · rw [fail_of_live (s := { s with blobLoader := none, blobLoaderStatus := .failed }) (h.order.live hclo)]
    exact disconnectHandle (hawa.acts (.discardReceived _ _)) ⟨hsent.sent, hsent.sentOneClose, hsent.emptied⟩

end Sending

/-! ## Runs -/

inductive SendStep where
  | sendString (message : List UInt16)
  | sendArrayBuffer (binaryData : List UInt8) (byteOffset byteLength : Nat)
  | sendBlob (binaryData : Blob)
  | close (code : Int) (reason : List UInt16)
  | didReceiveSocketStreamData (data : List UInt8)
  | didFinishLoading
  | didFail (errorCode : Nat)
  | didCloseSocketStream
  | closingTimerFired

namespace ChannelState

variable (env : Environment)

/-- One call. The loader calls back only while it is busy, the socket closes once, the timer fires
    only when started. -/
def sendStep (s : ChannelState) : SendStep → ChannelState
  | .sendString message => s.sendString env message
  | .sendArrayBuffer binaryData byteOffset byteLength =>
    s.sendArrayBuffer env binaryData byteOffset byteLength
  | .sendBlob binaryData => s.sendBlob env binaryData
  | .close code reason => s.close env code reason
  | .didReceiveSocketStreamData data => s.didReceiveSocketStreamData env data
  | .didFinishLoading =>
    if s.blobLoaderStatus = .started then s.didFinishLoading env else s
  | .didFail errorCode =>
    if s.blobLoaderStatus = .started then s.didFail errorCode else s
  | .didCloseSocketStream => if s.handle ∧ ¬ s.closed then s.didCloseSocketStream else s
  | .closingTimerFired =>
    if s.closingTimerActive then
      { s with closingTimerActive := false }.closingTimerFired
    else s

def sendRun (s : ChannelState) (steps : List SendStep) : ChannelState :=
  steps.foldl (sendStep env) s

end ChannelState

namespace Sending

open ChannelState

variable (env : Environment) {s : ChannelState}

theorem step (h : Sending s) (step : SendStep) : Sending (s.sendStep env step) := by
  cases step with
  | sendString message => exact h.send env ⟨.text, .string _⟩ rfl
  | sendArrayBuffer binaryData byteOffset byteLength => exact h.send env ⟨.binary, .vector _⟩ rfl
  | sendBlob binaryData => exact h.send env ⟨.binary, .blob binaryData⟩ rfl
  | close code reason => exact h.close env code reason
  | didReceiveSocketStreamData data => exact h.didReceiveSocketStreamData env data
  | didFinishLoading =>
    simp only [sendStep]
    split
    · rename_i hstd
      exact h.didFinishLoading env hstd
    · exact h
  | didFail errorCode =>
    simp only [sendStep]
    split
    · exact h.didFail errorCode
    · exact h
  | didCloseSocketStream =>
    simp only [sendStep]
    split
    · have hshut := s.didCloseSocketStream_shut
      have hawa := h.awake.didCloseSocketStream
      refine ⟨hawa, h.order.toSentInOrder.shut hshut, fun hopen => absurd hshut.status hopen,
        fun hopen => absurd hshut.status hopen, fun hcli => ?_⟩
      exact absurd ((hawa.wired hcli).2.symm.trans hshut.closed) false_ne_true
    · exact h
  | closingTimerFired =>
    simp only [sendStep]
    split
    · have hsto := h.withTimer false
      unfold ChannelState.closingTimerFired
      split
      · exact disconnectHandle hsto.awake hsto.order.toSentInOrder
      · exact hsto
    · exact h

theorem connected : Sending ChannelState.connected where
  awake := ⟨rfl, rfl, fun _ => ⟨rfl, rfl⟩, fun ⟨_, he, _⟩ => absurd he nofun⟩
  order := ⟨⟨ nil_prefix, Nat.zero_le _, nofun⟩, fun _ => rfl, fun _ => trivial,
    fun _ => ⟨rfl, rfl⟩, fun _ => Nat.zero_le _, nofun⟩
  settled _ := .inl rfl
  matched _ _ := rfl
  listening _ _ := rfl

theorem run (h : Sending s) (steps : List SendStep) : Sending (s.sendRun env steps) := by
  induction steps generalizing s with
  | nil => exact h
  | cons step steps ih => exact ih (h.step env step)

end Sending

/-- **Frames reach the socket in the order they were enqueued.** Over every run, what was handed to
    the socket is a prefix of what was enqueued, each frame with its own payload; it is all of it
    unless a blob is loading or the channel is closed or closing down; there is at most one close
    frame; and the socket is told to close only with nothing left in the queue. -/
theorem sendRun_correct (env : Environment) (steps : List SendStep) :
    let s := ChannelState.connected.sendRun env steps
    s.sent <+: s.toSend ∧
    (s.blobLoaderStatus ≠ .started → s.closed = false → .close [] ∉ s.calls → s.sent = s.toSend) ∧
    s.sent.countP isClose ≤ 1 ∧
    ∀ queued, .close queued ∈ s.calls → queued = [] := by
  intro s
  have h : Sending s := Sending.connected.run env steps
  refine ⟨h.order.sent, ?_, h.order.sentOneClose, h.order.emptied⟩
  intro hidle hopen hlive
  have hstatus : s.outgoingFrameQueueStatus ≠ .closed := by
    intro hclosed
    rcases h.order.ended hclosed with hc | hc
    · exact absurd (hopen.symm.trans hc) false_ne_true
    · exact hlive hc
  have hqueue : s.outgoingFrameQueue = [] := (h.settled hstatus).resolve_right hidle
  rw [h.order.rest hstatus, hqueue, map_nil, append_nil]

end WebV8
