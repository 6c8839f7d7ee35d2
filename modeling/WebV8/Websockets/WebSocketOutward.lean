import WebV8.Websockets.WebSocketChannel

/-!
# What sending and closing do to the receiving side

Received frames make the channel send: a pong, a closing handshake. Sending may fail, and then the
channel fails and closes in the middle of receiving. `Outward` says once what all of that may do to
the fields the receiving side uses: nothing, unless received data is discarded from then on. It is
a preorder, so a function composed of such steps is one.

`Blind` says that none of it reads the receive buffer.
-/

namespace WebV8

/-- The events by which received messages reach the client. -/
def ClientEvent.isData : ClientEvent → Bool
  | didReceiveMessage _ | didReceiveBinaryData _ => true
  | _ => false

def ClientEvent.isError : ClientEvent → Bool
  | didReceiveMessageError _ => true
  | _ => false

def InboundState.delivered (s : InboundState) : List ClientEvent :=
  s.events.filter ClientEvent.isData

def InboundState.Failed (s : InboundState) : Prop := ∃ e ∈ s.events, e.isError = true

structure Outward (s t : InboundState) : Prop where
  client : t.client = true → s.client = true
  delivered : t.delivered = s.delivered
  suspended : t.suspended = s.suspended
  receivedClosingHandshake : t.receivedClosingHandshake = s.receivedClosingHandshake
  closeEventCode : t.closeEventCode = s.closeEventCode
  closeEventReason : t.closeEventReason = s.closeEventReason
  failed : t.Failed → s.Failed ∨ t.shouldDiscardReceivedData = true
  discards : s.shouldDiscardReceivedData = true → t.shouldDiscardReceivedData = true
  buffer : t.buffer = s.buffer ∨ t.buffer = []
  kept : t.shouldDiscardReceivedData = false → t.buffer = s.buffer ∧
    t.hasContinuousFrame = s.hasContinuousFrame ∧
    t.continuousFrameOpCode = s.continuousFrameOpCode ∧
    t.continuousFrameData = s.continuousFrameData

namespace Outward

variable {s t u : InboundState}

theorem refl (s : InboundState) : Outward s s :=
  ⟨id, rfl, rfl, rfl, rfl, rfl, .inl, id, .inl rfl, fun _ => ⟨rfl, rfl, rfl, rfl⟩⟩

theorem trans (h : Outward s t) (h' : Outward t u) : Outward s u where
  client := h.client ∘ h'.client
  delivered := h'.delivered.trans h.delivered
  suspended := h'.suspended.trans h.suspended
  receivedClosingHandshake := h'.receivedClosingHandshake.trans h.receivedClosingHandshake
  closeEventCode := h'.closeEventCode.trans h.closeEventCode
  closeEventReason := h'.closeEventReason.trans h.closeEventReason
  failed hu := by
    rcases h'.failed hu with ht | hd
    · exact (h.failed ht).imp_right h'.discards
    · exact .inr hd
  discards := h'.discards ∘ h.discards
  buffer := by
    rcases h'.buffer with hb | hb
    · rw [hb]
      exact h.buffer
    · exact .inr hb
  kept hu := by
    have ht : t.shouldDiscardReceivedData = false := by
      by_contra hne
      exact Bool.false_ne_true (hu.symm.trans (h'.discards (by simpa using hne)))
    obtain ⟨hb', hc', ho', hd'⟩ := h'.kept hu
    obtain ⟨hb, hc, ho, hd⟩ := h.kept ht
    exact ⟨hb'.trans hb, hc'.trans hc, ho'.trans ho, hd'.trans hd⟩

end Outward

namespace ChannelState

variable (s : ChannelState)

/-- `didCloseSocketStream` up to its test of the handle, and what follows it. -/
def stopOutgoing : ChannelState :=
  if s.outgoingFrameQueueStatus = .closed then { s with closed := true, closingTimerActive := false }
  else { s with closed := true, closingTimerActive := false }.abortOutgoingFrameQueue

@[inherit_doc stopOutgoing]
def released : ChannelState :=
  if s.handle ∧ ¬ s.suspended then
    if s.client then
      { s with client := false, document := false, handle := false }.emit
        (.didClose s.receivedClosingHandshake s.closeEventCode s.closeEventReason)
    else { s with client := false, document := false, handle := false }
  else s

theorem didCloseSocketStream_eq : s.didCloseSocketStream = s.stopOutgoing.released := rfl

theorem stopOutgoing_same : s.stopOutgoing.document = s.document ∧
    s.stopOutgoing.client = s.client ∧ s.stopOutgoing.handle = s.handle := by
  unfold stopOutgoing abortOutgoingFrameQueue
  dsimp only
  split_ifs <;> exact ⟨rfl, rfl, rfl⟩

theorem released_cases :
    (s.released.document = false ∧ s.released.client = false) ∨
      ¬ (s.handle ∧ ¬ s.suspended) ∧ s.released = s := by
  unfold released
  split_ifs with hopen hcli
  · exact .inl ⟨rfl, rfl⟩
  · exact .inl ⟨rfl, rfl⟩
  · exact .inr ⟨hopen, rfl⟩

end ChannelState

/-- The steps that sending, failing and closing are composed of. -/
inductive Acts : ChannelState → ChannelState → Prop where
  | quiet {s t : ChannelState} (inbound : t.toInboundState = s.toInboundState) (handle : t.handle = s.handle)
      (closed : t.closed = s.closed) : Acts s t
  | emit (s : ChannelState) {e : ClientEvent} (data : e.isData = false) (error : e.isError = false) :
      Acts s (s.emit e)
  | discardReceived (s : ChannelState) (reason : String) : Acts s (s.discardReceived reason)
  | didCloseSocketStream (s : ChannelState) : Acts s s.didCloseSocketStream
  | trans {s t u : ChannelState} : Acts s t → Acts t u → Acts s u

variable {s : ChannelState} {e : ClientEvent}

namespace Acts

theorem refl (s : ChannelState) : Acts s s := .quiet rfl rfl rfl

theorem after {t u : ChannelState} (h : Acts t u) (inbound : t.toInboundState = s.toInboundState)
    (handle : t.handle = s.handle) (closed : t.closed = s.closed) : Acts s u :=
  .trans (.quiet inbound handle closed) h

theorem disconnectHandle (s : ChannelState) : Acts s s.disconnectHandle :=
  (didCloseSocketStream (s.call .disconnect)).after rfl rfl rfl

theorem fail (s : ChannelState) (reason : String) : Acts s (s.fail reason) := by
  unfold ChannelState.fail
  dsimp only
  split
  · exact .trans (.discardReceived s reason) (disconnectHandle _)
  · exact .discardReceived s reason

variable (env : Environment)

section

variable (s : ChannelState)

theorem sendFrameOrFail (opCode : OpCode) (data : List UInt8) :
    Acts s (s.sendFrameOrFail env opCode data) := by
  have hcall : Acts s (s.sendFrame env opCode data).1 := .quiet rfl rfl rfl
  unfold ChannelState.sendFrameOrFail
  dsimp only
  split
  · exact hcall
  · exact hcall.trans (fail _ _)

theorem closeHandle : Acts s (s.closeHandle env) := by
  have hcall : Acts s (s.call (.close s.outgoingFrameQueue)) := .quiet rfl rfl rfl
  unfold ChannelState.closeHandle
  dsimp only
  split
  · exact hcall.trans (.didCloseSocketStream _)
  · exact hcall

theorem processOutgoingFrames : Acts s (s.processOutgoingFrames env) := by
  fun_induction ChannelState.processOutgoingFrames env s with
  | case1 s _ _ => exact (closeHandle env { s with outgoingFrameQueueStatus := .closed }).after rfl rfl rfl
  | case2 s _ _ => exact refl s
  | case3 s frame queue _ _ _ ih
  | case4 s frame queue _ _ _ ih => exact ((sendFrameOrFail env _ _ _).trans ih).after rfl rfl rfl
  | case5 s => exact .quiet rfl rfl rfl
  | case6 s => exact refl s
  | case7 s => exact refl s
  | case8 s frame queue _ _ _ _ ih => exact ((sendFrameOrFail env _ _ _).trans ih).after rfl rfl rfl

theorem processOutgoingFrameQueue : Acts s (s.processOutgoingFrameQueue env) := by
  unfold ChannelState.processOutgoingFrameQueue
  split
  · exact refl s
  · exact processOutgoingFrames env s

theorem enterClosing : Acts s s.enterClosing := by
  have hclg : Acts s { s with closing := true } := .quiet rfl rfl rfl
  unfold ChannelState.enterClosing
  dsimp only
  split
  · exact refl s
  · split
    · exact hclg.trans (.emit _ rfl rfl)
    · exact hclg

theorem startClosingHandshake (code : Int) (reason : List UInt8) :
    Acts s (s.startClosingHandshake env code reason) := by
  unfold ChannelState.startClosingHandshake
  split
  · exact refl s
  · exact ((processOutgoingFrameQueue env (s.enqueueRawFrame _ _)).trans (enterClosing _)).after rfl rfl rfl

theorem finishClosingHandshake : Acts s (s.finishClosingHandshake env) := by
  unfold ChannelState.finishClosingHandshake
  split
  · exact (processOutgoingFrameQueue env { s with outgoingFrameQueueStatus := .closing }).after rfl rfl rfl
  · exact refl s

end

end Acts

/-! ## What they do to the receiving side -/

theorem failed_emit (herr : e.isError = false) (h : (s.emit e).Failed) :
    s.Failed := by
  obtain ⟨e', he', h⟩ := h
  simp only [ChannelState.emit, List.mem_append, List.mem_singleton] at he'
  rcases he' with he' | rfl
  · exact ⟨e', he', h⟩
  · exact absurd h (by simp [herr])

namespace Outward

variable (s : ChannelState)

theorem emit (hdata : e.isData = false)
    (herr : e.isError = false) : Outward s.toInboundState (s.emit e).toInboundState := by
  refine { refl s.toInboundState with delivered := ?_, failed := fun h => .inl (failed_emit herr h) }
  simp [InboundState.delivered, ChannelState.emit, hdata]

theorem discardReceived (reason : String) :
    Outward s.toInboundState (s.discardReceived reason).toInboundState where
  client := id
  delivered := by
    simp [InboundState.delivered, ChannelState.discardReceived, ChannelState.emit, ClientEvent.isData]
  suspended := rfl
  receivedClosingHandshake := rfl
  closeEventCode := rfl
  closeEventReason := rfl
  failed _ := .inr rfl
  discards _ := rfl
  buffer := .inr rfl
  kept h := absurd h (by simp [ChannelState.discardReceived, ChannelState.emit])

theorem stopOutgoing : Outward s.toInboundState s.stopOutgoing.toInboundState := by
  unfold ChannelState.stopOutgoing ChannelState.abortOutgoingFrameQueue
  dsimp only
  split
  · exact refl _
  · split
    · exact discardReceived _ _
    · exact refl _

theorem released : Outward s.toInboundState s.released.toInboundState := by
  have hnull : Outward s.toInboundState { s with client := false, document := false } :=
    { refl s.toInboundState with client := fun h => absurd h Bool.false_ne_true }
  unfold ChannelState.released
  split
  · split
    · exact hnull.trans (emit { s with client := false, document := false, handle := false } rfl rfl)
    · exact hnull
  · exact refl _

end Outward

theorem Acts.outward {t : ChannelState} (h : Acts s t) : Outward s.toInboundState t.toInboundState := by
  induction h with
  | quiet inbound => exact inbound ▸ .refl _
  | emit s data error => exact .emit s data error
  | discardReceived s reason => exact .discardReceived s reason
  | didCloseSocketStream s => exact (Outward.stopOutgoing s).trans (.released _)
  | trans _ _ ih ih' => exact ih.trans ih'

/-! ## A channel that is not suspended -/

/-- Not suspended. As long as there is a client the handle is there and its socket open, and once
    a failure is reported received data is discarded. -/
structure Awake (s : ChannelState) : Prop where
  suspended : s.suspended = false
  linked : s.document = s.client
  wired : s.client = true → s.handle = true ∧ s.closed = false
  honest : s.Failed → s.shouldDiscardReceivedData = true

namespace Awake

variable {s t : ChannelState}

theorem emit (h : Awake s) (herr : e.isError = false) : Awake (s.emit e) :=
  ⟨h.suspended, h.linked, h.wired, fun hfai => h.honest (failed_emit herr hfai)⟩

theorem didCloseSocketStream (h : Awake s) : Awake s.didCloseSocketStream := by
  have hout := (Acts.didCloseSocketStream s).outward
  have hhon : s.didCloseSocketStream.Failed → s.didCloseSocketStream.shouldDiscardReceivedData = true := by
    intro hfai
    exact (hout.failed hfai).elim (fun hs => hout.discards (h.honest hs)) id
  obtain ⟨hdoc, hcli, hhan⟩ := s.stopOutgoing_same
  have hsus := hout.suspended.trans h.suspended
  rw [s.didCloseSocketStream_eq] at *
  rcases s.stopOutgoing.released_cases with ⟨hd, hc⟩ | ⟨hopen, heq⟩
  · exact ⟨hsus, hd.trans hc.symm, fun hc' => absurd (hc.symm.trans hc') Bool.false_ne_true, hhon⟩
  · -- Without a handle there is no client any more.
    rw [heq] at hsus hhon ⊢
    refine ⟨hsus, by rw [hdoc, hcli, h.linked], fun hc => absurd ?_ hopen, hhon⟩
    rw [hhan, hsus]
    exact ⟨(h.wired (hcli ▸ hc)).1, Bool.false_ne_true⟩

/-- **All of it keeps a channel awake.** -/
theorem acts (h : Awake s) (hst : Acts s t) : Awake t := by
  induction hst with
  | quiet inbound handle closed =>
    obtain ⟨hsus, hlin, hwir, hhon⟩ := h
    rw [← inbound] at hsus hlin hwir hhon
    rw [← handle, ← closed] at hwir
    exact ⟨hsus, hlin, hwir, hhon⟩
  | emit s data error => exact h.emit error
  | discardReceived s reason => exact ⟨h.suspended, h.linked, h.wired, fun _ => rfl⟩
  | didCloseSocketStream s => exact h.didCloseSocketStream
  | trans _ _ ih ih' => exact ih' (ih h)

end Awake

/-! ## The receive buffer is not read -/

def ChannelState.withBuffer (b : List UInt8) (s : ChannelState) : ChannelState :=
  { s with buffer := b }

/-- With another receive buffer, `f` does the same up to the buffer it leaves. -/
def Blind (f : ChannelState → ChannelState) : Prop :=
  ∀ s b, ∃ b', f (s.withBuffer b) = (f s).withBuffer b'

theorem Awake.withBuffer (h : Awake s) (b : List UInt8) :
    Awake (s.withBuffer b) := ⟨h.suspended, h.linked, h.wired, h.honest⟩

namespace Blind

theorem id : Blind fun s => s := fun _ b => ⟨b, rfl⟩

theorem comp {f g : ChannelState → ChannelState} (hg : Blind g) (hf : Blind f) : Blind fun s => g (f s) := by
  intro s b
  obtain ⟨b', hb'⟩ := hf s b
  obtain ⟨b'', hb''⟩ := hg (f s) b'
  exact ⟨b'', (congrArg g hb').trans hb''⟩

theorem ite {c : ChannelState → Prop} [DecidablePred c] {f g : ChannelState → ChannelState}
    (hc : ∀ s b, c (s.withBuffer b) = c s) (hf : Blind f) (hg : Blind g) :
    Blind fun s => if c s then f s else g s := by
  intro s b
  simp only [hc]
  split
  · exact hf s b
  · exact hg s b

theorem emit (e : ClientEvent) : Blind (ChannelState.emit e) := fun _ b => ⟨b, rfl⟩

theorem discardReceived (reason : String) : Blind (ChannelState.discardReceived reason) :=
  fun _ _ => ⟨[], rfl⟩

theorem abortOutgoingFrameQueue : Blind ChannelState.abortOutgoingFrameQueue :=
  ite (fun _ _ => rfl) (fun _ _ => ⟨[], rfl⟩) (fun _ b => ⟨b, rfl⟩)

theorem didCloseSocketStream : Blind ChannelState.didCloseSocketStream := by
  have hrel : Blind ChannelState.released :=
    ite (fun _ _ => rfl) (ite (fun _ _ => rfl) (fun _ b => ⟨b, rfl⟩) fun _ b => ⟨b, rfl⟩) id
  have hstop : Blind ChannelState.stopOutgoing :=
    ite (fun _ _ => rfl) (fun _ b => ⟨b, rfl⟩) (comp abortOutgoingFrameQueue fun _ b => ⟨b, rfl⟩)
  have h := comp hrel hstop
  exact h

theorem call (c : ChannelState → SocketCall) (hc : ∀ s b, c (s.withBuffer b) = c s) :
    Blind fun s => s.call (c s) := by
  intro s b
  dsimp only
  rw [hc]
  exact ⟨b, rfl⟩

theorem disconnectHandle : Blind ChannelState.disconnectHandle := by
  have h := comp didCloseSocketStream (call (fun _ => .disconnect) fun _ _ => rfl)
  exact h

theorem fail (reason : String) : Blind (ChannelState.fail reason) := by
  have hrest : Blind fun s => if s.handle ∧ ¬ s.closed then s.disconnectHandle else s :=
    ite (fun _ _ => rfl) disconnectHandle id
  have h := comp hrest (discardReceived reason)
  exact h

variable (env : Environment)

theorem sendFrameOrFail (opCode : OpCode) (data : List UInt8) :
    Blind (ChannelState.sendFrameOrFail env opCode data) := by
  have hrest : Blind fun s =>
      if env.send s.calls = true then s else s.fail "Failed to send WebSocket frame." :=
    ite (fun _ _ => rfl) id (fail _)
  have h := comp hrest (call (fun _ => .send (ChannelState.outgoingFrame opCode data)) fun _ _ => rfl)
  exact h

theorem closeHandle : Blind (ChannelState.closeHandle env) := by
  have hrest : Blind fun s => if env.closesAtOnce s.calls = true then s.didCloseSocketStream
      else s := ite (fun _ _ => rfl) didCloseSocketStream id
  have h := comp hrest (call (fun s => .close s.outgoingFrameQueue) fun _ _ => rfl)
  exact h

theorem processOutgoingFrames_step {opCode : OpCode} {data : List UInt8}
    (ih : ∀ b, ∃ b', ((s.sendFrameOrFail env opCode data).withBuffer b).processOutgoingFrames env =
      ((s.sendFrameOrFail env opCode data).processOutgoingFrames env).withBuffer b') (b : List UInt8) :
    ∃ b', ((s.withBuffer b).sendFrameOrFail env opCode data).processOutgoingFrames env =
      ((s.sendFrameOrFail env opCode data).processOutgoingFrames env).withBuffer b' := by
  obtain ⟨b', hb'⟩ := sendFrameOrFail env opCode data s b
  rw [hb']
  exact ih b'

theorem processOutgoingFrames : Blind (ChannelState.processOutgoingFrames env) := by
  intro s
  fun_induction ChannelState.processOutgoingFrames env s with
  | case1 s hque hstt =>
    intro b
    rw [(s.withBuffer b).processOutgoingFrames_nil env hque,
      if_pos (show (s.withBuffer b).outgoingFrameQueueStatus = _ from hstt)]
    exact closeHandle env { s with outgoingFrameQueueStatus := .closed } b
  | case2 s hque hstt =>
    intro b
    rw [(s.withBuffer b).processOutgoingFrames_nil env hque,
      if_neg (show (s.withBuffer b).outgoingFrameQueueStatus ≠ _ from hstt)]
    exact ⟨b, rfl⟩
  | case3 s frame queue hque data hdata ih | case4 s frame queue hque data hdata ih =>
    intro b
    rw [(s.withBuffer b).processOutgoingFrames_cons env hque, hdata]
    exact processOutgoingFrames_step env ih b
  | case5 s frame queue hque data hdata hloa
  | case6 s frame queue hque data hdata hloa
  | case7 s frame queue hque data hdata hloa =>
    intro b
    rw [(s.withBuffer b).processOutgoingFrames_cons env hque, hdata,
      show (s.withBuffer b).blobLoaderStatus = _ from hloa]
    exact ⟨b, rfl⟩
  | case8 s frame queue hque data hdata hloa ih =>
    intro b
    rw [(s.withBuffer b).processOutgoingFrames_cons env hque, hdata,
      show (s.withBuffer b).blobLoaderStatus = _ from hloa]
    exact processOutgoingFrames_step env ih b

theorem processOutgoingFrameQueue : Blind (ChannelState.processOutgoingFrameQueue env) :=
  ite (fun _ _ => rfl) id (processOutgoingFrames env)

theorem enterClosing : Blind ChannelState.enterClosing :=
  ite (fun _ _ => rfl) id (ite (fun _ _ => rfl) (fun _ b => ⟨b, rfl⟩) fun _ b => ⟨b, rfl⟩)

theorem startClosingHandshake (code : Int) (reason : List UInt8) :
    Blind (ChannelState.startClosingHandshake env code reason) := by
  have henq : Blind fun s =>
      s.enqueueRawFrame .close (s.closeFramePayload code reason) := fun _ b => ⟨b, rfl⟩
  exact ite (fun _ _ => rfl) id (comp enterClosing (comp (processOutgoingFrameQueue env) henq))

theorem finishClosingHandshake : Blind (ChannelState.finishClosingHandshake env) :=
  ite (fun _ _ => rfl) (comp (processOutgoingFrameQueue env) fun _ b => ⟨b, rfl⟩) id

end Blind

end WebV8
