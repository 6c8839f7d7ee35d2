import WebV8.Websockets.WebSocketReceive

/-!
# The order of sent frames

What was handed to the socket, followed by what is still queued, is everything that was ever
enqueued, in order: `InOrder`. A blob keeps its place because the loader is only ever busy with the
blob at the front of the queue (`LoaderAgrees`), so its result is that frame's own payload. When the
channel closes, the queue is dropped and what was sent stays a prefix.

All that processes the queue changes the outbound state in few ways (`Flush`).
-/

namespace WebV8

open List SocketCall

/-! ## What is to be sent and what is sent -/

def QueuedFrameData.ownPayload : QueuedFrameData → List UInt8
  | string stringData => stringData
  | vector vectorData => vectorData
  | blob blobData => blobData.contents

/-- The frame that is to reach the socket for a queued one. -/
def QueuedFrame.wire (frame : QueuedFrame) : WebSocketFrame :=
  ChannelState.outgoingFrame frame.opCode frame.data.ownPayload

def SocketCall.sentFrame : SocketCall → Option WebSocketFrame
  | send frame => some frame
  | _ => none

namespace OutboundState

/-- The frames handed to `SocketStreamHandle::send`, in order. -/
def sent (s : OutboundState) : List WebSocketFrame := s.calls.filterMap sentFrame

/-- The frames that were to be sent, in the order of their enqueueing. -/
def toSend (s : OutboundState) : List WebSocketFrame := s.enqueued.map QueuedFrame.wire

end OutboundState

def isClose (frame : WebSocketFrame) : Bool := frame.opCode = .close

/-- The loader, while it is busy or has its result, is on the blob at the front of the queue. -/
def LoaderAgrees (s : OutboundState) : Prop :=
  match s.blobLoaderStatus with
  | .notStarted => True
  | .started | .finished => ∃ opCode b rest, s.blobLoader = some b ∧
      s.outgoingFrameQueue = ⟨opCode, .blob b⟩ :: rest
  | .failed => False

/-- What was handed to the socket is in order, whatever became of the queue. -/
structure SentInOrder (s : OutboundState) : Prop where
  sent : s.sent <+: s.toSend
  sentOneClose : s.sent.countP isClose ≤ 1
  emptied : ∀ queued, .close queued ∈ s.calls → queued = []

structure InOrder (s : OutboundState) : Prop extends SentInOrder s where
  rest : s.outgoingFrameQueueStatus ≠ .closed →
    s.toSend = s.sent ++ s.outgoingFrameQueue.map QueuedFrame.wire
  loader : s.outgoingFrameQueueStatus ≠ .closed → LoaderAgrees s
  live : s.outgoingFrameQueueStatus ≠ .closed → s.handle = true ∧ s.closed = false
  toSendOneClose : s.outgoingFrameQueueStatus ≠ .closed → s.toSend.countP isClose ≤ 1
  ended : s.outgoingFrameQueueStatus = .closed → s.closed = true ∨ .close [] ∈ s.calls

variable {s t : OutboundState}

theorem InOrder.withFlags (h : InOrder s) (closing closingTimerActive : Bool) :
    InOrder { s with closing := closing, closingTimerActive := closingTimerActive } :=
  ⟨⟨h.sent, h.sentOneClose, h.emptied⟩, h.rest, h.loader, h.live, h.toSendOneClose, h.ended⟩

def QueueSettled (s : OutboundState) : Prop :=
  s.outgoingFrameQueueStatus ≠ .closed →
    s.outgoingFrameQueue = [] ∨ s.blobLoaderStatus = .started

/-- What going through the queue leaves alone, and how its status can change. -/
structure Flush (s t : OutboundState) : Prop where
  enqueued : t.enqueued = s.enqueued
  closing : t.closing = s.closing
  status : t.outgoingFrameQueueStatus = s.outgoingFrameQueueStatus ∨
    t.outgoingFrameQueueStatus = .closed ∧
      (t.closed = true ∨ s.outgoingFrameQueueStatus = .closing)
  closed : s.closed = true → t.closed = true

namespace Flush

variable {s t u : OutboundState}

theorem refl (s : OutboundState) : Flush s s := ⟨rfl, rfl, .inl rfl, id⟩

theorem trans (h : Flush s t) (h' : Flush t u) : Flush s u where
  enqueued := h'.enqueued.trans h.enqueued
  closing := h'.closing.trans h.closing
  status := by
    rcases h'.status with hu | ⟨hu, hend⟩
    · rcases h.status with ht | ⟨ht, hend⟩
      · exact .inl (hu.trans ht)
      · exact .inr ⟨hu.trans ht, hend.imp_left h'.closed⟩
    · rcases hend with hend | hend
      · exact .inr ⟨hu, .inl hend⟩
      · rcases h.status with ht | ⟨ht, -⟩
        · exact .inr ⟨hu, .inr (ht.symm.trans hend)⟩
        · exact absurd (ht.symm.trans hend) nofun
  closed := h'.closed ∘ h.closed

theorem after (h : Flush t u) (enqueued : t.enqueued = s.enqueued) (closing : t.closing = s.closing)
    (status : t.outgoingFrameQueueStatus = s.outgoingFrameQueueStatus) (closed : t.closed = s.closed) : Flush s u :=
  trans ⟨enqueued, closing, .inl status, closed.trans⟩ h

end Flush

/-! ## Closing -/

/-- The outbound side after `didCloseSocketStream`. -/
structure Shut (s t : OutboundState) : Prop where
  calls : t.calls = s.calls
  enqueued : t.enqueued = s.enqueued
  closing : t.closing = s.closing
  closed : t.closed = true
  status : t.outgoingFrameQueueStatus = .closed
  queue : s.outgoingFrameQueueStatus ≠ .closed → t.outgoingFrameQueue = []

namespace ChannelState

theorem didCloseSocketStream_shut (s : ChannelState) :
    Shut s.toOutboundState s.didCloseSocketStream.toOutboundState := by
  have hstop : Shut s.toOutboundState s.stopOutgoing.toOutboundState := by
    unfold stopOutgoing abortOutgoingFrameQueue
    dsimp only
    split_ifs with hclo
    · exact ⟨rfl, rfl, rfl, rfl, hclo, fun h => absurd hclo h⟩
    · exact ⟨rfl, rfl, rfl, rfl, rfl, fun _ => rfl⟩
    · exact ⟨rfl, rfl, rfl, rfl, rfl, fun _ => rfl⟩
  obtain ⟨h1, h2, h3, h4, h5, h6⟩ := hstop
  rw [didCloseSocketStream_eq]
  unfold released
  split_ifs <;> exact ⟨h1, h2, h3, h4, h5, h6⟩

end ChannelState

theorem Shut.flush (h : Shut s t) : Flush s t :=
  ⟨h.enqueued, h.closing, .inr ⟨h.status, .inl h.closed⟩, fun _ => h.closed⟩

theorem SentInOrder.of_closed (h : SentInOrder t)
    (hstt : t.outgoingFrameQueueStatus = .closed)
    (hend : t.closed = true ∨ .close [] ∈ t.calls) : InOrder t where
  toSentInOrder := h
  rest hopen := absurd hstt hopen
  loader hopen := absurd hstt hopen
  live hopen := absurd hstt hopen
  toSendOneClose hopen := absurd hstt hopen
  ended _ := hend

theorem SentInOrder.of_eq (h : SentInOrder s) (hsent : t.sent = s.sent) (henq : t.enqueued = s.enqueued)
    (hemp : ∀ queued, .close queued ∈ t.calls → queued = []) : SentInOrder t := by
  have htoSe : t.toSend = s.toSend := by rw [OutboundState.toSend, henq]; rfl
  refine ⟨?_, ?_, hemp⟩
  · rw [hsent, htoSe]
    exact h.sent
  · rw [hsent]
    exact h.sentOneClose

theorem SentInOrder.shut (h : SentInOrder s) (hshut : Shut s t) : InOrder t := by
  have hsent : t.sent = s.sent := by rw [OutboundState.sent, hshut.calls]; rfl
  refine (h.of_eq hsent hshut.enqueued ?_).of_closed hshut.status (.inl hshut.closed)
  rw [hshut.calls]
  exact h.emptied

namespace ChannelState

variable {s : ChannelState} {frame : QueuedFrame} {data : List UInt8} {queue : List QueuedFrame}

theorem disconnectHandle_inOrder (h : SentInOrder s.toOutboundState) :
    InOrder s.disconnectHandle.toOutboundState := by
  have hcall : SentInOrder (s.call .disconnect).toOutboundState := by
    refine h.of_eq ?_ rfl ?_
    · simp [OutboundState.sent, call, sentFrame]
    · intro queued hmem
      simp only [call, mem_append, mem_singleton, reduceCtorEq, or_false] at hmem
      exact h.emptied queued hmem
  exact hcall.shut (s.call .disconnect).didCloseSocketStream_shut

theorem disconnectHandle_flush (s : ChannelState) : Flush s.toOutboundState s.disconnectHandle.toOutboundState :=
  (s.call .disconnect).didCloseSocketStream_shut.flush.after rfl rfl rfl rfl

theorem fail_flush (s : ChannelState) (reason : String) :
    Flush s.toOutboundState (s.fail reason).toOutboundState := by
  unfold fail
  dsimp only
  split
  · exact (s.discardReceived reason).disconnectHandle_flush
  · exact .refl _

theorem fail_inOrder (h : InOrder s.toOutboundState) (reason : String) :
    InOrder (s.fail reason).toOutboundState := by
  unfold fail
  dsimp only
  split
  · exact disconnectHandle_inOrder (s := s.discardReceived reason) h.toSentInOrder
  · exact h

theorem fail_of_live (hlive : s.handle = true ∧ s.closed = false) (reason : String) :
    s.fail reason = (s.discardReceived reason).disconnectHandle :=
  if_pos ⟨hlive.1, by simp [discardReceived, emit, hlive.2]⟩

/-! ## One frame sent -/

variable (env : Environment)

theorem sent_call (s : ChannelState) (frame : WebSocketFrame) :
    (s.call (.send frame)).sent = s.sent ++ [frame] := by
  simp [OutboundState.sent, call, sentFrame]

/-- The frame at the front is sent: if its payload is its own and the loader is idle, the order is
    kept, and a failure empties the queue. -/
theorem sendFrameOrFail_inOrder
    (h : SentInOrder s.toOutboundState) (hstt : s.outgoingFrameQueueStatus ≠ .closed)
    (hrest : s.toSend = s.sent ++ frame.wire :: s.outgoingFrameQueue.map QueuedFrame.wire)
    (hdata : data = frame.data.ownPayload) (hloa : s.blobLoaderStatus = .notStarted)
    (hlive : s.handle = true ∧ s.closed = false) (hclo : s.toSend.countP isClose ≤ 1) :
    let t := s.sendFrameOrFail env frame.opCode data
    InOrder t.toOutboundState ∧
      (t.outgoingFrameQueueStatus = .closed → t.outgoingFrameQueue = []) := by
  subst hdata
  have hrest' : (s.call (.send frame.wire)).toSend =
      (s.call (.send frame.wire)).sent ++ s.outgoingFrameQueue.map QueuedFrame.wire := by
    rw [sent_call, append_assoc]
    exact hrest
  have hord : InOrder (s.call (.send frame.wire)).toOutboundState := by
    refine ⟨⟨⟨_, hrest'.symm⟩, ?_, ?_⟩, fun _ => hrest', fun _ => ?_, fun _ => hlive, fun _ => hclo,
      fun hclos => absurd hclos hstt⟩
    · exact le_trans (List.Sublist.countP_le (List.IsPrefix.sublist ⟨_, hrest'.symm⟩)) hclo
    · intro queued hmem
      simp only [call, mem_append, mem_singleton, reduceCtorEq, or_false] at hmem
      exact h.emptied queued hmem
    · rw [LoaderAgrees, show (s.call (.send frame.wire)).blobLoaderStatus = _ from hloa]
      trivial
  have hres : s.sendFrameOrFail env frame.opCode frame.data.ownPayload =
      if env.send (s.call (.send frame.wire)).calls = true then s.call (.send frame.wire)
      else (s.call (.send frame.wire)).fail "Failed to send WebSocket frame." := rfl
  intro t
  rw [show t = _ from hres]
  split
  · exact ⟨hord, fun hclos => absurd hclos hstt⟩
  · refine ⟨fail_inOrder hord _, fun _ => ?_⟩
    rw [fail_of_live (s := s.call (.send frame.wire)) hlive]
    exact (((s.call (.send frame.wire)).discardReceived _).call .disconnect).didCloseSocketStream_shut.queue hstt

theorem sendFrameOrFail_flush (s : ChannelState) (opCode : OpCode) (data : List UInt8) :
    Flush s.toOutboundState (s.sendFrameOrFail env opCode data).toOutboundState := by
  unfold sendFrameOrFail
  dsimp only
  split
  · exact ⟨rfl, rfl, .inl rfl, id⟩
  · exact (fail_flush _ _).after rfl rfl rfl rfl

theorem closeHandle_flush (s : ChannelState) : Flush s.toOutboundState (s.closeHandle env).toOutboundState := by
  unfold closeHandle
  dsimp only
  split
  · exact (didCloseSocketStream_shut _).flush.after rfl rfl rfl rfl
  · exact ⟨rfl, rfl, .inl rfl, id⟩

theorem closeHandle_inOrder (h : SentInOrder s.toOutboundState)
    (hque : s.outgoingFrameQueue = []) (hstt : s.outgoingFrameQueueStatus = .closed) :
    InOrder (s.closeHandle env).toOutboundState := by
  have hcall : SentInOrder (s.call (.close s.outgoingFrameQueue)).toOutboundState := by
    refine h.of_eq ?_ rfl ?_
    · simp [OutboundState.sent, call, sentFrame]
    · intro queued hmem
      simp only [call, mem_append, mem_singleton, SocketCall.close.injEq] at hmem
      rcases hmem with hmem | rfl
      · exact h.emptied queued hmem
      · exact hque
  unfold closeHandle
  dsimp only
  split
  · exact hcall.shut (didCloseSocketStream_shut _)
  · refine hcall.of_closed hstt (.inr ?_)
    simp [call, hque]

/-! ## The whole queue -/

theorem processOutgoingFrames_flush (s : ChannelState) :
    Flush s.toOutboundState (s.processOutgoingFrames env).toOutboundState := by
  fun_induction processOutgoingFrames env s with
  | case1 s hque hstt =>
    have hclo : Flush s.toOutboundState { s with outgoingFrameQueueStatus := .closed }.toOutboundState :=
      ⟨rfl, rfl, .inr ⟨rfl, .inr hstt⟩, id⟩
    exact hclo.trans (closeHandle_flush env _)
  | case2 s _ _ => exact .refl _
  | case3 s frame queue _ _ _ ih | case4 s frame queue _ _ _ ih =>
    exact ((sendFrameOrFail_flush env _ _ _).trans ih).after rfl rfl rfl rfl
  | case5 s => exact ⟨rfl, rfl, .inl rfl, id⟩
  | case6 s => exact .refl _
  | case7 s => exact .refl _
  | case8 s frame queue _ _ _ _ ih =>
    exact ((sendFrameOrFail_flush env _ _ _).trans ih).after rfl rfl rfl rfl

theorem loader_idle {s : OutboundState} (h : LoaderAgrees s) (hque : s.outgoingFrameQueue = frame :: queue)
    (hdata : ∀ b, frame.data ≠ .blob b) : s.blobLoaderStatus = .notStarted := by
  have hfro : ¬ ∃ opCode b rest, s.blobLoader = some b ∧
      s.outgoingFrameQueue = ⟨opCode, .blob b⟩ :: rest := by
    rintro ⟨opCode, b, rest, -, hq⟩
    obtain ⟨rfl, -⟩ := List.cons.inj (hque.symm.trans hq)
    exact hdata b rfl
  unfold LoaderAgrees at h
  cases hs : s.blobLoaderStatus with
  | notStarted => rfl
  | started | finished =>
    rw [hs] at h
    exact absurd h hfro
  | failed =>
    rw [hs] at h
    exact h.elim

theorem sendFront_inOrder (h : InOrder s.toOutboundState)
    (hstt : s.outgoingFrameQueueStatus ≠ .closed)
    (hque : s.outgoingFrameQueue = frame :: queue)
    (hdata : data = frame.data.ownPayload) {loader : Option Blob}
    {loading : BlobLoaderStatus} (hidle : loading = .notStarted) :
    let t := { s with
      outgoingFrameQueue := queue
      blobLoader := loader
      blobLoaderStatus := loading }.sendFrameOrFail env frame.opCode data
    InOrder t.toOutboundState ∧
      (t.outgoingFrameQueueStatus = .closed → t.outgoingFrameQueue = []) := by
  have hrest := h.rest hstt
  rw [hque, map_cons] at hrest
  exact sendFrameOrFail_inOrder env ⟨h.sent, h.sentOneClose, h.emptied⟩ hstt hrest hdata hidle
    (h.live hstt) (h.toSendOneClose hstt)

/-- **Going through the queue keeps the order** and ends with an empty queue, a busy loader or a
    closed channel. -/
theorem processOutgoingFrames_inOrder (h : InOrder s.toOutboundState)
    (hemp : s.outgoingFrameQueueStatus = .closed → s.outgoingFrameQueue = []) :
    InOrder (s.processOutgoingFrames env).toOutboundState ∧
      QueueSettled (s.processOutgoingFrames env).toOutboundState := by
  have hopen : ∀ {u : ChannelState} {frame : QueuedFrame} {queue : List QueuedFrame},
      (u.outgoingFrameQueueStatus = .closed → u.outgoingFrameQueue = []) →
      u.outgoingFrameQueue = frame :: queue → u.outgoingFrameQueueStatus ≠ .closed :=
    fun hu hque hclo => cons_ne_nil _ _ (hque.symm.trans (hu hclo))
  fun_induction processOutgoingFrames env s with
  | case1 s hque hstt =>
    have hsent : SentInOrder { s with outgoingFrameQueueStatus := .closed }.toOutboundState :=
      ⟨h.sent, h.sentOneClose, h.emptied⟩
    refine ⟨closeHandle_inOrder env hsent hque rfl, fun hne => absurd ?_ hne⟩
    rcases (closeHandle_flush env { s with outgoingFrameQueueStatus := .closed }).status with heq | ⟨heq, -⟩
    · exact heq
    · exact heq
  | case2 s hque _ => exact ⟨h, fun _ => .inl hque⟩
  | case3 s frame queue hque data hdata ih | case4 s frame queue hque data hdata ih =>
    have hstt := hopen hemp hque
    have hidle := loader_idle (h.loader hstt) hque (by simp [hdata])
    obtain ⟨hord, hclo⟩ := sendFront_inOrder env h hstt hque (by rw [hdata]) hidle
    exact ih hord hclo
  | case5 s frame queue hque blob hdata hloa =>
    have hfro : s.outgoingFrameQueue = ⟨frame.opCode, .blob blob⟩ :: queue := by
      rw [hque, ← hdata]
    exact ⟨⟨⟨h.sent, h.sentOneClose, h.emptied⟩, h.rest,
      fun _ => ⟨frame.opCode, blob, queue, rfl, hfro⟩, h.live, h.toSendOneClose, h.ended⟩,
      fun _ => .inr rfl⟩
  | case6 s frame queue hque blob hdata hloa => exact ⟨h, fun _ => .inr hloa⟩
  | case7 s frame queue hque blob hdata hloa =>
    have hagr := h.loader (hopen hemp hque)
    rw [LoaderAgrees, hloa] at hagr
    exact hagr.elim
  | case8 s frame queue hque blob hdata hloa ih =>
    have hstt := hopen hemp hque
    have hagr := h.loader hstt
    rw [LoaderAgrees, hloa] at hagr
    obtain ⟨opCode, b, rest, hb, hq⟩ := hagr
    obtain ⟨hfr, -⟩ := List.cons.inj (hque.symm.trans hq)
    have hown : s.arrayBufferResult = frame.data.ownPayload := by
      rw [arrayBufferResult, hb, hfr]
      rfl
    obtain ⟨hord, hclo⟩ := sendFront_inOrder env h hstt hque hown rfl
    exact ih hord hclo

end ChannelState

end WebV8
