import WebV8.Websockets.WebSocketStream

/-!
# From frames to messages

What the client gets is a function of the frames the stream consists of: the frames that are not
control frames, cut after each final one, are the messages, and a message is the concatenation of
its fragments' payloads (`messages`, `Delivers`). The channel keeps the fragments of the message
under way (`Assembled`); control frames do not touch them.
-/

namespace WebV8

open Lib List

/-- One more frame: a control frame changes nothing, a final frame completes the message under
    way. -/
def addFrame (m : List (List WebSocketFrame) × List WebSocketFrame) (frame : WebSocketFrame) :
    List (List WebSocketFrame) × List WebSocketFrame :=
  if frame.opCode.isControlOpCode then m
  else if frame.final then (m.1 ++ [m.2 ++ [frame]], [])
  else (m.1, m.2 ++ [frame])

/-- The complete messages of a sequence of frames, each as the list of its fragments, and the
    fragments of the message that is not complete. -/
def messages (frames : List WebSocketFrame) : List (List WebSocketFrame) × List WebSocketFrame :=
  frames.foldl addFrame ([], [])

theorem messages_concat (frames : List WebSocketFrame) (frame : WebSocketFrame) :
    messages (frames ++ [frame]) = addFrame (messages frames) frame := by
  rw [messages, foldl_append]
  rfl

def payloads (fragments : List WebSocketFrame) : List UInt8 :=
  fragments.flatMap WebSocketFrame.payload

inductive Delivers : List WebSocketFrame → ClientEvent → Prop where
  | text {first : WebSocketFrame} {rest : List WebSocketFrame} {message : List UInt16}
      (opCode : first.opCode = .text)
      (decoded : fromUTF8 (payloads (first :: rest)) = some message) :
      Delivers (first :: rest) (.didReceiveMessage message)
  | binary {first : WebSocketFrame} {rest : List WebSocketFrame}
      (opCode : first.opCode = .binary) :
      Delivers (first :: rest) (.didReceiveBinaryData (payloads (first :: rest)))

/-- The stream starts with these frames, and this follows them. -/
inductive FramesOf : List UInt8 → List WebSocketFrame → List UInt8 → Prop where
  | nil (stream : List UInt8) : FramesOf stream [] stream
  | concat {stream rest : List UInt8} {frames : List WebSocketFrame} {frame : WebSocketFrame}
      {frameEnd : Nat} (front : FramesOf stream frames rest)
      (next : parseFrame rest = .frameOK frame frameEnd) :
      FramesOf stream (frames ++ [frame]) (rest.drop frameEnd)

/-- The fragments under way are what the channel has kept. -/
def Pending (s : InboundState) : List WebSocketFrame → Prop
  | [] => s.hasContinuousFrame = false ∧ s.continuousFrameData = []
  | first :: rest => s.hasContinuousFrame = true ∧ s.continuousFrameOpCode = first.opCode ∧
      (first.opCode = .text ∨ first.opCode = .binary) ∧
      s.continuousFrameData = payloads (first :: rest)

structure Assembled (frames : List WebSocketFrame) (s : InboundState) : Prop where
  delivered : List.Forall₂ Delivers (messages frames).1 s.delivered
  pending : Pending s (messages frames).2

variable {t : ChannelState} {e : ClientEvent}

namespace ChannelState

variable (env : Environment)

theorem deliverText_cases (data : List UInt8) (s : ChannelState) : (∃ message, fromUTF8 data = some message ∧
      s.deliverText data = s.emit (.didReceiveMessage message)) ∨
    (∃ reason, s.deliverText data = s.fail reason) := by
  have hdec : (if data.length ≠ 0 then fromUTF8 data else some []) = fromUTF8 data := by
    split
    · rfl
    · rename_i hemp
      rw [length_eq_zero_iff.mp (not_not.mp hemp)]
      rfl
  unfold deliverText
  rw [hdec]
  cases fromUTF8 data with
  | none => exact .inr ⟨_, rfl⟩
  | some message => exact .inl ⟨message, rfl, rfl⟩

theorem delivered_emit (s : ChannelState) (h : e.isData = true) :
    (s.emit e).delivered = s.delivered ++ [e] := by
  simp [InboundState.delivered, emit, h]

theorem not_receiving_close (frame : WebSocketFrame) (n : Nat) (s : ChannelState) :
    ¬ (s.processCloseFrame env frame n).Receiving := by
  unfold processCloseFrame
  split
  · exact not_receiving_fail _ _
  · rintro ⟨-, -, hopen⟩
    rw [((Acts.startClosingHandshake env _ _ _).trans
      (.finishClosingHandshake env _)).outward.receivedClosingHandshake] at hopen
    cases hopen

/-- From `s` to `t`, receiving goes on or nothing is delivered. -/
def GoesOnOrSilent (s t : ChannelState) : Prop := t.Receiving ∨ t.delivered = s.delivered

variable {s : ChannelState} {frame : WebSocketFrame}

theorem Handled.goesOnOrSilent {n : Nat} (h : Handled env frame n s t) (hs : s.Receiving) : GoesOnOrSilent s t := by
  cases h with
  | fail => exact .inr (Acts.fail _ _).outward.delivered
  | keep | deliver => exact .inl hs
  | close code reason =>
    exact .inr ((Acts.startClosingHandshake env (s.receiveCloseFrame code reason n) _ _).trans
      (.finishClosingHandshake env _)).outward.delivered
  | ping =>
    exact .inr (Acts.processOutgoingFrameQueue env
      ((s.enqueueRawFrame .pong frame.payload).skipBuffer n)).outward.delivered

/-- The checks leave only the control frames, a continuation, or a first fragment when there is
    no message under way. -/
theorem frameFailure_eq_none (h : s.frameFailure frame = none) :
    frame.opCode.isReservedOpCode = false ∧ (s.hasContinuousFrame = true → frame.opCode = .continuation ∨
        frame.opCode.isControlOpCode = true) := by
  unfold frameFailure at h
  split_ifs at h with h1 h2 h3 h4 h5 h6 h7
  refine ⟨by simpa using h2, fun hcont => ?_⟩
  by_contra hne
  rw [not_or] at hne
  exact h7 ⟨hcont, hne.1, by simpa using hne.2⟩

end ChannelState

open ChannelState

variable (env : Environment)

namespace Assembled

variable {frames : List WebSocketFrame} {frame : WebSocketFrame} {s t : ChannelState} {n : Nat}

variable (h : Assembled frames s.toInboundState)
include h

theorem control (hcon : frame.opCode.isControlOpCode = true)
    (hout : Outward s.toInboundState t.toInboundState) (hkept : t.shouldDiscardReceivedData = false) :
    Assembled (frames ++ [frame]) t.toInboundState := by
  have hmsgs : messages (frames ++ [frame]) = messages frames := by
    rw [messages_concat, addFrame, if_pos hcon]
  obtain ⟨-, hhas, hop, hdata⟩ := hout.kept hkept
  refine ⟨?_, ?_⟩
  · rw [hmsgs, hout.delivered]
    exact h.delivered
  · rw [hmsgs]
    have hpen := h.pending
    cases hp : (messages frames).2 with
    | nil =>
      rw [hp] at hpen
      exact ⟨hhas.trans hpen.1, hdata.trans hpen.2⟩
    | cons first rest =>
      rw [hp] at hpen
      obtain ⟨h1, h2, h3, h4⟩ := hpen
      exact ⟨hhas.trans h1, hop.trans h2, h3, hdata.trans h4⟩

theorem fragment
    (hcon : frame.opCode.isControlOpCode = false) (hfin : frame.final = false)
    (hdld : t.delivered = s.delivered)
    (hpen : Pending t.toInboundState ((messages frames).2 ++ [frame])) :
    Assembled (frames ++ [frame]) t.toInboundState := by
  have hmsgs : messages (frames ++ [frame]) =
      ((messages frames).1, (messages frames).2 ++ [frame]) := by
    rw [messages_concat, addFrame, if_neg (by simp [hcon]), if_neg (by simp [hfin])]
  refine ⟨?_, ?_⟩
  · rw [hmsgs, hdld]
    exact h.delivered
  · rw [hmsgs]
    exact hpen

theorem final
    (hcon : frame.opCode.isControlOpCode = false) (hfin : frame.final = true)
    (hdld : t.delivered = s.delivered ++ [e])
    (he : Delivers ((messages frames).2 ++ [frame]) e)
    (hpen : t.hasContinuousFrame = false ∧ t.continuousFrameData = []) :
    Assembled (frames ++ [frame]) t.toInboundState := by
  have hmsgs : messages (frames ++ [frame]) =
      ((messages frames).1 ++ [(messages frames).2 ++ [frame]], []) := by
    rw [messages_concat, addFrame, if_neg (by simp [hcon]), if_pos hfin]
  refine ⟨?_, ?_⟩
  · rw [hmsgs, hdld]
    exact rel_append h.delivered (.cons he .nil)
  · rw [hmsgs]
    exact hpen

omit h in
theorem payloads_append (fragments : List WebSocketFrame) (frame : WebSocketFrame) :
    payloads (fragments ++ [frame]) = payloads fragments ++ frame.payload := by
  simp [payloads]

theorem continuation (hop : frame.opCode = .continuation)
    (ht : (s.processContinuationFrame frame n).Receiving) :
    Assembled (frames ++ [frame]) (s.processContinuationFrame frame n).toInboundState := by
  have hcon : frame.opCode.isControlOpCode = false := by rw [hop]; rfl
  have hpen := h.pending
  cases hp : (messages frames).2 with
  | nil =>
    rw [hp] at hpen
    rw [processContinuationFrame, if_pos (by simp [hpen.1])] at ht
    exact absurd ht (not_receiving_fail _ _)
  | cons first rest =>
    rw [hp] at hpen
    obtain ⟨hhas, hopCo, hkind, hdata⟩ := hpen
    have hdata' : (s.appendContinuousFrame frame n).continuousFrameData =
        payloads (first :: rest ++ [frame]) := by
      rw [payloads_append, ← hdata]
      rfl
    unfold processContinuationFrame at ht ⊢
    rw [if_neg (by simp [hhas])] at ht ⊢
    split at ht
    · rename_i hfin
      rw [if_pos hfin]
      rw [finishContinuousFrame] at ht ⊢
      have htak : ∀ {e : ClientEvent}, e.isData = true → Delivers (first :: rest ++ [frame]) e →
          Assembled (frames ++ [frame]) ({ s.appendContinuousFrame frame n with
            continuousFrameData := [], hasContinuousFrame := false }.emit e).toInboundState := by
        intro e he hdlv
        refine h.final hcon hfin (delivered_emit _ he) ?_ ⟨rfl, rfl⟩
        rwa [hp]
      rcases hkind with hkind | hkind
      · have hopTe : (s.appendContinuousFrame frame n).continuousFrameOpCode = .text := hopCo.trans hkind
        rw [if_pos hopTe] at ht ⊢
        rcases deliverText_cases (s.appendContinuousFrame frame n).continuousFrameData
          { s.appendContinuousFrame frame n with
            continuousFrameData := [], hasContinuousFrame := false } with
          ⟨message, hmsg, heq⟩ | ⟨reason, heq⟩
        · rw [heq]
          rw [hdata'] at hmsg
          exact htak rfl (.text hkind hmsg)
        · rw [heq] at ht
          exact absurd ht (not_receiving_fail _ _)
      · have hopBi : (s.appendContinuousFrame frame n).continuousFrameOpCode = .binary := hopCo.trans hkind
        rw [if_neg (by rw [hopBi]; nofun), if_pos hopBi, hdata']
        exact htak rfl (.binary hkind)
    · rename_i hfin
      rw [if_neg hfin]
      refine h.fragment hcon (by simpa using hfin) rfl ?_
      rw [hp]
      exact ⟨hhas, hopCo, hkind, hdata'⟩

theorem pending_eq_nil (hop : frame.opCode = .text ∨ frame.opCode = .binary)
    (hche : s.frameFailure frame = none) : (messages frames).2 = [] := by
  have hpen := h.pending
  cases hp : (messages frames).2 with
  | nil => rfl
  | cons first rest =>
    rw [hp] at hpen
    have hnext := (frameFailure_eq_none hche).2 hpen.1
    rcases hop with hop | hop <;> rw [hop] at hnext <;> simp [OpCode.isControlOpCode] at hnext

theorem opening (hop : frame.opCode = .text ∨ frame.opCode = .binary)
    (hche : s.frameFailure frame = none) (ht : (s.handleFrame env frame n).Receiving) :
    Assembled (frames ++ [frame]) (s.handleFrame env frame n).toInboundState := by
  have hnil := h.pending_eq_nil hop hche
  have hpen := h.pending
  rw [hnil] at hpen
  have hcon : frame.opCode.isControlOpCode = false := by
    rcases hop with hop | hop <;> rw [hop] <;> rfl
  have hpay : payloads [frame] = frame.payload := by simp [payloads]
  have hwho : ∀ {e : ClientEvent}, frame.final = true → e.isData = true → Delivers [frame] e →
      Assembled (frames ++ [frame]) ((s.skipBuffer n).emit e).toInboundState := by
    intro e hfin he hdlv
    refine h.final hcon hfin (delivered_emit _ he) ?_ hpen
    rwa [hnil]
  have hfst : ∀ {opCode : OpCode}, frame.final = false → frame.opCode = opCode →
      Assembled (frames ++ [frame]) (s.startContinuousFrame opCode frame n).toInboundState := by
    intro opCode hfin hopCo
    refine h.fragment hcon hfin rfl ?_
    rw [hnil]
    refine ⟨rfl, hopCo.symm, hop, ?_⟩
    change s.continuousFrameData ++ frame.payload = _
    rw [hpen.2, nil_append, hpay]
  rcases hop with hop | hop
  · rw [handleFrame, hop] at ht ⊢
    dsimp only at ht ⊢
    unfold processTextFrame at ht ⊢
    split at ht
    · rename_i hfin
      rw [if_pos hfin]
      rcases deliverText_cases frame.payload (s.skipBuffer n) with
        ⟨message, hmsg, heq⟩ | ⟨reason, heq⟩
      · rw [heq]
        rw [← hpay] at hmsg
        exact hwho hfin rfl (.text hop hmsg)
      · rw [heq] at ht
        exact absurd ht (not_receiving_fail _ _)
    · rename_i hfin
      rw [if_neg hfin]
      exact hfst (by simpa using hfin) hop
  · rw [handleFrame, hop]
    dsimp only
    unfold processBinaryFrame
    split
    · rename_i hfin
      have hdlv : Delivers [frame] (.didReceiveBinaryData frame.payload) := by
        have hwire : Delivers [frame] (.didReceiveBinaryData (payloads [frame])) := .binary hop
        rwa [hpay] at hwire
      exact hwho hfin rfl hdlv
    · rename_i hfin
      exact hfst (by simpa using hfin) hop

/-- **Every frame that is accepted is accounted for.** -/
theorem step (hche : s.frameFailure frame = none)
    (ht : (s.handleFrame env frame n).Receiving) :
    Assembled (frames ++ [frame]) (s.handleFrame env frame n).toInboundState := by
  cases hop : frame.opCode with
  | continuation =>
    rw [handleFrame, hop] at ht ⊢
    exact h.continuation hop ht
  | text => exact h.opening env (.inl hop) hche ht
  | binary => exact h.opening env (.inr hop) hche ht
  | close =>
    rw [handleFrame, hop] at ht
    exact absurd ht (not_receiving_close env frame n s)
  | ping =>
    rw [handleFrame, hop] at ht ⊢
    exact control (s := (s.enqueueRawFrame .pong frame.payload).skipBuffer n)
      ⟨h.delivered, h.pending⟩ (by rw [hop]; rfl) (Acts.processOutgoingFrameQueue env _).outward ht.2.1
  | pong =>
    rw [handleFrame, hop] at ht ⊢
    exact control (s := s.skipBuffer n) ⟨h.delivered, h.pending⟩ (by rw [hop]; rfl) (Outward.refl _) ht.2.1
  | reserved code =>
    have hrsv := (frameFailure_eq_none hche).1
    rw [hop] at hrsv
    cases hrsv

end Assembled

/-! ## The stream as a whole -/

/-- Where reading has come to rest, the client has got the messages of the frames read. -/
def DeliveredAll (stream : List UInt8) : Lib.Fed ChannelState UInt8 → Prop
  | .waiting s unread => ∃ frames, FramesOf stream frames unread ∧
      List.Forall₂ Delivers (messages frames).1 s.delivered ∧
      parseFrame unread = .frameIncomplete
  | .stopped s => ∃ frames rest, FramesOf stream frames rest ∧
      List.Forall₂ Delivers (messages frames).1 s.delivered

variable {s : ChannelState}

theorem readFrame_stop_delivered {b : List UInt8} (hs : s.Receiving)
    (h : readFrame env s b = .stop t) : t.delivered = s.delivered := by
  obtain ⟨hv, hstop, rfl⟩ := readFrame_stop env hs h
  cases hver : parseFrame b with
  | frameIncomplete => exact absurd hver hv
  | frameError errorString => exact (Acts.fail (s.withBuffer b) errorString).outward.delivered
  | frameOK frame n =>
    rw [hver] at hstop
    unfold react at hstop ⊢
    dsimp only at hstop ⊢
    split at hstop
    · exact (Acts.fail (s.withBuffer b) _).outward.delivered
    · exact ((handleFrame_handled env frame n (s.withBuffer b)).goesOnOrSilent env hs).resolve_left hstop

theorem drain_accounted (hs : s.Receiving) (hst : Assembled [] s.toInboundState) (stream : List UInt8) :
    DeliveredAll stream ((receiver env).drain s stream) := by
  refine Consumer.drain_induction (P := fun t b => t.Receiving ∧ ∃ frames, FramesOf stream frames b ∧
      Assembled frames t.toInboundState) ?_ ?_ ?_ s stream ⟨hs, [], .nil stream, hst⟩
  · rintro t b ⟨ht, frames, hfrs, hass⟩ hread
    exact ⟨frames, hfrs, hass.delivered, readFrame_wait env ht hread⟩
  · rintro t b n u ⟨-, frames, hfrs, hass⟩ hread
    obtain ⟨frame, hv, -, hu, hche, rfl, -⟩ := readFrame_take env hread
    have hnext := Assembled.step (s := t.withBuffer b) env ⟨hass.delivered, hass.pending⟩ hche hu
    exact ⟨hu, frames ++ [frame], hfrs.concat hv, hnext.delivered, hnext.pending⟩
  · rintro t b u ⟨ht, frames, hfrs, hass⟩ hread
    refine ⟨frames, b, hfrs, ?_⟩
    rw [readFrame_stop_delivered env ht hread]
    exact hass.delivered

namespace WebSocketChannel

variable {s : WebSocketChannel}

theorem receiveStep_of_not_receiving (h : Steady s) (hr : ¬ s.Receiving)
    (step : ReceiveStep) (hroom : s.buffer.length + step.bytes.length < 2 ^ 64) :
    ¬ (s.receiveStep env step).Receiving ∧ (s.receiveStep env step).delivered = s.delivered := by
  have hloop : ∀ {u : ChannelState}, ¬ u.Receiving →
      ¬ (u.receiveLoop env).Receiving ∧ (u.receiveLoop env).delivered = u.delivered := by
    intro u hu
    have hsame := receiveLoop_of_not_receiving env hu
    refine ⟨?_, ?_⟩
    · change ¬ ((u.receiveLoop env).withBuffer []).Receiving
      rw [hsame]
      exact hu
    · change ((u.receiveLoop env).withBuffer []).delivered = u.delivered
      rw [hsame]
      rfl
  cases step with
  | data chunk =>
    have hcas := didReceiveSocketStreamData_cases env (s := s.toChannelState) h.awake.linked chunk.nonempty hroom
    change ¬ (s.toChannelState.didReceiveSocketStreamData env chunk.bytes).Receiving ∧
      (s.toChannelState.didReceiveSocketStreamData env chunk.bytes).delivered = s.delivered
    rcases hcas with ⟨-, heq⟩ | heq
    · rw [heq]
      exact ⟨hr, rfl⟩
    · rw [heq]
      exact hloop (u := s.withBuffer (s.buffer ++ chunk.bytes)) hr
  | suspend => exact ⟨hr, rfl⟩
  | resume =>
    change ¬ s.resume.toChannelState.Receiving ∧ s.resume.toChannelState.delivered = s.delivered
    rw [s.resume_toChannelState]
    exact ⟨hr, rfl⟩
  | resumeTimerFired =>
    simp only [receiveStep]
    split
    · rw [h.resumeTimerFired_eq env]
      exact hloop hr
    · exact ⟨hr, rfl⟩

theorem receiveRun_of_not_receiving (h : Steady s) (hr : ¬ s.Receiving)
    (steps : List ReceiveStep) (hroom : s.buffer.length + (received steps).length < 2 ^ 64) :
    (s.receiveRun env steps).delivered = s.delivered := by
  induction steps generalizing s with
  | nil => rfl
  | cons step steps ih =>
    have hspl := received_cons_length step steps
    obtain ⟨hste, -, hbuf⟩ := h.step env step (by omega)
    obtain ⟨hr', hdld⟩ := receiveStep_of_not_receiving env h hr step (by omega)
    exact (ih hste hr' (by omega)).trans hdld

theorem Steady.not_receiving (h : Steady s)
    (hend : s.Failed ∨ s.receivedClosingHandshake = true) : ¬ s.Receiving := by
  rintro ⟨-, hdis, hopen⟩
  rcases hend with hfai | hclg
  · exact Bool.false_ne_true (hdis.symm.trans (h.awake.honest hfai))
  · exact Bool.false_ne_true (hopen.symm.trans hclg)

theorem Steady.atRest_data (h : Steady s) (hrest : s.AtRest)
    (chunk : SocketData) (hroom : s.buffer.length + chunk.bytes.length < 2 ^ 64) :
    (s.receiveStep env (.data chunk)).AtRest := by
  refine ⟨?_, hrest.2⟩
  change (s.toChannelState.didReceiveSocketStreamData env chunk.bytes).suspended = false
  rcases didReceiveSocketStreamData_cases env (s := s.toChannelState) h.awake.linked
    chunk.nonempty hroom with ⟨-, heq⟩ | heq
  · rw [heq]
    exact hrest.1
  · rw [heq]
    exact (awake_receiveLoop env ((h.awake' hrest.1).withBuffer _)).suspended

theorem receiveRun_append (s : WebSocketChannel) (before after : List ReceiveStep) :
    s.receiveRun env (before ++ after) = (s.receiveRun env before).receiveRun env after :=
  foldl_append

theorem Steady.accounted (h : Steady s) (hrest : s.AtRest)
    {stream : List UInt8} (hstr : DeliveredAll stream (s.reference env)) :
    ∃ frames rest, FramesOf stream frames rest ∧ List.Forall₂ Delivers (messages frames).1 s.delivered ∧
      (s.Receiving → parseFrame rest = .frameIncomplete) := by
  unfold ChannelState.reference at hstr
  split at hstr
  · rename_i hr
    have hread : (receiver env).read s.norm s.buffer = .wait := by
      change readFrame env s.norm s.buffer = .wait
      rw [readFrame, if_pos (show s.norm.Receiving from hr), if_pos (h.drained hrest hr)]
    rw [Consumer.drain_wait hread] at hstr
    obtain ⟨frames, hfrs, hdld, hv⟩ := hstr
    exact ⟨frames, s.buffer, hfrs, hdld, fun _ => hv⟩
  · rename_i hr
    obtain ⟨frames, rest, hfrs, hdld⟩ := hstr
    exact ⟨frames, rest, hfrs, hdld, fun hr' => absurd hr' hr⟩

/-- **Receiving does not depend on how the stream is cut or on suspensions, messages are the
    concatenations of their fragments, and nothing is delivered after the end.** The run starts
    when the handshake is connected and ends at rest; `stream` is all that arrived, as one
    chunk. -/
theorem receiveRun_correct (stream : SocketData) (steps : List ReceiveStep)
    (hbytes : received steps = stream.bytes) (hrest : (connected.receiveRun env steps).AtRest) :
    let s := connected.receiveRun env steps
    let whole := connected.receiveRun env [.data stream]
    (s.events = whole.events ∧ s.closeEventCode = whole.closeEventCode ∧
      s.closeEventReason = whole.closeEventReason) ∧
    (∃ frames rest, FramesOf stream.bytes frames rest ∧ List.Forall₂ Delivers (messages frames).1 s.delivered ∧
      (s.Receiving → parseFrame rest = .frameIncomplete)) ∧
    ∀ before after, steps = before ++ after → (connected.receiveRun env before).Failed ∨
        (connected.receiveRun env before).receivedClosingHandshake = true →
      s.delivered = (connected.receiveRun env before).delivered := by
  have hfits := stream.fits
  have hbuffer : connected.buffer.length = 0 := rfl
  have hwhole : received [.data stream] = stream.bytes := append_nil _
  obtain ⟨hsteady, href, -⟩ := receiveRun_fits env steady_connected steps (by rw [hbytes, hbuffer]; omega)
  obtain ⟨hsteady', href', -⟩ := receiveRun_fits env steady_connected [.data stream] (by rw [hwhole, hbuffer]; omega)
  rw [hbytes] at href
  rw [hwhole] at href'
  have hrest' : (connected.receiveRun env [.data stream]).AtRest :=
    steady_connected.atRest_data env ⟨rfl, rfl⟩ stream (by rw [hbuffer]; omega)
  have hnorm := norm_of_reference env (hsteady.drained hrest) (hsteady'.drained hrest') (href.trans href'.symm)
  refine ⟨⟨congrArg (·.events) hnorm, congrArg (·.closeEventCode) hnorm,
    congrArg (·.closeEventReason) hnorm⟩, hsteady.accounted env hrest ?_, ?_⟩
  · have hconnected : connected.reference env = (receiver env).drain connected.norm [] := if_pos ⟨rfl, rfl, rfl⟩
    rw [href, hconnected, Consumer.feed_drain, nil_append]
    exact drain_accounted env ⟨rfl, rfl, rfl⟩ ⟨.nil, rfl, rfl⟩ stream.bytes
  · intro before after hsteps hend
    rw [hsteps, received, flatMap_append] at hbytes
    have hlength := congrArg List.length hbytes
    rw [length_append] at hlength
    change (received before).length + (received after).length = _ at hlength
    obtain ⟨hmid, -, hsize⟩ := receiveRun_fits env steady_connected before (by rw [hbuffer]; omega)
    rw [hsteps, receiveRun_append]
    exact receiveRun_of_not_receiving env hmid (hmid.not_receiving hend) after (by omega)

/-- A socket that accepts every frame and closes when told to. -/
def obligingSocket : Environment := ⟨fun _ => true, fun _ => true, fun _ _ => []⟩

/-- A text message in two fragments with a ping between them and a close frame after it, cut inside
    its headers, with the channel suspended for a while. -/
theorem receiveRun_correct_fragments : ∃ (stream : SocketData) (steps : List ReceiveStep),
    received steps = stream.bytes ∧ (connected.receiveRun obligingSocket steps).AtRest ∧
    (connected.receiveRun obligingSocket steps).events = (connected.receiveRun obligingSocket [.data stream]).events ∧
    (connected.receiveRun obligingSocket steps).events =
      [.didReceiveMessage [0x48, 0x69], .didStartClosingHandshake, .didClose true 1000 (some [])] := by
  refine ⟨⟨[0x01, 0x01, 0x48, 0x89, 0x00, 0x80, 0x01, 0x69, 0x88, 0x02, 0x03, 0xE8], by decide, by decide⟩,
    [.data ⟨[0x01, 0x01], by decide, by decide⟩, .suspend,
      .data ⟨[0x48, 0x89, 0x00, 0x80], by decide, by decide⟩, .resume, .resumeTimerFired,
      .data ⟨[0x01, 0x69, 0x88, 0x02, 0x03, 0xE8], by decide, by decide⟩], rfl, ?_, ?_, ?_⟩
  · exact ⟨by decide +kernel, by decide +kernel⟩
  · exact (receiveRun_correct obligingSocket _ _ rfl ⟨by decide +kernel, by decide +kernel⟩).1.1
  · decide +kernel

end WebSocketChannel

end WebV8
