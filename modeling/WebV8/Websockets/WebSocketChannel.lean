import WebV8.Text.UTF8
import WebV8.Websockets.WebSocketFrame

/-!
# The WebSocket channel

`WebCore/Modules/websockets/WebSocketChannel.cpp` after the opening handshake, without the
deflate extension. One state holds both directions: the receive buffer with the message under
assembly, and the queue of outgoing frames with the one blob loader it shares. Pointers that are
only tested for null are Booleans.

What the channel does to others is recorded: `events` are the calls on the client, `calls` the
calls on the socket stream handle, `enqueued` every frame ever put into the outgoing queue. What
others decide is in `Environment`, as a function of the calls made so far: whether the socket
accepts a frame, and whether `close` finds its output buffer empty and disconnects at once.
-/

namespace WebV8

/-! ## The state -/

/-- The calls on `WebSocketChannelClient`. A failure carries the text for the console. -/
inductive ClientEvent where
  | didReceiveMessage (message : List UInt16)
  | didReceiveBinaryData (data : List UInt8)
  | didReceiveMessageError (reason : String)
  | didStartClosingHandshake
  | didClose (closingHandshakeComplete : Bool) (code : Nat) (reason : Option (List UInt16))
deriving DecidableEq, Repr

structure Blob where
  contents : List UInt8
deriving DecidableEq, Repr

/-- What a queued frame carries: `QueuedFrameTypeString`, `QueuedFrameTypeVector` or
    `QueuedFrameTypeBlob`. -/
inductive QueuedFrameData where
  | string (stringData : List UInt8)
  | vector (vectorData : List UInt8)
  | blob (blobData : Blob)
deriving DecidableEq, Repr

structure QueuedFrame where
  opCode : OpCode
  data : QueuedFrameData
deriving DecidableEq, Repr

inductive OutgoingFrameQueueStatus where
  | opened
  | closing
  | closed
deriving DecidableEq, Repr

inductive BlobLoaderStatus where
  | notStarted
  | started
  | finished
  | failed
deriving DecidableEq, Repr

/-- The calls on `SocketStreamHandle`. With `close` stands what was still queued when it was
    called. -/
inductive SocketCall where
  | send (frame : WebSocketFrame)
  | close (queued : List QueuedFrame)
  | disconnect
deriving DecidableEq, Repr

inductive ConversionMode where
  | lenientConversion
  | strictConversionReplacingUnpairedSurrogatesWithFFFD

structure Environment where
  /-- The result of a `send`, given all calls up to it. -/
  send : List SocketCall → Bool
  /-- Whether a `close` disconnects before it returns. -/
  closesAtOnce : List SocketCall → Bool
  /-- `String::utf8`. -/
  utf8 : ConversionMode → List UInt16 → List UInt8

def closeEventCodeNotSpecified : Int := -1
def closeEventCodeNoStatusRcvd : Nat := 1005
def closeEventCodeAbnormalClosure : Nat := 1006
def closeEventCodeTLSHandshake : Nat := 1015

/-- `FileError::ABORT_ERR`. -/
def abortErr : Nat := 3

structure InboundState where
  document : Bool
  client : Bool
  buffer : List UInt8
  suspended : Bool
  receivedClosingHandshake : Bool
  shouldDiscardReceivedData : Bool
  hasContinuousFrame : Bool
  continuousFrameOpCode : OpCode
  continuousFrameData : List UInt8
  closeEventCode : Nat
  closeEventReason : Option (List UInt16)
  events : List ClientEvent
deriving DecidableEq, Repr

structure OutboundState where
  handle : Bool
  closing : Bool
  closingTimerActive : Bool
  closed : Bool
  outgoingFrameQueue : List QueuedFrame
  outgoingFrameQueueStatus : OutgoingFrameQueueStatus
  /-- The blob the loader was started on, while there is a loader. -/
  blobLoader : Option Blob
  blobLoaderStatus : BlobLoaderStatus
  calls : List SocketCall
  enqueued : List QueuedFrame
deriving DecidableEq, Repr

structure ChannelState extends InboundState, OutboundState
deriving DecidableEq, Repr

/-- A channel whose handshake has just become `Connected`. -/
def ChannelState.connected : ChannelState where
  document := true
  client := true
  handle := true
  buffer := []
  suspended := false
  closing := false
  receivedClosingHandshake := false
  closingTimerActive := false
  closed := false
  shouldDiscardReceivedData := false
  hasContinuousFrame := false
  continuousFrameOpCode := .continuation
  continuousFrameData := []
  closeEventCode := closeEventCodeAbnormalClosure
  closeEventReason := none
  outgoingFrameQueue := []
  outgoingFrameQueueStatus := .opened
  blobLoader := none
  blobLoaderStatus := .notStarted
  events := []
  calls := []
  enqueued := []

namespace ChannelState

def emit (event : ClientEvent) (s : ChannelState) : ChannelState :=
  { s with events := s.events ++ [event] }

def call (c : SocketCall) (s : ChannelState) : ChannelState :=
  { s with calls := s.calls ++ [c] }

/-! ## Failing and closing -/

/-- `fail` up to its test of `m_handle && !m_closed`. -/
def discardReceived (reason : String) (s : ChannelState) : ChannelState :=
  { s with
      shouldDiscardReceivedData := true
      buffer := []
      hasContinuousFrame := false
      continuousFrameData := [] }.emit (.didReceiveMessageError reason)

/-- `didFail` and the call of `fail` in it, while the channel is closed: `fail` does not get to
    `disconnect`. -/
def didFailWhenClosed (errorCode : Nat) (s : ChannelState) : ChannelState :=
  { s with blobLoader := none, blobLoaderStatus := .failed }.discardReceived
    s!"Failed to load Blob: error code = {errorCode}"

/-- Called by `didCloseSocketStream` only, after it has set `m_closed`. -/
def abortOutgoingFrameQueue (s : ChannelState) : ChannelState :=
  let s := { s with outgoingFrameQueue := [], outgoingFrameQueueStatus := .closed }
  if s.blobLoaderStatus = .started then s.didFailWhenClosed abortErr else s

def didCloseSocketStream (s : ChannelState) : ChannelState :=
  let s := { s with closed := true, closingTimerActive := false }
  let s := if s.outgoingFrameQueueStatus = .closed then s else s.abortOutgoingFrameQueue
  if s.handle ∧ ¬ s.suspended then
    let closedState := { s with client := false, document := false, handle := false }
    if s.client then
      closedState.emit
        (.didClose s.receivedClosingHandshake s.closeEventCode s.closeEventReason)
    else closedState
  else s

/-- `m_handle->disconnect()`, which calls `didCloseSocketStream`. -/
def disconnectHandle (s : ChannelState) : ChannelState :=
  (s.call .disconnect).didCloseSocketStream

def fail (reason : String) (s : ChannelState) : ChannelState :=
  let s := s.discardReceived reason
  if s.handle ∧ ¬ s.closed then s.disconnectHandle else s

/-- `FileReaderLoaderClient::didFail`. -/
def didFail (errorCode : Nat) (s : ChannelState) : ChannelState :=
  { s with blobLoader := none, blobLoaderStatus := .failed }.fail
    s!"Failed to load Blob: error code = {errorCode}"

end ChannelState

/-! ## The outgoing queue -/

namespace ChannelState

variable (env : Environment)

def enqueue (frame : QueuedFrame) (s : ChannelState) : ChannelState :=
  { s with
      outgoingFrameQueue := s.outgoingFrameQueue ++ [frame]
      enqueued := s.enqueued ++ [frame] }

def enqueueTextFrame (string : List UInt8) (s : ChannelState) : ChannelState :=
  s.enqueue ⟨.text, .string string⟩

variable (opCode : OpCode) (data : List UInt8)

def enqueueRawFrame (s : ChannelState) : ChannelState :=
  s.enqueue ⟨opCode, .vector data⟩

def enqueueBlobFrame (blob : Blob) (s : ChannelState) : ChannelState :=
  s.enqueue ⟨opCode, .blob blob⟩

/-- The frame `sendFrame` builds: final, not compressed, masked. -/
def outgoingFrame : WebSocketFrame :=
  ⟨opCode, true, false, false, false, true, data⟩

def sendFrame (s : ChannelState) : ChannelState × Bool :=
  let s := s.call (.send (outgoingFrame opCode data))
  (s, env.send s.calls)

/-- `if (!sendFrame(..)) fail(..)`. -/
def sendFrameOrFail (s : ChannelState) : ChannelState :=
  let (s, sent) := s.sendFrame env opCode data
  if sent then s else s.fail "Failed to send WebSocket frame."

variable (s : ChannelState)

/-- `m_handle->close()`. -/
def closeHandle : ChannelState :=
  let s := s.call (.close s.outgoingFrameQueue)
  if env.closesAtOnce s.calls then s.didCloseSocketStream else s

/-- `m_blobLoader->arrayBufferResult()`. -/
def arrayBufferResult : List UInt8 :=
  (s.blobLoader.map Blob.contents).getD []

theorem abortOutgoingFrameQueue_queue : s.abortOutgoingFrameQueue.outgoingFrameQueue = [] := by
  unfold abortOutgoingFrameQueue
  dsimp only
  split <;> rfl

theorem didCloseSocketStream_queue_length :
    s.didCloseSocketStream.outgoingFrameQueue.length ≤ s.outgoingFrameQueue.length := by
  unfold didCloseSocketStream
  dsimp only
  split_ifs <;> simp [emit, abortOutgoingFrameQueue_queue]

theorem sendFrameOrFail_queue_length (s : ChannelState) :
    (s.sendFrameOrFail env opCode data).outgoingFrameQueue.length ≤ s.outgoingFrameQueue.length := by
  unfold sendFrameOrFail fail
  dsimp only
  split
  · exact le_rfl
  · split
    · exact didCloseSocketStream_queue_length _
    · exact le_rfl

/-- The loop of `processOutgoingFrameQueue` and what follows it. -/
def processOutgoingFrames (s : ChannelState) : ChannelState :=
  match _h : s.outgoingFrameQueue with
  | [] =>
    if s.outgoingFrameQueueStatus = .closing then
      { s with outgoingFrameQueueStatus := .closed }.closeHandle env
    else s
  | frame :: queue =>
    match frame.data with
    | .string stringData =>
      processOutgoingFrames
        ({ s with outgoingFrameQueue := queue }.sendFrameOrFail env frame.opCode stringData)
    | .vector vectorData =>
      processOutgoingFrames
        ({ s with outgoingFrameQueue := queue }.sendFrameOrFail env frame.opCode vectorData)
    | .blob blobData =>
      match s.blobLoaderStatus with
      -- The frame stays at the front until its blob is there.
      | .notStarted => { s with blobLoader := some blobData, blobLoaderStatus := .started }
      | .started | .failed => s
      | .finished =>
        processOutgoingFrames
          ({ s with
              outgoingFrameQueue := queue
              blobLoader := none
              blobLoaderStatus := .notStarted }.sendFrameOrFail env frame.opCode
            s.arrayBufferResult)
termination_by s.outgoingFrameQueue.length
decreasing_by
  all_goals
    rw [_h]
    exact Nat.lt_succ_of_le (sendFrameOrFail_queue_length env _ _ _)

theorem processOutgoingFrames_nil {s : ChannelState} (h : s.outgoingFrameQueue = []) :
    s.processOutgoingFrames env = if s.outgoingFrameQueueStatus = .closing then
        { s with outgoingFrameQueueStatus := .closed }.closeHandle env
      else s := by
  rw [processOutgoingFrames]
  split
  · rfl
  · simp_all

theorem processOutgoingFrames_cons {s : ChannelState} {frame : QueuedFrame}
    {queue : List QueuedFrame} (h : s.outgoingFrameQueue = frame :: queue) :
    s.processOutgoingFrames env =
      match frame.data with
      | .string data | .vector data =>
        ({ s with outgoingFrameQueue := queue }.sendFrameOrFail env frame.opCode data).processOutgoingFrames env
      | .blob blobData =>
        match s.blobLoaderStatus with
        | .notStarted => { s with blobLoader := some blobData, blobLoaderStatus := .started }
        | .started | .failed => s
        | .finished =>
          ({ s with
              outgoingFrameQueue := queue
              blobLoader := none
              blobLoaderStatus := .notStarted }.sendFrameOrFail env frame.opCode
            s.arrayBufferResult).processOutgoingFrames env := by
  rw [processOutgoingFrames]
  split
  · simp_all
  · rename_i frame' queue' h'
    obtain ⟨rfl, rfl⟩ := List.cons.inj (h'.symm.trans h)
    rcases frame' with ⟨opCode, data | data | data⟩
    · rfl
    · rfl
    · cases s.blobLoaderStatus <;> rfl

def processOutgoingFrameQueue : ChannelState :=
  if s.outgoingFrameQueueStatus = .closed then s else s.processOutgoingFrames env

/-- `FileReaderLoaderClient::didFinishLoading`. -/
def didFinishLoading : ChannelState :=
  { s with blobLoaderStatus := .finished }.processOutgoingFrameQueue env

/-! ## The closing handshake -/

/-- The low byte of a number, as the conversion to `unsigned char` takes it. -/
def lowByte (code : Int) : UInt8 := UInt8.ofNat (code % 256).toNat

/-- The payload `startClosingHandshake` puts together. -/
def closeFramePayload (code : Int) (reason : List UInt8) (s : ChannelState) : List UInt8 :=
  if ¬ s.receivedClosingHandshake ∧ code ≠ closeEventCodeNotSpecified then
    lowByte (code / 256) :: lowByte code :: reason
  else []

/-- The end of `startClosingHandshake`: the channel may have got closed because
    `processOutgoingFrameQueue` failed. -/
def enterClosing : ChannelState :=
  if s.closed then s
  else
    let s := { s with closing := true }
    if s.client then s.emit .didStartClosingHandshake else s

def startClosingHandshake (code : Int) (reason : List UInt8) (s : ChannelState) :
    ChannelState :=
  if s.closing then s
  else
    ((s.enqueueRawFrame .close (s.closeFramePayload code reason)).processOutgoingFrameQueue
      env).enterClosing

def close (code : Int) (reason : List UInt16) (s : ChannelState) : ChannelState :=
  if s.handle then
    let s := s.startClosingHandshake env code (env.utf8 .lenientConversion reason)
    if s.closing ∧ ¬ s.closingTimerActive then { s with closingTimerActive := true } else s
  else s

/-! ## Received frames -/

variable (frame : WebSocketFrame)

/-- The checks of `processFrame` before its `switch`; the text of the first that fails. -/
def frameFailure (s : ChannelState) : Option String :=
  -- `m_deflateFramer.inflate` without the extension
  if frame.compress then
    some "Compressed bit must be 0 if no negotiated deflate-frame extension"
  else if frame.opCode.isReservedOpCode then
    some s!"Unrecognized frame opcode: {frame.opCode.toNat}"
  else if frame.reserved2 ∨ frame.reserved3 then
    some ("One or more reserved bits are on: reserved2 = " ++ toString frame.reserved2.toNat ++
      ", reserved3 = " ++ toString frame.reserved3.toNat)
  else if frame.masked then
    some "A server must not mask any frames that it sends to the client."
  else if frame.opCode.isControlOpCode ∧ ¬ frame.final then
    some s!"Received fragmented control frame: opcode = {frame.opCode.toNat}"
  else if frame.opCode.isControlOpCode ∧ needsExtendedLengthField frame.payloadLength then
    some s!"Received control frame having too long payload: {frame.payloadLength} bytes"
  else if s.hasContinuousFrame ∧ frame.opCode ≠ .continuation ∧
      ¬ frame.opCode.isControlOpCode then
    some "Received new data frame but previous continuous frame is unfinished."
  else none

def skipBuffer (len : Nat) (s : ChannelState) : ChannelState :=
  { s with buffer := s.buffer.drop len }

/-- The end of a text message: decoded and delivered, or the channel fails. -/
def deliverText (s : ChannelState) : ChannelState :=
  match if data.length ≠ 0 then fromUTF8 data else some [] with
  | none => s.fail "Could not decode a text frame as UTF-8."
  | some message => s.emit (.didReceiveMessage message)

/-- The last fragment is there: the message is taken out of the state before the client gets
    it. -/
def finishContinuousFrame : ChannelState :=
  let continuousFrameData := s.continuousFrameData
  let s := { s with continuousFrameData := [], hasContinuousFrame := false }
  if s.continuousFrameOpCode = .text then s.deliverText continuousFrameData
  else if s.continuousFrameOpCode = .binary then
    s.emit (.didReceiveBinaryData continuousFrameData)
  else s

variable (frameEnd : Nat)

def appendContinuousFrame (s : ChannelState) :
    ChannelState :=
  { s with continuousFrameData := s.continuousFrameData ++ frame.payload }.skipBuffer frameEnd

def processContinuationFrame (s : ChannelState) :
    ChannelState :=
  if ¬ s.hasContinuousFrame then s.fail "Received unexpected continuation frame."
  else
    let s := s.appendContinuousFrame frame frameEnd
    if frame.final then s.finishContinuousFrame else s

def startContinuousFrame (frame : WebSocketFrame) (frameEnd : Nat)
    (s : ChannelState) : ChannelState :=
  { s with
      hasContinuousFrame := true
      continuousFrameOpCode := opCode }.appendContinuousFrame frame frameEnd

def processTextFrame (s : ChannelState) :
    ChannelState :=
  if frame.final then (s.skipBuffer frameEnd).deliverText frame.payload
  else s.startContinuousFrame .text frame frameEnd

def processBinaryFrame (s : ChannelState) :
    ChannelState :=
  if frame.final then (s.skipBuffer frameEnd).emit (.didReceiveBinaryData frame.payload)
  else s.startContinuousFrame .binary frame frameEnd

/-- The close code of a close frame's payload; a text says why the frame is broken. -/
def closeFrameCode : List UInt8 → Except String Nat
  | [] => .ok closeEventCodeNoStatusRcvd
  | [_] => .error "Received a broken close frame containing an invalid size body."
  | highByte :: lowByte :: _ =>
    let code := highByte.toNat * 256 + lowByte.toNat
    if code = closeEventCodeNoStatusRcvd ∨ code = closeEventCodeAbnormalClosure ∨
        code = closeEventCodeTLSHandshake then
      .error "Received a broken close frame containing a reserved status code."
    else .ok code

def closeFrameReason (payload : List UInt8) : Option (List UInt16) :=
  if payload.length ≥ 3 then fromUTF8 (payload.drop 2) else some []

def receiveCloseFrame (code : Nat) (reason : Option (List UInt16)) (frameEnd : Nat)
    (s : ChannelState) : ChannelState :=
  { s with
      closeEventCode := code
      closeEventReason := reason
      buffer := s.buffer.drop frameEnd
      receivedClosingHandshake := true }

/-- Once both sides have sent their close frame, the queue is to be emptied and the socket
    closed. -/
def finishClosingHandshake : ChannelState :=
  if s.closing then
    { s with outgoingFrameQueueStatus := .closing }.processOutgoingFrameQueue env
  else s

def processCloseFrame (s : ChannelState) :
    ChannelState :=
  match closeFrameCode frame.payload with
  | .error reason => { s with closeEventCode := closeEventCodeAbnormalClosure }.fail reason
  | .ok code =>
    let reason := closeFrameReason frame.payload
    ((s.receiveCloseFrame code reason frameEnd).startClosingHandshake env code
      (env.utf8 .lenientConversion (reason.getD []))).finishClosingHandshake env

def processPingFrame (s : ChannelState) :
    ChannelState :=
  ((s.enqueueRawFrame .pong frame.payload).skipBuffer frameEnd).processOutgoingFrameQueue env

/-- The `switch` of `processFrame`. -/
def handleFrame (s : ChannelState) : ChannelState :=
  match frame.opCode with
  | .continuation => s.processContinuationFrame frame frameEnd
  | .text => s.processTextFrame frame frameEnd
  | .binary => s.processBinaryFrame frame frameEnd
  | .close => s.processCloseFrame env frame frameEnd
  | .ping => s.processPingFrame env frame frameEnd
  | .pong => s.skipBuffer frameEnd
  | .reserved _ => s.skipBuffer frameEnd

/-- The result says whether there is more to process: a failure empties the buffer, so the
    `return false` after it is the last line as well. -/
def processFrame : ChannelState × Bool :=
  match parseFrame s.buffer with
  | .frameIncomplete => (s, false)
  | .frameError errorString => (s.fail errorString, false)
  | .frameOK frame frameEnd =>
    match s.frameFailure frame with
    | some reason => (s.fail reason, false)
    | none =>
      let s := s.handleFrame env frame frameEnd
      (s, !s.buffer.isEmpty)

def processBuffer : ChannelState × Bool :=
  if s.shouldDiscardReceivedData then (s, false)
  else if s.receivedClosingHandshake then (s.skipBuffer s.buffer.length, false)
  else s.processFrame env

end ChannelState

end WebV8
