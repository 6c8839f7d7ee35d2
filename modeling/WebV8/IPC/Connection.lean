import WebV8.Lib.Words

/-! # Connection over a unix domain socket

A message goes out as one packet: a `MessageInfo`, an `AttachmentInfo` for each attachment, and the body, unless
that would be too long, when the body goes in shared memory whose descriptor is one more attachment. The
descriptors travel beside the bytes. The receiver keeps the bytes it has read and the descriptors that came with
them in two buffers, and takes a message out of both when it has all its bytes.

The layout is that of a 64-bit machine.
-/

namespace WebV8.IPC

open Lib

def messageMaxSize : Nat := 4096

def attachmentMaxAmount : Nat := 255

/-- What a file descriptor refers to: something of the sender's, or shared memory that holds a message body. -/
inductive Descriptor where
  | file (id : Nat)
  | memory (contents : List UInt8)
deriving DecidableEq

namespace Attachment

inductive Kind where
  | Uninitialized
  | SocketType
  | MappedMemoryType
deriving DecidableEq

def Kind.value : Kind → Nat
  | .Uninitialized => 0
  | .SocketType => 1
  | .MappedMemoryType => 2

/-- A type that is none of those known is treated as `Uninitialized`. -/
def Kind.ofValue (value : Nat) : Kind :=
  if value = 1 then .SocketType else if value = 2 then .MappedMemoryType else .Uninitialized

end Attachment

/-- The descriptor is missing (-1 in the code) in a null attachment. -/
inductive Attachment where
  | uninitialized
  | socket (fileDescriptor : Option Descriptor)
  | mappedMemory (fileDescriptor : Option Descriptor) (size : UInt64)
deriving DecidableEq

namespace Attachment

def type : Attachment → Kind
  | uninitialized => .Uninitialized
  | socket _ => .SocketType
  | mappedMemory _ _ => .MappedMemoryType

def fileDescriptor : Attachment → Option Descriptor
  | uninitialized => none
  | socket fd => fd
  | mappedMemory fd _ => fd

def size : Attachment → UInt64
  | mappedMemory _ size => size
  | _ => 0

end Attachment

/-! ## Headers -/

structure MessageInfo where
  bodySize : Nat
  attachmentCount : Nat
  isMessageBodyOutOfLine : Bool

namespace MessageInfo

def sizeof : Nat := 24

def setMessageBodyIsOutOfLine (m : MessageInfo) : MessageInfo :=
  { m with isMessageBodyOutOfLine := true, attachmentCount := m.attachmentCount + 1 }

def bytes (m : MessageInfo) : List UInt8 :=
  leBytes 8 m.bodySize ++ (leBytes 8 m.attachmentCount ++ leBytes 8 m.isMessageBodyOutOfLine.toNat)

def ofBytes (bytes : List UInt8) : MessageInfo where
  bodySize := ofLeBytes (bytes.take 8)
  attachmentCount := ofLeBytes ((bytes.drop 8).take 8)
  isMessageBodyOutOfLine := bytes.getD 16 0 ≠ 0

end MessageInfo

structure AttachmentInfo where
  type : Attachment.Kind
  size : UInt64
  isNull : Bool

namespace AttachmentInfo

def sizeof : Nat := 24

/-- The object in memory; the type and the flag are padded to words. -/
def bytes (a : AttachmentInfo) : List UInt8 :=
  (leBytes 4 a.type.value ++ leBytes 4 0) ++ (leBytes 8 a.size.toNat ++ leBytes 8 a.isNull.toNat)

def ofBytes (bytes : List UInt8) : AttachmentInfo where
  type := .ofValue (ofLeBytes (bytes.take 4))
  size := UInt64.ofNat (ofLeBytes ((bytes.drop 8).take 8))
  isNull := bytes.getD 16 0 ≠ 0

/-- The info that `sendOutgoingMessage` fills in. -/
def ofAttachment (a : Attachment) : AttachmentInfo where
  type := a.type
  size := a.size
  isNull := a.type ≠ .Uninitialized && a.fileDescriptor.isNone

def hasFileDescriptor (a : AttachmentInfo) : Bool :=
  match a.type with
  | .MappedMemoryType | .SocketType => !a.isNull
  | .Uninitialized => false

end AttachmentInfo

/-! ## Sending -/

/-- A message to be sent: the buffer of a `MessageEncoder`, and its attachments, each of which has a type. -/
structure OutgoingMessage where
  body : List UInt8
  attachments : List Attachment
  bodySize : body.length < 2 ^ 64
  initialized : ∀ a ∈ attachments, a ≠ .uninitialized

/-- The bytes of one `sendmsg`, and the descriptors with them. -/
structure Packet where
  bytes : List UInt8
  fileDescriptors : List Descriptor

variable (m : OutgoingMessage)

def messageSizeWithBodyInline : Nat :=
  MessageInfo.sizeof + m.attachments.length * AttachmentInfo.sizeof + m.body.length

def OutgoingMessage.isOutOfLine : Bool :=
  messageSizeWithBodyInline m > messageMaxSize && m.body.length ≠ 0

def OutgoingMessage.allAttachments : List Attachment :=
  if m.isOutOfLine then
    m.attachments ++ [.mappedMemory (some (.memory m.body)) (UInt64.ofNat m.body.length)]
  else m.attachments

def OutgoingMessage.info : MessageInfo :=
  let messageInfo : MessageInfo := ⟨m.body.length, m.attachments.length, false⟩
  if m.isOutOfLine then messageInfo.setMessageBodyIsOutOfLine else messageInfo

def OutgoingMessage.packet : Packet where
  bytes :=
    m.info.bytes ++
      ((m.allAttachments.flatMap fun a => (AttachmentInfo.ofAttachment a).bytes) ++
        if m.isOutOfLine then [] else m.body)
  fileDescriptors := m.allAttachments.filterMap Attachment.fileDescriptor

/-- The packet that is handed to the socket, unless there are too many attachments. -/
def sendOutgoingMessage : Option Packet :=
  if m.attachments.length > attachmentMaxAmount - 1 then none else some m.packet

/-- The stream between the processes: the descriptors of a message come with its first byte. -/
abbrev Stream := List (UInt8 × List Descriptor)

def Packet.stream (p : Packet) : Stream :=
  match p.bytes with
  | [] => []
  | byte :: rest => (byte, p.fileDescriptors) :: rest.map fun byte => (byte, [])

/-! ## Receiving -/

/-- The first `fileDescriptorsSize` places of `fileDescriptors` are in use. A place is `none` where it holds no
    descriptor. -/
structure Connection where
  readBuffer : List UInt8
  fileDescriptors : List (Option Descriptor)
  fileDescriptorsSize : Nat

def Connection.platformInitialize : Connection :=
  ⟨[], List.replicate attachmentMaxAmount none, 0⟩

/-- What is handed to `processIncomingMessage`. The attachments are to be removed from the end. -/
structure IncomingMessage where
  body : List UInt8
  attachments : List Attachment
deriving DecidableEq

variable (c : Connection)

namespace Connection

/-- The loop that makes attachments of the infos: `fdIndex` is the place of the next descriptor. -/
def adopt (fileDescriptors : List (Option Descriptor)) : Nat → List AttachmentInfo → Option (List Attachment)
  | _, [] => some []
  | fdIndex, info :: rest =>
    if info.hasFileDescriptor then do
      let fd ← fileDescriptors[fdIndex]?.join
      let attachments ← adopt fileDescriptors (fdIndex + 1) rest
      match info.type with
      | .MappedMemoryType => return .mappedMemory (some fd) info.size :: attachments
      | _ => return .socket (some fd) :: attachments
    else do
      let attachments ← adopt fileDescriptors fdIndex rest
      match info.type with
      | .MappedMemoryType => return .mappedMemory none info.size :: attachments
      | .SocketType => return .socket none :: attachments
      | .Uninitialized => return .uninitialized :: attachments

/-- `memmove` of the descriptors behind those of the message. The number of bytes of the latter is taken for an
    index on one side and subtracted from a number of places on the other; where that is negative, the size to
    be moved wraps around. A place that gets some bytes of another holds no descriptor. -/
def shiftFileDescriptors (attachmentFileDescriptorCount : Nat) : Option Connection :=
  let fileDescriptorsLength := attachmentFileDescriptorCount * 4
  if c.fileDescriptorsSize < fileDescriptorsLength then none
  else
    let moved := c.fileDescriptorsSize - fileDescriptorsLength
    some { c with
      fileDescriptors :=
        (c.fileDescriptors.drop fileDescriptorsLength).take (moved / 4) ++
          ((if moved % 4 = 0 then [] else [none]) ++ c.fileDescriptors.drop ((moved + 3) / 4))
      fileDescriptorsSize := c.fileDescriptorsSize - fileDescriptorsLength }

def consumeFileDescriptors (attachmentFileDescriptorCount : Nat) : Option Connection :=
  if attachmentFileDescriptorCount ≠ 0 then
    if c.fileDescriptorsSize > attachmentFileDescriptorCount then
      c.shiftFileDescriptors attachmentFileDescriptorCount
    else some { c with fileDescriptorsSize := 0 }
  else some c

/-- The contents of the shared memory that a descriptor refers to. -/
def mapMemory : Descriptor → Option (List UInt8)
  | .memory contents => some contents
  | .file _ => none

/-- The body, if the shared memory it may be in can be mapped; `none` outside is a read of no descriptor. -/
def messageBody (messageInfo : MessageInfo) (attachmentInfo : List AttachmentInfo)
    (attachmentFileDescriptorCount : Nat) : Option (Option (List UInt8)) :=
  if messageInfo.isMessageBodyOutOfLine then do
    let info ← attachmentInfo.getLast?
    if info.isNull then return none
    else
      let fd ← c.fileDescriptors[attachmentFileDescriptorCount - 1]?.join
      return (mapMemory fd).map (·.take messageInfo.bodySize)
  else
    let messageData := c.readBuffer.drop (MessageInfo.sizeof + attachmentInfo.length * AttachmentInfo.sizeof)
    return some (messageData.take messageInfo.bodySize)

/-- `some none` is the answer false, that there is no whole message; `none` is undefined behaviour. -/
def processMessage : Option (Option (IncomingMessage × Connection)) :=
  if c.readBuffer.length < MessageInfo.sizeof then some none
  else
    let messageInfo := MessageInfo.ofBytes c.readBuffer
    let messageLength := MessageInfo.sizeof + messageInfo.attachmentCount * AttachmentInfo.sizeof +
      if messageInfo.isMessageBodyOutOfLine then 0 else messageInfo.bodySize
    if c.readBuffer.length < messageLength then some none
    else do
      let attachmentInfo := (records AttachmentInfo.sizeof messageInfo.attachmentCount
        (c.readBuffer.drop MessageInfo.sizeof)).map AttachmentInfo.ofBytes
      let attachmentFileDescriptorCount := attachmentInfo.countP AttachmentInfo.hasFileDescriptor
      let attachmentCount :=
        if messageInfo.isMessageBodyOutOfLine then attachmentInfo.length - 1 else attachmentInfo.length
      let attachments ← adopt c.fileDescriptors 0 (attachmentInfo.take attachmentCount)
      match ← c.messageBody messageInfo attachmentInfo attachmentFileDescriptorCount with
      | none => return none
      | some body =>
        let c' ← { c with readBuffer := c.readBuffer.drop messageLength }.consumeFileDescriptors
          attachmentFileDescriptorCount
        return some (⟨body, attachments.reverse⟩, c')

/-- The bytes and the descriptors of one `recvmsg` are put behind those there are. No more descriptors are
    received at once than the control buffer has room for, but nothing looks whether the vector has it:
    `none` is a write behind its end. -/
def append (chunk : Stream) : Option Connection :=
  let received := (chunk.flatMap Prod.snd).take attachmentMaxAmount
  if c.fileDescriptorsSize + received.length > c.fileDescriptors.length then none
  else some {
    readBuffer := c.readBuffer ++ chunk.map Prod.fst
    fileDescriptors :=
      c.fileDescriptors.take c.fileDescriptorsSize ++
        (received.map some ++ c.fileDescriptors.drop (c.fileDescriptorsSize + received.length))
    fileDescriptorsSize := c.fileDescriptorsSize + received.length }

end Connection

end WebV8.IPC
