import WebV8.IPC.Connection
import WebV8.Lib.Run

/-! # Messages over a stream

The socket is a stream that a `recvmsg` may cut anywhere. A message of the sender is one packet in the stream;
here the receiver gets it back: `processMessage` on the bytes of a packet, whatever follows, gives the message,
and on the beginning of one it waits. The descriptors behind those of the message are where it goes wrong.
-/

namespace WebV8.IPC

open Lib List Option OutgoingMessage AttachmentInfo Connection Attachment

/-! ## Headers -/

theorem MessageInfo.length_bytes (m : MessageInfo) : m.bytes.length = MessageInfo.sizeof := by
  simp [MessageInfo.bytes, MessageInfo.sizeof]

theorem AttachmentInfo.length_bytes (a : AttachmentInfo) : a.bytes.length = AttachmentInfo.sizeof := by
  simp [AttachmentInfo.bytes, AttachmentInfo.sizeof]

theorem take_leBytes_append (n x : Nat) (rest : List UInt8) : (leBytes n x ++ rest).take n = leBytes n x := by
  rw [take_append_of_le_length (by simp), take_of_length_le (by simp)]

theorem drop_leBytes_append (n x : Nat) (rest : List UInt8) : (leBytes n x ++ rest).drop n = rest := by
  rw [drop_append_of_le_length (by simp), drop_of_length_le (by simp), nil_append]

theorem getD_toNat_bytes (flag : Bool) (rest : List UInt8) :
    decide ((leBytes 8 flag.toNat ++ rest).getD 0 0 ≠ 0) = flag := by
  cases flag <;> simp [leBytes]

theorem MessageInfo.ofBytes_append (m : MessageInfo) (hbody : m.bodySize < 2 ^ 64)
    (hcnt : m.attachmentCount < 2 ^ 64) (rest : List UInt8) : MessageInfo.ofBytes (m.bytes ++ rest) = m := by
  have hfst : (m.bytes ++ rest).take 8 = leBytes 8 m.bodySize := by
    rw [MessageInfo.bytes, append_assoc, take_leBytes_append]
  have hdrop : (m.bytes ++ rest).drop 8 =
      leBytes 8 m.attachmentCount ++ (leBytes 8 m.isMessageBodyOutOfLine.toNat ++ rest) := by
    rw [MessageInfo.bytes, append_assoc, drop_leBytes_append, append_assoc]
  have hflag : (m.bytes ++ rest).getD 16 0 = (leBytes 8 m.isMessageBodyOutOfLine.toNat ++ rest).getD 0 0 := by
    have hspl : m.bytes ++ rest = (leBytes 8 m.bodySize ++ leBytes 8 m.attachmentCount) ++
        (leBytes 8 m.isMessageBodyOutOfLine.toNat ++ rest) := by
      simp [MessageInfo.bytes]
    rw [hspl, getD_append_right _ _ _ _ (by simp)]
    simp
  have h256 : 256 ^ 8 = 2 ^ 64 := by decide
  rw [MessageInfo.ofBytes, hfst, hdrop, take_leBytes_append, hflag, ofLeBytes_leBytes, ofLeBytes_leBytes, h256,
    Nat.mod_eq_of_lt hbody, Nat.mod_eq_of_lt hcnt, getD_toNat_bytes]

theorem Attachment.Kind.ofValue_value (k : Attachment.Kind) : Kind.ofValue (k.value % 256 ^ 4) = k := by
  cases k <;> rfl

theorem AttachmentInfo.ofBytes_bytes (a : AttachmentInfo) : AttachmentInfo.ofBytes a.bytes = a := by
  have hfst : a.bytes.take 4 = leBytes 4 a.type.value := by
    rw [AttachmentInfo.bytes, append_assoc, take_leBytes_append]
  have hdrop : a.bytes.drop 8 = leBytes 8 a.size.toNat ++ leBytes 8 a.isNull.toNat := by
    rw [AttachmentInfo.bytes, drop_append_of_le_length (by simp), drop_of_length_le (by simp),
      nil_append]
  have hflag : a.bytes.getD 16 0 = (leBytes 8 a.isNull.toNat ++ []).getD 0 0 := by
    have hspl : a.bytes = ((leBytes 4 a.type.value ++ leBytes 4 0) ++ leBytes 8 a.size.toNat) ++
        leBytes 8 a.isNull.toNat := by
      rw [AttachmentInfo.bytes, append_assoc _ (leBytes 8 _)]
    rw [hspl, getD_append_right _ _ _ _ (by simp), append_nil]
    simp
  have hsize : a.size.toNat < 256 ^ 8 := a.size.toNat_lt
  rw [AttachmentInfo.ofBytes, hfst, hdrop, take_leBytes_append, hflag, ofLeBytes_leBytes, ofLeBytes_leBytes,
    Attachment.Kind.ofValue_value, Nat.mod_eq_of_lt hsize, getD_toNat_bytes, UInt64.ofNat_toNat]

/-! ## Attachments -/

theorem hasFileDescriptor_ofAttachment {a : Attachment} (ha : a ≠ .uninitialized) :
    (ofAttachment a).hasFileDescriptor = a.fileDescriptor.isSome := by
  cases a with
  | uninitialized => exact absurd rfl ha
  | socket fd | mappedMemory fd size => cases fd <;> rfl

variable {attachments : List Attachment} {more : List (Option Descriptor)} {rest : List UInt8}

theorem countP_hasFileDescriptor (h : ∀ a ∈ attachments, a ≠ .uninitialized) :
    (attachments.map ofAttachment).countP hasFileDescriptor =
      (attachments.filterMap fileDescriptor).length := by
  induction attachments with
  | nil => rfl
  | cons a rest ih =>
    obtain ⟨ha, hrest⟩ := forall_mem_cons.mp h
    rw [map_cons, countP_cons, ih hrest, hasFileDescriptor_ofAttachment ha, filterMap_cons]
    cases a.fileDescriptor with
    | none => rfl
    | some fd => rfl

/-- **The attachments are made again** from their infos and the descriptors from an index on. -/
theorem adopt_ofAttachment (h : ∀ a ∈ attachments, a ≠ .uninitialized)
    {fileDescriptors : List (Option Descriptor)} {fdIndex : Nat}
    (hfds : fileDescriptors.drop fdIndex = (attachments.filterMap fileDescriptor).map some ++ more) :
    adopt fileDescriptors fdIndex (attachments.map ofAttachment) = some attachments := by
  induction attachments generalizing fdIndex with
  | nil => rfl
  | cons a rest ih =>
    obtain ⟨ha, hrest⟩ := forall_mem_cons.mp h
    rw [map_cons, adopt, hasFileDescriptor_ofAttachment ha]
    cases hfd : a.fileDescriptor with
    | none =>
      rw [filterMap_cons_none hfd] at hfds
      rw [isSome_none, if_neg Bool.false_ne_true, ih hrest hfds]
      cases a with
      | uninitialized => exact absurd rfl ha
      | socket fd | mappedMemory fd size =>
        obtain rfl : fd = none := hfd
        rfl
    | some d =>
      rw [filterMap_cons_some hfd, map_cons, cons_append] at hfds
      have hget : fileDescriptors[fdIndex]? = some (some d) := by
        rw [← List.head?_drop, hfds]
        rfl
      have hdrop : fileDescriptors.drop (fdIndex + 1) =
          (rest.filterMap fileDescriptor).map some ++ more := by
        rw [← tail_drop, hfds]
        rfl
      rw [isSome_some, if_pos rfl, hget, ih hrest hdrop]
      cases a with
      | uninitialized => exact absurd rfl ha
      | socket fd | mappedMemory fd size =>
        obtain rfl : fd = some d := hfd
        rfl

/-! ## Packets -/

/-- The message as the receiver is to get it; its attachments are removed from the end. -/
def OutgoingMessage.arrives (m : OutgoingMessage) : IncomingMessage := ⟨m.body, m.attachments.reverse⟩

/-- `sendOutgoingMessage` takes the message. -/
def OutgoingMessage.Accepted (m : OutgoingMessage) : Prop := m.attachments.length ≤ attachmentMaxAmount - 1

namespace OutgoingMessage

variable {m : OutgoingMessage}

section

variable (m : OutgoingMessage)

theorem allAttachments_initialized : ∀ a ∈ m.allAttachments, a ≠ .uninitialized := by
  rw [allAttachments]
  split
  · intro a ha
    rcases mem_append.mp ha with h | h
    · exact m.initialized a h
    · rw [mem_singleton.mp h]
      nofun
  · exact m.initialized

theorem info_bodySize : m.info.bodySize = m.body.length := by
  rw [info]
  split <;> rfl

theorem info_isMessageBodyOutOfLine : m.info.isMessageBodyOutOfLine = m.isOutOfLine := by
  rw [info]
  cases m.isOutOfLine <;> rfl

theorem info_attachmentCount : m.info.attachmentCount = m.allAttachments.length := by
  rw [info, allAttachments]
  split
  · rw [length_append, length_singleton]
    rfl
  · rfl

end

theorem length_allAttachments_le (h : m.Accepted) : m.allAttachments.length ≤ attachmentMaxAmount := by
  rw [Accepted, attachmentMaxAmount] at h
  rw [allAttachments, attachmentMaxAmount]
  split
  · rw [length_append, length_singleton]
    omega
  · omega

section

variable (m : OutgoingMessage)

theorem fileDescriptors_eq :
    ∃ hidden, m.packet.fileDescriptors = m.attachments.filterMap fileDescriptor ++ hidden := by
  simp only [packet, allAttachments]
  split
  · exact ⟨_, filterMap_append⟩
  · exact ⟨[], (append_nil _).symm⟩

theorem length_infos :
    (m.allAttachments.flatMap fun a => (ofAttachment a).bytes).length =
      m.allAttachments.length * AttachmentInfo.sizeof :=
  length_flatMap_const (fun _ => AttachmentInfo.length_bytes _) _

theorem length_packet : m.packet.bytes.length =
    MessageInfo.sizeof + m.allAttachments.length * AttachmentInfo.sizeof +
      if m.isOutOfLine then 0 else m.body.length := by
  simp only [packet, length_append, MessageInfo.length_bytes, length_infos]
  split <;> simp [Nat.add_assoc]

theorem length_packet_pos : 0 < m.packet.bytes.length := by
  rw [length_packet, MessageInfo.sizeof]
  omega

end

theorem ofBytes_info (h : m.Accepted) (rest : List UInt8) : MessageInfo.ofBytes (m.info.bytes ++ rest) = m.info := by
  apply MessageInfo.ofBytes_append
  · rw [info_bodySize]
    exact m.bodySize
  · have hle := length_allAttachments_le h
    rw [attachmentMaxAmount] at hle
    rw [info_attachmentCount]
    omega

theorem messageLength_eq (m : OutgoingMessage) :
    (MessageInfo.sizeof + m.info.attachmentCount * AttachmentInfo.sizeof +
      if m.info.isMessageBodyOutOfLine then 0 else m.info.bodySize) = m.packet.bytes.length := by
  rw [info_attachmentCount, info_isMessageBodyOutOfLine, info_bodySize, length_packet]

end OutgoingMessage

/-! ## processMessage -/

variable {c : Connection} {m : OutgoingMessage}

theorem processMessage_wait (h : m.Accepted) (hbs : m.packet.bytes = c.readBuffer ++ rest)
    (hrest : rest ≠ []) : c.processMessage = some none := by
  rw [processMessage]
  by_cases hsho : c.readBuffer.length < MessageInfo.sizeof
  · rw [if_pos hsho]
  · have hhead : c.readBuffer = m.info.bytes ++ c.readBuffer.drop MessageInfo.sizeof := by
      have htake : m.packet.bytes.take MessageInfo.sizeof = m.info.bytes := by
        rw [packet, take_append_of_le_length (MessageInfo.length_bytes _).ge,
          take_of_length_le (MessageInfo.length_bytes _).le]
      rw [hbs, take_append_of_le_length (not_lt.mp hsho)] at htake
      rw [← htake, take_append_drop]
    have hinfo : MessageInfo.ofBytes c.readBuffer = m.info := by
      rw [hhead]
      exact ofBytes_info h _
    have hlen : c.readBuffer.length < m.packet.bytes.length := by
      have hpos := length_pos_of_ne_nil hrest
      rw [hbs, length_append]
      omega
    rw [if_neg hsho, hinfo]
    simp only [messageLength_eq]
    rw [if_pos hlen]

theorem processMessage_empty (h : c.readBuffer = []) : c.processMessage = some none := by
  rw [processMessage, h]
  rfl

theorem messageBody_packet (hbs : c.readBuffer = m.packet.bytes ++ rest)
    (hfds : c.fileDescriptors = m.packet.fileDescriptors.map some ++ more) :
    c.messageBody m.info (m.allAttachments.map ofAttachment) m.packet.fileDescriptors.length =
      some (some m.body) := by
  rw [messageBody, info_isMessageBodyOutOfLine, info_bodySize]
  by_cases hool : m.isOutOfLine = true
  · have hall : m.allAttachments =
        m.attachments ++ [.mappedMemory (some (.memory m.body)) (UInt64.ofNat m.body.length)] := by
      rw [allAttachments, if_pos hool]
    have hlast : c.fileDescriptors[m.packet.fileDescriptors.length - 1]? = some (some (.memory m.body)) := by
      have hspl : m.packet.fileDescriptors =
          m.attachments.filterMap fileDescriptor ++ [.memory m.body] := by
        simp only [packet, hall, filterMap_append]
        rfl
      rw [hfds, hspl]
      simp
    rw [if_pos hool, hlast, hall]
    simp [ofAttachment, fileDescriptor, mapMemory]
  · have hdrop : c.readBuffer.drop (MessageInfo.sizeof + m.allAttachments.length * AttachmentInfo.sizeof) =
        m.body ++ rest := by
      rw [hbs, packet, if_neg hool, ← append_assoc, append_assoc _ m.body]
      exact drop_left' (by rw [length_append, MessageInfo.length_bytes, length_infos])
    rw [if_neg hool, length_map, hdrop]
    exact congrArg (fun body => some (some body)) (take_left' rfl)

/-- **A packet is taken as the message it was made of**, with what follows left in the buffer; the descriptors
    that follow are left to `consumeFileDescriptors`. -/
theorem processMessage_packet (h : m.Accepted)
    (hbs : c.readBuffer = m.packet.bytes ++ rest)
    (hfds : c.fileDescriptors = m.packet.fileDescriptors.map some ++ more) :
    c.processMessage = ({ c with readBuffer := rest }.consumeFileDescriptors m.packet.fileDescriptors.length).map
        fun c' => some (m.arrives, c') := by
  have hlen : c.readBuffer.length = m.packet.bytes.length + rest.length := by rw [hbs, length_append]
  have hinfo : MessageInfo.ofBytes c.readBuffer = m.info := by
    rw [hbs, packet, append_assoc]
    exact ofBytes_info h _
  have hsho : ¬c.readBuffer.length < MessageInfo.sizeof := by
    rw [hlen, length_packet]
    omega
  have hwho : ¬c.readBuffer.length < m.packet.bytes.length := by omega
  have hinf : (records AttachmentInfo.sizeof m.info.attachmentCount
      (c.readBuffer.drop MessageInfo.sizeof)).map AttachmentInfo.ofBytes =
        m.allAttachments.map ofAttachment := by
    have hdrop : c.readBuffer.drop MessageInfo.sizeof =
        (m.allAttachments.flatMap fun a => (ofAttachment a).bytes) ++
          ((if m.isOutOfLine then [] else m.body) ++ rest) := by
      rw [hbs, packet, append_assoc, append_assoc]
      exact drop_left' (MessageInfo.length_bytes _)
    rw [hdrop, info_attachmentCount,
      records_flatMap_append (fun _ => AttachmentInfo.length_bytes _), List.map_map]
    exact map_congr_left fun a _ => AttachmentInfo.ofBytes_bytes _
  have htake : (m.allAttachments.map ofAttachment).take
      (if m.info.isMessageBodyOutOfLine then (m.allAttachments.map ofAttachment).length - 1
        else (m.allAttachments.map ofAttachment).length) =
      m.attachments.map ofAttachment := by
    rw [info_isMessageBodyOutOfLine, allAttachments]
    by_cases hool : m.isOutOfLine = true
    · rw [if_pos hool, if_pos hool]
      simp
    · rw [if_neg hool, if_neg hool, take_length]
  have hado : adopt c.fileDescriptors 0 (m.attachments.map ofAttachment) =
      some m.attachments := by
    obtain ⟨hidden, hhid⟩ := fileDescriptors_eq m
    have hdrop : c.fileDescriptors.drop 0 =
        (m.attachments.filterMap fileDescriptor).map some ++ (hidden.map some ++ more) := by
      rw [hfds, hhid, map_append, append_assoc, drop_zero]
    exact adopt_ofAttachment m.initialized hdrop
  have hcnt : (m.allAttachments.map ofAttachment).countP hasFileDescriptor =
      m.packet.fileDescriptors.length := countP_hasFileDescriptor m.allAttachments_initialized
  rw [processMessage, if_neg hsho, hinfo]
  simp only [messageLength_eq, hinf]
  rw [if_neg hwho, htake, hado, hcnt]
  rw [messageBody_packet hbs hfds, hbs, drop_left' rfl, map_eq_bind]
  rfl

end WebV8.IPC
