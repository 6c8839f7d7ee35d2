import WebV8.IPC.ConnectionFraming

/-! # A connection between two processes

One process sends messages, the other runs `readyReadHandler`: a `recvmsg` of as many bytes as the kernel likes,
then `processMessage` until it finds no whole message. Sending goes on in between. The connection is in order
when the messages delivered are the first ones sent, and the two buffers hold what has been read of the others.
-/

namespace WebV8.IPC

open Lib List Connection

/-- What `readyReadHandler` is at. -/
inductive Status where
  | receiving
  | processing
  /-- `connectionDidClose` was called. -/
  | closed
  /-- A buffer was overrun. -/
  | undefined
deriving DecidableEq

/-- Both ends of a connection, with the messages that were sent and delivered over it. -/
structure Link where
  sent : List OutgoingMessage
  wire : Stream
  connection : Connection
  delivered : List IncomingMessage
  status : Status

inductive Event where
  | send (message : OutgoingMessage)
  /-- The kernel has `count` bytes for a `recvmsg`, if it asks for so many. -/
  | receive (count : Nat)
  | process

variable (s : Link)

namespace Link

def start : Link := ⟨[], [], .platformInitialize, [], .receiving⟩

/-- How many bytes a `recvmsg` returns. -/
def received (count : Nat) : Nat := min count (messageMaxSize - s.connection.readBuffer.length)

def receive (count : Nat) : Link :=
  -- without anything to read, the handler returns
  if s.status ≠ .receiving ∨ s.wire = [] ∨ count = 0 then s
  else if s.received count = 0 then { s with status := .closed }
  else
    match s.connection.append (s.wire.take (s.received count)) with
    | none => { s with status := .undefined }
    | some connection =>
      { s with connection, wire := s.wire.drop (s.received count), status := .processing }

def process : Link :=
  if s.status ≠ .processing then s
  else
    match s.connection.processMessage with
    | none => { s with status := .undefined }
    | some none => { s with status := .receiving }
    | some (some (message, connection)) => { s with connection, delivered := s.delivered ++ [message] }

def step : Event → Option Link
  | .send message =>
    match sendOutgoingMessage message with
    | none => some s
    | some packet => some { s with sent := s.sent ++ [message], wire := s.wire ++ packet.stream }
  | .receive count => some (s.receive count)
  | .process => some s.process

end Link

/-! ## Order -/

structure Connection.Holds (c : Connection) (read : Stream) : Prop where
  bytes : c.readBuffer = read.map Prod.fst
  size : c.fileDescriptorsSize = (read.flatMap Prod.snd).length
  fileDescriptors : c.fileDescriptors.take c.fileDescriptorsSize = (read.flatMap Prod.snd).map some
  places : c.fileDescriptors.length = attachmentMaxAmount

namespace Link

def pending : List OutgoingMessage := s.sent.drop s.delivered.length

def toStream (messages : List OutgoingMessage) : Stream := messages.flatMap fun m => m.packet.stream

/-- The messages delivered are the first ones sent, with their bodies and attachments. The buffers hold what has
    been read of the stream of the others, and, when the handler goes on to receive, no whole message. -/
structure Framed (s : Link) : Prop where
  delivered : s.delivered = (s.sent.take s.delivered.length).map OutgoingMessage.arrives
  running : s.status = .receiving ∨ s.status = .processing
  buffers : ∃ read, toStream s.pending = read ++ s.wire ∧ s.connection.Holds read ∧
    (s.status = .receiving → ∀ m ∈ s.pending.head?, read.length < m.packet.bytes.length)

/-- The read buffer is not full, and has room for the descriptors; and when a message with descriptors is taken
    out, there are no others behind them. -/
def Orderly : Event → Prop
  | .send _ => True
  | .receive count =>
    s.status = .receiving → s.wire ≠ [] → count ≠ 0 →
      s.connection.readBuffer.length < messageMaxSize ∧
        s.connection.fileDescriptorsSize + ((s.wire.take (s.received count)).flatMap Prod.snd).length ≤
          attachmentMaxAmount
  | .process =>
    s.status = .processing → ∀ m ∈ s.pending.head?, m.packet.bytes.length ≤ s.connection.readBuffer.length →
      m.packet.fileDescriptors ≠ [] → s.connection.fileDescriptorsSize = m.packet.fileDescriptors.length

end Link

/-! ## Streams -/

theorem Packet.map_fst_stream (p : Packet) : p.stream.map Prod.fst = p.bytes := by
  rw [Packet.stream]
  split
  · rename_i h
    rw [h]
    rfl
  · rename_i byte rest h
    rw [h, map_cons, map_map]
    congr 1
    exact map_id'' (fun _ => rfl) rest

theorem Packet.length_stream (p : Packet) : p.stream.length = p.bytes.length := by
  rw [← p.map_fst_stream, length_map]

theorem Packet.flatMap_snd_stream {p : Packet} (h : 0 < p.bytes.length) :
    p.stream.flatMap Prod.snd = p.fileDescriptors := by
  rw [Packet.stream]
  split
  · rename_i hnil
    rw [hnil] at h
    exact absurd h (Nat.lt_irrefl 0)
  · rename_i byte rest _
    have hrest : (rest.map fun byte => (byte, ([] : List Descriptor))).flatMap Prod.snd = [] := by
      simp [flatMap_eq_nil_iff]
    rw [flatMap_cons, hrest, append_nil]

theorem read_unique {stream read read' wire : Stream} (h : stream = read ++ wire) (h' : stream = read' ++ wire) :
    read = read' :=
  append_cancel_right (h.symm.trans h')

/-! ## Steps -/

theorem Connection.Holds.append {c : Connection} {read chunk : Stream} (h : c.Holds read)
    (hroom : c.fileDescriptorsSize + (chunk.flatMap Prod.snd).length ≤ attachmentMaxAmount) :
    ∃ c', c.append chunk = some c' ∧ c'.Holds (read ++ chunk) := by
  have hall : (chunk.flatMap Prod.snd).take attachmentMaxAmount = chunk.flatMap Prod.snd :=
    take_of_length_le (by omega)
  have hpla := h.places
  refine ⟨_, by rw [Connection.append, hall, if_neg (by omega)], ?_, ?_, ?_, ?_⟩
  · rw [map_append, h.bytes]
  · rw [flatMap_append, length_append, h.size]
  · have hlen : (c.fileDescriptors.take c.fileDescriptorsSize ++ (chunk.flatMap Prod.snd).map some).length =
        c.fileDescriptorsSize + (chunk.flatMap Prod.snd).length := by
      rw [length_append, length_take, length_map]
      omega
    rw [← append_assoc, take_left' hlen, h.fileDescriptors, flatMap_append, map_append]
  · simp only [length_append, length_take, length_map, length_drop]
    omega

variable {c c' : Connection}

theorem Connection.shiftFileDescriptors_size {count : Nat}
    (h : c.shiftFileDescriptors count = some c') : c'.fileDescriptorsSize + count * 4 = c.fileDescriptorsSize := by
  rw [shiftFileDescriptors] at h
  split at h
  · cases h
  · rename_i hle
    obtain rfl := Option.some.inj h
    exact Nat.sub_add_cancel (not_lt.mp hle)

theorem Connection.append_size_le {chunk : Stream} (h : c.append chunk = some c') :
    c'.fileDescriptorsSize ≤ c.fileDescriptors.length := by
  rw [Connection.append] at h
  split at h
  · cases h
  · rename_i hfit
    obtain rfl := Option.some.inj h
    exact not_lt.mp hfit

namespace Link

variable {s : Link}

theorem Framed.length_delivered_le (h : s.Framed) : s.delivered.length ≤ s.sent.length := by
  have hlen := congrArg List.length h.delivered
  rw [length_map, length_take] at hlen
  omega

theorem Framed.send (h : s.Framed) (m : OutgoingMessage) :
    ({ s with sent := s.sent ++ [m], wire := s.wire ++ m.packet.stream } : Link).Framed := by
  have hle := h.length_delivered_le
  obtain ⟨read, hstr, hhol, hwait⟩ := h.buffers
  have hpen : ({ s with sent := s.sent ++ [m], wire := s.wire ++ m.packet.stream } : Link).pending =
      s.pending ++ [m] := drop_append_of_le_length hle
  refine ⟨?_, h.running, read, ?_, hhol, fun hstt m' hm' => ?_⟩
  · exact h.delivered.trans (congrArg _ (take_append_of_le_length hle).symm)
  · rw [hpen, toStream, flatMap_append, ← toStream, hstr, append_assoc]
    simp
  · rw [hpen] at hm'
    cases hp : s.pending with
    | nil =>
      have hread : read = [] := by
        rw [hp] at hstr
        exact (append_eq_nil_iff.mp hstr.symm).1
      rw [hread]
      exact m'.length_packet_pos
    | cons m₀ rest =>
      rw [hp] at hm' hwait
      exact hwait hstt m' hm'

/-- **A `recvmsg`** keeps the connection in order exactly if there is room. -/
theorem receive_iff (h : s.Framed) (count : Nat) : (s.receive count).Framed ↔ s.Orderly (.receive count) := by
  by_cases hidle : s.status ≠ .receiving ∨ s.wire = [] ∨ count = 0
  · rw [receive, if_pos hidle]
    refine iff_of_true h fun hstt hwire hcnt => ?_
    rcases hidle with hi | hi | hi
    · exact absurd hstt hi
    · exact absurd hi hwire
    · exact absurd hi hcnt
  obtain ⟨hstt, hwire, hcnt⟩ : s.status = .receiving ∧ s.wire ≠ [] ∧ count ≠ 0 := by
    simpa [not_or] using hidle
  obtain ⟨read, hstr, hhol, -⟩ := h.buffers
  rw [receive, if_neg hidle]
  by_cases hfull : s.received count = 0
  · rw [if_pos hfull]
    refine iff_of_false ?_ fun hord => ?_
    · rintro ⟨-, hrun | hrun, -⟩ <;> cases hrun
    · have hroom := (hord hstt hwire hcnt).1
      rw [received] at hfull
      omega
  have hroom : s.connection.readBuffer.length < messageMaxSize := by
    rw [received] at hfull
    omega
  rw [if_neg hfull]
  have hspl : toStream s.pending =
      (read ++ s.wire.take (s.received count)) ++ s.wire.drop (s.received count) := by
    rw [append_assoc, take_append_drop, hstr]
  by_cases hfit : s.connection.fileDescriptorsSize +
      ((s.wire.take (s.received count)).flatMap Prod.snd).length ≤ attachmentMaxAmount
  · obtain ⟨c', happ, hhol'⟩ := hhol.append hfit
    rw [happ]
    refine iff_of_true ⟨h.delivered, Or.inr rfl, _, hspl, hhol', nofun⟩ fun _ _ _ => ⟨hroom, hfit⟩
  · refine iff_of_false ?_ fun hord => hfit (hord hstt hwire hcnt).2
    split
    · rintro ⟨-, hrun | hrun, -⟩ <;> cases hrun
    · rename_i c' happ
      -- the control buffer cut off some of the descriptors
      rintro ⟨-, -, read', hstr', hhol', -⟩
      obtain rfl := read_unique hspl hstr'
      have hsize : c'.fileDescriptorsSize = _ := hhol'.size
      have hle := append_size_le happ
      rw [flatMap_append, length_append, ← hhol.size] at hsize
      rw [hhol.places] at hle
      omega

variable {read : Stream} {m : OutgoingMessage} {rest : List OutgoingMessage}

/-- A message that is not all there leaves the connection in order, and the handler receives more. -/
theorem Framed.wait (h : s.Framed) (hstr : toStream s.pending = read ++ s.wire)
    (hhol : s.connection.Holds read) (hsho : ∀ m ∈ s.pending.head?, read.length < m.packet.bytes.length) :
    ({ s with status := .receiving } : Link).Framed :=
  ⟨h.delivered, Or.inl rfl, read, hstr, hhol, fun _ => hsho⟩

theorem pending_deliver (hpen : s.pending = m :: rest) (c' : Connection) (message : IncomingMessage) :
    ({ s with connection := c', delivered := s.delivered ++ [message] } : Link).pending = rest := by
  rw [pending, length_append, length_singleton, ← tail_drop, ← pending, hpen]
  rfl

theorem Framed.deliver (h : s.Framed) (hpen : s.pending = m :: rest) (hstr : toStream rest = read ++ s.wire)
    {c' : Connection} (hhol : c'.Holds read) (hstt : s.status = .processing) :
    ({ s with connection := c', delivered := s.delivered ++ [m.arrives] } : Link).Framed := by
  have hget : s.sent[s.delivered.length]? = some m := by
    rw [← List.head?_drop, ← pending, hpen]
    rfl
  refine ⟨?_, Or.inr hstt, read, ?_, hhol, fun hr => ?_⟩
  · rw [length_append, length_singleton, take_add_one, hget, map_append, ← h.delivered]
    rfl
  · rw [pending_deliver hpen, hstr]
  · rw [hstt] at hr
    cases hr

/-- When the whole packet is there, all is in order but for the descriptors behind those of the message. -/
theorem Framed.process_whole (h : s.Framed) (hstt : s.status = .processing)
    (hm : m.Accepted) (hpen : s.pending = m :: rest) {more : Stream}
    (hread : read = m.packet.stream ++ more) (hmore : toStream rest = more ++ s.wire)
    (hhol : s.connection.Holds read) :
    s.process.Framed ↔ (m.packet.fileDescriptors ≠ [] → more.flatMap Prod.snd = []) := by
  have hfds : read.flatMap Prod.snd = m.packet.fileDescriptors ++ more.flatMap Prod.snd := by
    rw [hread, flatMap_append, Packet.flatMap_snd_stream m.length_packet_pos]
  have hbs : s.connection.readBuffer = m.packet.bytes ++ more.map Prod.fst := by
    rw [hhol.bytes, hread, map_append, m.packet.map_fst_stream]
  have hpla : s.connection.fileDescriptors = m.packet.fileDescriptors.map some ++
      ((more.flatMap Prod.snd).map some ++ s.connection.fileDescriptors.drop s.connection.fileDescriptorsSize) := by
    rw [← append_assoc, ← map_append, ← hfds, ← hhol.fileDescriptors, take_append_drop]
  have hsize : s.connection.fileDescriptorsSize =
      m.packet.fileDescriptors.length + (more.flatMap Prod.snd).length := by
    rw [hhol.size, hfds, length_append]
  rw [process, if_neg (not_not.mpr hstt), processMessage_packet hm hbs hpla,
    consumeFileDescriptors]
  by_cases hnone : m.packet.fileDescriptors = []
  · rw [if_neg (by simp [hnone])]
    refine iff_of_true (h.deliver hpen hmore ⟨rfl, ?_, ?_, hhol.places⟩ hstt) fun hne => absurd hnone hne
    · rw [hnone, length_nil, Nat.zero_add] at hsize
      exact hsize
    · rw [hnone, nil_append] at hfds
      exact hhol.fileDescriptors.trans (by rw [hfds])
  have hpos := length_pos_of_ne_nil hnone
  rw [if_pos hpos.ne']
  by_cases hlast : more.flatMap Prod.snd = []
  · rw [hlast, length_nil, Nat.add_zero] at hsize
    rw [if_neg (by simp only; omega)]
    refine iff_of_true (h.deliver hpen hmore ⟨rfl, ?_, ?_, hhol.places⟩ hstt) fun _ => hlast
    · rw [hlast]
      rfl
    · rw [hlast]
      rfl
  · -- the number of places is wrong, if the code gets that far
    have hmorPo := length_pos_of_ne_nil hlast
    rw [if_pos (by simp only; omega)]
    refine iff_of_false ?_ fun hall => hlast (hall hnone)
    cases hshi : shiftFileDescriptors { s.connection with readBuffer := more.map Prod.fst }
        m.packet.fileDescriptors.length with
    | none => rintro ⟨-, hrun | hrun, -⟩ <;> cases hrun
    | some c' =>
      show ¬({ s with connection := c', delivered := s.delivered ++ [m.arrives] } : Link).Framed
      rintro ⟨-, -, read', hstr', hhol', -⟩
      rw [pending_deliver hpen] at hstr'
      obtain rfl := read_unique hmore hstr'
      have hsize' : c'.fileDescriptorsSize = (more.flatMap Prod.snd).length := hhol'.size
      have hwro := shiftFileDescriptors_size hshi
      change c'.fileDescriptorsSize + m.packet.fileDescriptors.length * 4 = s.connection.fileDescriptorsSize at hwro
      omega

/-- **One `processMessage`** keeps the connection in order exactly if no other descriptors are behind those of the
    message. -/
theorem process_iff (h : s.Framed) (hacc : ∀ m ∈ s.sent, m.Accepted) : s.process.Framed ↔ s.Orderly .process := by
  by_cases hidle : s.status ≠ .processing
  · rw [process, if_pos hidle]
    exact iff_of_true h fun hstt => absurd hstt hidle
  have hstt : s.status = .processing := Classical.not_not.mp hidle
  obtain ⟨read, hstr, hhol, -⟩ := h.buffers
  cases hpen : s.pending with
  | nil =>
    have hread : read = [] := by
      rw [hpen] at hstr
      exact (append_eq_nil_iff.mp hstr.symm).1
    rw [process, if_neg hidle, processMessage_empty (by rw [hhol.bytes, hread]; rfl)]
    refine iff_of_true (h.wait hstr hhol ?_) fun _ => ?_
    · rw [hpen]
      nofun
    · rw [hpen]
      nofun
  | cons m rest =>
    have hm : m.Accepted := hacc m (mem_of_mem_drop (hpen ▸ mem_cons_self))
    have hlen : s.connection.readBuffer.length = read.length := by rw [hhol.bytes, length_map]
    have hcons : m.packet.stream ++ toStream rest = read ++ s.wire := by
      rw [← hstr, hpen]
      rfl
    by_cases hwho : m.packet.bytes.length ≤ read.length
    · obtain ⟨more, hread, hmore⟩ : ∃ more, read = m.packet.stream ++ more ∧ toStream rest = more ++ s.wire := by
        rw [← m.packet.length_stream] at hwho
        obtain ⟨more, hmore⟩ := prefix_of_prefix_length_le ⟨_, hcons⟩ ⟨_, rfl⟩ hwho
        refine ⟨more, hmore.symm, ?_⟩
        rw [← hmore, append_assoc] at hcons
        exact append_cancel_left hcons
      have hsize : s.connection.fileDescriptorsSize =
          m.packet.fileDescriptors.length + (more.flatMap Prod.snd).length := by
        rw [hhol.size, hread, flatMap_append, length_append,
          Packet.flatMap_snd_stream m.length_packet_pos]
      rw [h.process_whole hstt hm hpen hread hmore hhol]
      constructor
      · intro hlast _ m' hm' _ hne
        obtain rfl : m = m' := by simpa [hpen] using hm'
        rw [hsize, hlast hne]
        rfl
      · intro hord hne
        have hall := hord hstt m (by rw [hpen]; rfl) (hlen ▸ hwho) hne
        exact eq_nil_of_length_eq_zero (by omega)
    · obtain ⟨behind, hbs⟩ : ∃ behind, m.packet.stream = read ++ behind := by
        rw [← m.packet.length_stream] at hwho
        obtain ⟨behind, hbeh⟩ := prefix_of_prefix_length_le ⟨_, rfl⟩ ⟨_, hcons⟩ (not_le.mp hwho).le
        exact ⟨behind, hbeh.symm⟩
      have hwait : s.connection.processMessage = some none := by
        have hmap : m.packet.bytes = s.connection.readBuffer ++ behind.map Prod.fst := by
          rw [hhol.bytes, ← map_append, ← hbs, m.packet.map_fst_stream]
        refine processMessage_wait hm hmap fun hnil => hwho ?_
        rw [hmap, hnil, append_nil, hlen]
      rw [process, if_neg hidle, hwait]
      refine iff_of_true (h.wait hstr hhol fun m' hm' => ?_) fun _ m' hm' hle => ?_
      · obtain rfl : m = m' := by simpa [hpen] using hm'
        exact not_le.mp hwho
      · obtain rfl : m = m' := by simpa [hpen] using hm'
        exact absurd (hlen ▸ hle) hwho

/-! ## Runs -/

def Sending (s : Link) : Prop := ∀ m ∈ s.sent, m.Accepted

theorem framed_start : start.Framed where
  delivered := rfl
  running := Or.inl rfl
  buffers := ⟨[], rfl, ⟨rfl, rfl, rfl, length_replicate⟩, fun _ => nofun⟩

theorem step_iff (hacc : s.Sending) (h : s.Framed) (e : Event) :
    ∃ s', s.step e = some s' ∧ s'.Sending ∧ (s'.Framed ↔ s.Orderly e) := by
  cases e with
  | send m =>
    rw [step, sendOutgoingMessage]
    split_ifs with hmany
    · exact ⟨s, rfl, hacc, iff_of_true h trivial⟩
    · refine ⟨_, rfl, fun m' hm' => ?_, iff_of_true (h.send m) trivial⟩
      rcases mem_append.mp hm' with hold | hnew
      · exact hacc m' hold
      · rw [mem_singleton.mp hnew]
        exact not_lt.mp hmany
  | receive count =>
    refine ⟨_, rfl, ?_, receive_iff h count⟩
    have hsent : (s.receive count).sent = s.sent := by
      rw [receive]
      split_ifs
      · rfl
      · rfl
      · split <;> rfl
    rwa [Sending, hsent]
  | process =>
    refine ⟨_, rfl, ?_, process_iff h hacc⟩
    have hsent : s.process.sent = s.sent := by
      rw [process]
      split_ifs
      · rfl
      · split <;> rfl
    rwa [Sending, hsent]

theorem Framed.complete (h : s.Framed) (hwire : s.wire = []) (hstt : s.status = .receiving) :
    s.delivered = s.sent.map OutgoingMessage.arrives := by
  obtain ⟨read, hstr, -, hsho⟩ := h.buffers
  cases hpen : s.pending with
  | nil =>
    have hall : s.sent.length ≤ s.delivered.length := drop_eq_nil_iff.mp hpen
    rw [h.delivered, take_of_length_le hall]
  | cons m rest =>
    rw [hwire, append_nil, hpen, toStream, flatMap_cons] at hstr
    have hlt := hsho hstt m (by rw [hpen]; rfl)
    rw [← hstr, length_append, m.packet.length_stream] at hlt
    omega

/-- **Messages over a connection**: in every run of one process that sends and another that receives, however the
    stream is cut, the messages are delivered in order with their bodies and attachments, with nothing else used
    up of the buffers, exactly if every step is orderly; and then, when everything has been read, all the
    messages have been delivered. -/
theorem delivered_iff_orderly (events : List Event) :
    (Along step Framed start events ↔ EachStep step Orderly start events) ∧
    (∀ s, Along step Framed start events → run step start events = some s → s.wire = [] →
      s.status = .receiving → s.delivered = s.sent.map OutgoingMessage.arrives) := by
  constructor
  · exact along_iff_eachStep (fun s e haccepted h _ => step_iff haccepted h e) events nofun
      framed_start (eachStep_of_forall (fun _ _ => trivial) _ _)
  · intro s halong hrun hwire hstatus
    exact (halong.last hrun).complete hwire hstatus

/-- A message without a body, with sockets for attachments. -/
def socketsMessage (count : Nat) : OutgoingMessage where
  body := []
  attachments := (List.range count).map fun i => .socket (some (.file i))
  bodySize := by decide
  initialized := by simp

theorem Framed.size_eq (h : s.Framed) (hwire : s.wire = []) :
    s.connection.fileDescriptorsSize = ((toStream s.pending).flatMap Prod.snd).length := by
  obtain ⟨read, hstr, hhol, -⟩ := h.buffers
  rw [hstr, hwire, append_nil, hhol.size]

/-- Two messages are read at once, with one socket and with four; after the first, one descriptor is left. -/
theorem descriptors_lost :
    (run step start [.send (socketsMessage 1), .send (socketsMessage 4), .receive 4096, .process]).map
        (fun s => (s.delivered.length, s.wire.length, s.connection.fileDescriptorsSize,
          ((toStream s.pending).flatMap Prod.snd).length)) = some (1, 0, 1, 4) ∧ ¬Along step Framed start
        [.send (socketsMessage 1), .send (socketsMessage 4), .receive 4096, .process] := by
  have hrun : (run step start [.send (socketsMessage 1), .send (socketsMessage 4), .receive 4096, .process]).map
      (fun s => (s.delivered.length, s.wire.length, s.connection.fileDescriptorsSize,
        ((toStream s.pending).flatMap Prod.snd).length)) = some (1, 0, 1, 4) := by
    decide +kernel
  refine ⟨hrun, fun halong => ?_⟩
  obtain ⟨s, hs, heq⟩ := Option.map_eq_some_iff.mp hrun
  simp only [Prod.mk.injEq] at heq
  obtain ⟨-, hwire, hsize, hfds⟩ := heq
  have hall := (halong.last hs).size_eq (eq_nil_of_length_eq_zero hwire)
  omega

end Link

end WebV8.IPC
