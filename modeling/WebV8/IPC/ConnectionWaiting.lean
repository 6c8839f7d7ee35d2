import WebV8.Lib.Run

/-!
# `Connection::waitForMessage`

Two threads share `m_incomingMessages` and `m_waitingForMessage`, each guarded by a lock of its own.
The connection queue brings messages in; the client thread dispatches them or waits for one. What
a thread does while it holds a lock is one step here, and a run is any interleaving of such steps.

`processIncomingMessage` is modelled from its test of the waiting slot on, since the branches
before are for sync replies, work-queue receivers and messages that a sync wait takes.

Three things go wrong between the locks. A message that is tested before the slot is published is
queued, and the wait blocks although it is there. A second message for the slot replaces the first.
A wait that has ended clears the slot without looking into it. A run without these loses nothing.
-/

namespace WebV8.IPC

open Lib List Option Multiset

/-- What a `MessageDecoder` is asked for. -/
structure MessageDecoder where
  messageReceiverName : String
  messageName : String
  destinationID : Nat
  isSyncMessage : Bool
  deriving DecidableEq, Repr

structure WaitForMessageState where
  messageReceiverName : String
  messageName : String
  destinationID : Nat
  /-- `waitForMessageFlags & InterruptWaitingIfSyncMessageArrives`. -/
  interruptWaitingIfSyncMessageArrives : Bool
  messageWaitingInterrupted : Bool
  decoder : Option MessageDecoder
  deriving DecidableEq, Repr

variable (w : WaitForMessageState) (message : MessageDecoder)

def WaitForMessageState.isFor : Bool :=
  message.messageReceiverName = w.messageReceiverName && message.messageName = w.messageName &&
    message.destinationID = w.destinationID

/-- Where the client thread is in `waitForMessage`. -/
inductive ClientThread where
  | idle
  /-- The queue has been searched. -/
  | searched (w : WaitForMessageState)
  /-- At the top of the loop. -/
  | looping
  /-- In `wait_for`. -/
  | blocked
  /-- The loop is left, its lock is released. -/
  | leaving
  deriving DecidableEq, Repr

structure WaitingConnection where
  incomingMessages : List MessageDecoder
  waitingForMessage : Option WaitForMessageState
  client : ClientThread
  /-- The message on its way to `enqueueIncomingMessage`. -/
  connectionQueue : Option MessageDecoder
  received : Multiset MessageDecoder
  returned : Multiset MessageDecoder
  dispatched : Multiset MessageDecoder

inductive WaitingStep where
  /-- `processIncomingMessage`, up to where it releases its lock. -/
  | processIncomingMessage (message : MessageDecoder)
  | enqueueIncomingMessage
  /-- `waitForMessage`, the search of the queue. -/
  | waitForMessage (w : WaitForMessageState)
  | publish
  | testDecoder
  /-- `wait_for` returns; it may time out, or return for no reason, at any moment. -/
  | wake (timeout : Bool)
  | retire
  | dispatchOneMessage
  deriving DecidableEq, Repr

variable (s : WaitingConnection)

namespace WaitingConnection

def init : WaitingConnection := ⟨[], none, .idle, none, 0, 0, 0⟩

/-- The slot after a message has been tested against it; `none` when it did not take the message. -/
def offer : Option WaitForMessageState :=
  if w.isFor message then some { w with decoder := some message } else none

def interrupt : WaitForMessageState :=
  if w.interruptWaitingIfSyncMessageArrives && message.isSyncMessage then
    { w with messageWaitingInterrupted := true }
  else w

/-- `none` when the thread is not where the step begins. -/
def step : WaitingStep → Option WaitingConnection
  | .processIncomingMessage message =>
    if s.connectionQueue = none then
      let s := { s with received := message ::ₘ s.received }
      match s.waitingForMessage.bind (offer · message) with
      | some w => some { s with waitingForMessage := some w }
      | none => some { s with
          waitingForMessage := s.waitingForMessage.map (interrupt · message)
          connectionQueue := some message }
    else none
  | .enqueueIncomingMessage =>
    s.connectionQueue.map fun message =>
      { s with incomingMessages := s.incomingMessages ++ [message], connectionQueue := none }
  | .waitForMessage w =>
    if s.client = .idle then
      match s.incomingMessages.find? w.isFor with
      | some message => some { s with
          incomingMessages := s.incomingMessages.eraseP w.isFor
          returned := message ::ₘ s.returned }
      | none => some { s with
          client := .searched { w with messageWaitingInterrupted := false, decoder := none } }
    else none
  | .publish =>
    match s.client with
    | .searched w => some { s with waitingForMessage := some w, client := .looping }
    | _ => none
  | .testDecoder =>
    match s.client, s.waitingForMessage with
    | .looping, some w =>
      match w.decoder with
      | some message => some { s with
          waitingForMessage := none
          client := .idle
          returned := message ::ₘ s.returned }
      | none => some { s with client := .blocked }
    | _, _ => none
  | .wake timeout =>
    match s.client, s.waitingForMessage with
    | .blocked, some w =>
      some { s with client := if timeout || w.messageWaitingInterrupted then .leaving else .looping }
    | _, _ => none
  | .retire => if s.client = .leaving then some { s with waitingForMessage := none, client := .idle } else none
  | .dispatchOneMessage =>
    if s.client = .idle then
      match s.incomingMessages with
      | [] => some s
      | message :: rest => some { s with
          incomingMessages := rest
          dispatched := message ::ₘ s.dispatched }
    else none

/-! ## What is claimed of every state -/

def inSlot : Option MessageDecoder := s.waitingForMessage.bind (·.decoder)

def place : Option MessageDecoder → Multiset MessageDecoder
  | none => 0
  | some message => {message}

/-- Every message that has been received is in one place. -/
def NoneLost : Prop :=
  s.received =
    s.returned + s.dispatched + s.incomingMessages + place s.connectionQueue + place s.inSlot

/-- A wait that blocks without a message has none in the queue. -/
def NoneMissed : Prop :=
  s.client = .blocked → ∀ w, s.waitingForMessage = some w → w.decoder = none →
    ∀ message ∈ s.incomingMessages, w.isFor message = false

def Kept : Prop := s.NoneLost ∧ s.NoneMissed

/-- The slot is published exactly while the client thread is in the loop, or leaves it. -/
def Published : Prop :=
  match s.client with
  | .idle => s.waitingForMessage = none
  | .searched w => s.waitingForMessage = none ∧ w.decoder = none
  | _ => s.waitingForMessage.isSome

def Orderly : WaitingStep → Prop
  | .processIncomingMessage message =>
    ∀ w, s.waitingForMessage = some w → w.isFor message = true → w.decoder = none
  | .enqueueIncomingMessage => ∀ w message, s.client = .blocked → s.waitingForMessage = some w →
    w.decoder = none → s.connectionQueue = some message → w.isFor message = false
  | .testDecoder => ∀ w, s.waitingForMessage = some w → w.decoder = none →
    ∀ message ∈ s.incomingMessages, w.isFor message = false
  | .retire => s.inSlot = none
  | _ => True

def Enabled (o : WaitingStep) : Prop := (s.step o).isSome

variable {s s' : WaitingConnection} {message : MessageDecoder}

theorem coe_eq_of_find? {l : List MessageDecoder} {p : MessageDecoder → Bool} (h : l.find? p = some message) :
    (l : Multiset MessageDecoder) = message ::ₘ (l.eraseP p : Multiset MessageDecoder) := by
  obtain ⟨hp, before, after, rfl, hno⟩ := List.find?_eq_some_iff_append.mp h
  rw [eraseP_append_right _ (by simpa using hno), eraseP_cons_of_pos hp]
  simp

/-! ## Steps -/

variable (h : s.Published)
include h

section

variable (hkept : s.Kept) {o : WaitingStep}
include hkept

theorem process_spec (hs : s.step (.processIncomingMessage message) = some s') :
    s'.Published ∧ (s'.Kept ↔ s.Orderly (.processIncomingMessage message)) := by
  obtain ⟨incoming, slot, client, queue, received, returned, dispatched⟩ := s
  obtain ⟨hlost, hmis⟩ := hkept
  simp only [step, ite_none_right_eq_some] at hs
  obtain ⟨rfl, hs⟩ := hs
  cases slot with
  | none =>
    simp only [bind_none, map_none, Option.some.injEq] at hs
    subst hs
    refine ⟨h, iff_of_true ⟨?_, hmis⟩ (by simp [Orderly])⟩
    simp only [NoneLost, inSlot, place, ← singleton_add] at hlost ⊢
    rw [hlost]
    abel
  | some w =>
    cases hfor : w.isFor message with
    | false =>
      have hfor' : ∀ message', (interrupt w message).isFor message' = w.isFor message' := by
        intro message'
        unfold interrupt
        split <;> rfl
      have hdec : (interrupt w message).decoder = w.decoder := by
        unfold interrupt
        split <;> rfl
      simp only [bind_some, offer, hfor, Bool.false_eq_true, if_false, map_some,
        Option.some.injEq] at hs
      subst hs
      refine ⟨?_, iff_of_true ⟨?_, ?_⟩ ?_⟩
      · cases client <;> simp [Published] at h ⊢
      · simp only [NoneLost, inSlot, bind_some, hdec, place, ← singleton_add] at hlost ⊢
        rw [hlost]
        abel
      · intro hc w' hw hnone message' hmem
        obtain rfl := Option.some.inj hw
        rw [hfor']
        exact hmis hc w rfl (hdec ▸ hnone) message' hmem
      · simp [Orderly, hfor]
    | true =>
      simp only [bind_some, offer, hfor, if_true, Option.some.injEq] at hs
      subst hs
      refine ⟨?_, ?_⟩
      · cases client <;> simp [Published] at h ⊢
      · refine (and_iff_left ?_).trans ?_
        · intro _ w' hw hnone
          obtain rfl := Option.some.inj hw
          exact absurd hnone (by simp)
        simp only [NoneLost, inSlot, bind_some, Orderly, Option.some.injEq, forall_eq', hfor,
          forall_const, place, ← singleton_add] at hlost ⊢
        rw [hlost]
        cases hd : w.decoder with
        | none =>
          refine iff_of_true ?_ rfl
          abel
        | some first =>
          refine iff_of_false (fun heq => ?_) (by simp)
          have := congrArg Multiset.card heq
          simp at this

theorem enqueue_spec (hs : s.step .enqueueIncomingMessage = some s') :
    s'.Published ∧ (s'.Kept ↔ s.Orderly .enqueueIncomingMessage) := by
  obtain ⟨incoming, slot, client, queue, received, returned, dispatched⟩ := s
  obtain ⟨hlost, hmis⟩ := hkept
  obtain ⟨message, rfl, rfl⟩ := map_eq_some_iff.mp hs
  refine ⟨h, ?_⟩
  have hkee : NoneLost ⟨incoming ++ [message], slot, client, none, received, returned, dispatched⟩ := by
    simp only [NoneLost, inSlot, place] at hlost ⊢
    rw [hlost, ← coe_add, coe_singleton]
    abel
  simp only [Kept, hkee, true_and, Orderly, NoneMissed, Option.some.injEq]
  constructor
  · intro hm w message' hc hw hnone hmsg
    subst hmsg
    exact hm hc w hw hnone message (by simp)
  · intro ho hc w hw hnone message' hmem
    rcases mem_append.mp hmem with hmem | hmem
    · exact hmis hc w hw hnone message' hmem
    · rw [List.mem_singleton.mp hmem]
      exact ho w message hc hw hnone rfl

theorem test_spec (hs : s.step .testDecoder = some s') :
    s'.Published ∧ (s'.Kept ↔ s.Orderly .testDecoder) := by
  obtain ⟨incoming, slot, client, queue, received, returned, dispatched⟩ := s
  obtain ⟨hlost, hmis⟩ := hkept
  cases client with
  | looping =>
    cases slot with
    | none => exact absurd h (by simp [Published])
    | some w =>
      cases hd : w.decoder with
      | none =>
        simp only [step, hd, Option.some.injEq] at hs
        subst hs
        refine ⟨by simp [Published], ?_⟩
        exact (and_iff_right hlost).trans (by simp [NoneMissed, Orderly])
      | some message =>
        simp only [step, hd, Option.some.injEq] at hs
        subst hs
        refine ⟨by simp [Published], iff_of_true ⟨?_, nofun⟩ ?_⟩
        · simp only [NoneLost, inSlot, bind_some, hd, bind_none, place, ← singleton_add] at hlost ⊢
          rw [hlost]
          abel
        · simp [Orderly, hd]
  | _ => simp [step] at hs

theorem retire_spec (hs : s.step .retire = some s') :
    s'.Published ∧ (s'.Kept ↔ s.Orderly .retire) := by
  obtain ⟨incoming, slot, client, queue, received, returned, dispatched⟩ := s
  obtain ⟨hlost, hmis⟩ := hkept
  simp only [step, ite_none_right_eq_some, Option.some.injEq] at hs
  obtain ⟨rfl, rfl⟩ := hs
  refine ⟨by simp [Published], ?_⟩
  refine (and_iff_left nofun).trans ?_
  simp only [NoneLost, Orderly, inSlot] at hlost ⊢
  rw [hlost]
  cases slot.bind (·.decoder) with
  | none => exact iff_of_true rfl rfl
  | some message =>
    refine iff_of_false (fun heq => ?_) (by simp)
    have := congrArg Multiset.card heq
    simp [place] at this

theorem keeps_spec
    (ho : o = .publish ∨ o = .dispatchOneMessage ∨ (∃ w, o = .waitForMessage w) ∨ ∃ timeout, o = .wake timeout)
    (hs : s.step o = some s') : s'.Published ∧ s'.Kept := by
  obtain ⟨incoming, slot, client, queue, received, returned, dispatched⟩ := s
  obtain ⟨hlost, hmis⟩ := hkept
  rcases ho with rfl | rfl | ⟨w, rfl⟩ | ⟨timeout, rfl⟩
  · cases client with
    | searched w =>
      simp only [step, Option.some.injEq] at hs
      subst hs
      refine ⟨by simp [Published], ?_, nofun⟩
      simp only [Published] at h
      simpa only [NoneLost, inSlot, h.1, bind_none, bind_some, h.2] using hlost
    | _ => simp [step] at hs
  · simp only [step, ite_none_right_eq_some] at hs
    obtain ⟨rfl, hs⟩ := hs
    cases incoming with
    | nil =>
      obtain rfl := Option.some.inj hs
      exact ⟨h, hlost, hmis⟩
    | cons message rest =>
      obtain rfl := Option.some.inj hs
      refine ⟨h, ?_, nofun⟩
      simp only [NoneLost, inSlot, ← cons_coe, ← singleton_add] at hlost ⊢
      rw [hlost]
      abel
  · simp only [step, ite_none_right_eq_some] at hs
    obtain ⟨rfl, hs⟩ := hs
    cases hfind : incoming.find? w.isFor with
    | none =>
      simp only [hfind, Option.some.injEq] at hs
      subst hs
      exact ⟨⟨h, rfl⟩, hlost, nofun⟩
    | some message =>
      simp only [hfind, Option.some.injEq] at hs
      subst hs
      refine ⟨h, ?_, nofun⟩
      simp only [NoneLost, inSlot, ← singleton_add] at hlost ⊢
      rw [hlost, coe_eq_of_find? hfind, ← singleton_add]
      abel
  · cases client with
    | blocked =>
      cases slot with
      | none => exact absurd h (by simp [Published])
      | some w =>
        simp only [step, Option.some.injEq] at hs
        subst hs
        refine ⟨?_, hlost, ?_⟩
        · split_ifs <;> simp [Published]
        · split_ifs <;> exact nofun
    | _ => simp [step] at hs

/-- **Step lemma**: a step keeps every message in one place, and in sight of who waits for it,
    exactly when it is orderly. -/
theorem step_spec (hen : s.Enabled o) :
    ∃ s', s.step o = some s' ∧ s'.Published ∧ (s'.Kept ↔ s.Orderly o) := by
  obtain ⟨s', hs⟩ := isSome_iff_exists.mp hen
  refine ⟨s', hs, ?_⟩
  have hkee := fun ho => (keeps_spec h hkept ho hs).imp_right fun hk => iff_of_true hk trivial
  cases o with
  | processIncomingMessage message => exact process_spec h hkept hs
  | enqueueIncomingMessage => exact enqueue_spec h hkept hs
  | testDecoder => exact test_spec h hkept hs
  | retire => exact retire_spec h hkept hs
  | waitForMessage w => exact hkee (Or.inr (Or.inr (Or.inl ⟨w, rfl⟩)))
  | publish => exact hkee (Or.inl rfl)
  | wake timeout => exact hkee (Or.inr (Or.inr (Or.inr ⟨timeout, rfl⟩)))
  | dispatchOneMessage => exact hkee (Or.inr (Or.inl rfl))

end

end WaitingConnection

open WaitingConnection

/-- **`waitForMessage` neither loses nor misses a message in exactly the interleavings whose steps
    are orderly.** -/
theorem waiting_kept_iff (os : List WaitingStep) (hen : EachStep step Enabled init os) :
    Along step Kept init os ↔ EachStep step Orderly init os :=
  along_iff_eachStep (fun _ _ hI hP hQ => step_spec hI hP hQ) os rfl ⟨rfl, nofun⟩ hen

/-- A message that one of the runs below is about, and a wait for it. -/
def paintMessage : MessageDecoder := ⟨"DrawingArea", "Update", 1, false⟩

def paintWait : WaitForMessageState := ⟨"DrawingArea", "Update", 1, false, false, none⟩

theorem waiting_kept_iff_blocked : Along step Kept init [.waitForMessage paintWait, .publish, .testDecoder] ↔
      EachStep step Orderly init [.waitForMessage paintWait, .publish, .testDecoder] := by
  apply waiting_kept_iff
  refine ⟨rfl, fun s hs => ?_⟩
  obtain rfl := Option.some.inj hs
  refine ⟨rfl, fun s hs => ?_⟩
  obtain rfl := Option.some.inj hs
  exact ⟨rfl, fun _ _ => trivial⟩

/-- A message that comes for a wait that has just timed out is in no place any more; one that is
    tested before the wait is published is queued, and the wait blocks. -/
theorem waiting_loses_and_misses :
    (∃ s, run step init [.waitForMessage paintWait, .publish, .testDecoder, .wake true,
        .processIncomingMessage paintMessage, .retire] = some s ∧ s.received = {paintMessage} ∧
      s.returned = 0 ∧ s.dispatched = 0 ∧ s.incomingMessages = [] ∧ s.connectionQueue = none ∧
      s.waitingForMessage = none) ∧
    ∃ s, run step init [.waitForMessage paintWait, .processIncomingMessage paintMessage, .publish,
        .enqueueIncomingMessage, .testDecoder] = some s ∧ s.client = .blocked ∧
      s.waitingForMessage = some paintWait ∧ s.incomingMessages = [paintMessage] := by
  refine ⟨⟨_, rfl, rfl, rfl, rfl, rfl, rfl, rfl⟩, _, rfl, rfl, rfl, rfl⟩

end WebV8.IPC
