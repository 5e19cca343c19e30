import Mathlib

/-!
# MPMC channels

* `MpmcChannel` — a channel of the runtime with its waiting tasks, over the queue of the
  channel library: first in, first out, with atomic sends and receives.
* Its operations, each what the code does inside one critical section, with the status it
  returns.
* `ChanStep` — what can happen to a channel, and that the operations do nothing else.
* `answers_alike` — one caller cannot tell it from the channel of a single thread.
-/

namespace Arth.Runtime

/-- A message. The code keeps its value only; the number tells apart two sends of the same
value, in the order in which they took effect on the channel. -/
structure Message where
  id : Nat
  value : Int64
  deriving DecidableEq

/-- A channel; capacity 0 is unbounded. The code keeps no history: `sent` are the messages
whose send returned 0 or parked them, `received` those that a receive took, and `handed`
those that `pop_waiting_sender` gave to its caller. -/
structure MpmcChannel where
  queue : List Message
  capacity : Nat
  closed : Bool
  waitingSenders : List (UInt64 × Message)
  waitingReceivers : List UInt64
  sent : List Message
  received : List Message
  handed : List Message
  deriving DecidableEq

namespace MpmcChannel

/-- `__arth_mpmc_chan_create`: a capacity that is not positive makes it unbounded. -/
def create (capacity : Int64) : MpmcChannel where
  queue := []
  capacity := capacity.toInt.toNat
  closed := false
  waitingSenders := []
  waitingReceivers := []
  sent := []
  received := []
  handed := []

variable (ch : MpmcChannel)

def isFull : Bool := ch.capacity ≠ 0 ∧ ch.capacity ≤ ch.queue.length

/-- `try_send` of the channel library. -/
def trySend (m : Message) : Option MpmcChannel :=
  if ch.isFull then none else some { ch with queue := ch.queue ++ [m] }

/-- `try_recv` of the channel library. -/
def tryRecv : Option (Message × MpmcChannel) :=
  match ch.queue with
  | [] => none
  | m :: queue => some (m, { ch with queue, received := ch.received ++ [m] })

/-- The message of the next send. -/
def next (value : Int64) : Message := ⟨ch.sent.length, value⟩

def accepted (m : Message) : MpmcChannel := { ch with sent := ch.sent ++ [m] }

/-- `__arth_mpmc_chan_send`: 0 success, 1 full, 2 closed. -/
def send (value : Int64) : MpmcChannel × Int64 :=
  if ch.closed then (ch, 2)
  else
    match ch.trySend (ch.next value) with
    | some ch' => (ch'.accepted (ch.next value), 0)
    | none => (ch, 1)

/-- `__arth_mpmc_chan_send_with_task`: on a full channel the sender waits, and its value
with it. -/
def sendWithTask (value : Int64) (taskId : UInt64) : MpmcChannel × Int64 :=
  if ch.closed then (ch, 2)
  else
    match ch.trySend (ch.next value) with
    | some ch' => (ch'.accepted (ch.next value), 0)
    | none =>
      ({ ch with waitingSenders := ch.waitingSenders ++ [(taskId, ch.next value)] }.accepted
        (ch.next value), 1)

/-- `__arth_mpmc_chan_recv`: the value, or -2 empty, -3 closed and empty. -/
def recv : MpmcChannel × Int64 :=
  match ch.tryRecv with
  | some (m, ch') => (ch', m.value)
  | none => (ch, if ch.closed then -3 else -2)

def addWaitingReceiver (taskId : UInt64) : MpmcChannel :=
  { ch with waitingReceivers := ch.waitingReceivers ++ [taskId] }

/-- `__arth_mpmc_chan_recv_with_task`: on an empty open channel the receiver waits. -/
def recvWithTask (taskId : UInt64) : MpmcChannel × Int64 :=
  match ch.tryRecv with
  | some (m, ch') => (ch', m.value)
  | none => if ch.closed then (ch, -3) else (ch.addWaitingReceiver taskId, -2)

/-- `__arth_mpmc_chan_close`. -/
def close : MpmcChannel := { ch with closed := true }

/-- `pop_waiting_sender`, oldest first. -/
def popWaitingSender : Option ((UInt64 × Message) × MpmcChannel) :=
  match ch.waitingSenders with
  | [] => none
  | w :: waitingSenders => some (w, { ch with waitingSenders })

/-- `pop_waiting_receiver`, oldest first. -/
def popWaitingReceiver : Option (UInt64 × MpmcChannel) :=
  match ch.waitingReceivers with
  | [] => none
  | t :: waitingReceivers => some (t, { ch with waitingReceivers })

/-- The second critical section of `__arth_mpmc_chan_recv_and_wake`: the value of the oldest
waiting sender is sent, and what comes of it is ignored. -/
def wakeSender : MpmcChannel × Option UInt64 :=
  match ch.popWaitingSender with
  | some ((taskId, m), ch') => ((ch'.trySend m).getD ch', some taskId)
  | none => (ch, none)

/-- `__arth_mpmc_chan_pop_waiting_sender`: the value goes to the caller. -/
def handSender : MpmcChannel × Option (UInt64 × Message) :=
  match ch.popWaitingSender with
  | some (w, ch') => ({ ch' with handed := ch'.handed ++ [w.2] }, some w)
  | none => (ch, none)

/-- `retain(|&id| id != task_id)` on the waiting receivers. -/
def removeWaitingReceiver (taskId : UInt64) : MpmcChannel :=
  { ch with waitingReceivers := ch.waitingReceivers.filter (· ≠ taskId) }

/-- The value that a receive would get. -/
def first : Option Int64 := ch.queue.head?.map (·.value)

end MpmcChannel

/-- A channel of the single-threaded runtime; capacity 0 is unbounded. -/
structure Channel where
  cap : Nat
  q : List Int64
  closed : Bool
  deriving DecidableEq

namespace Channel

/-- `__arth_chan_create`. -/
def create (cap : Int64) : Channel := ⟨cap.toInt.toNat, [], false⟩

/-- `__arth_chan_send`: 0 success, 1 full, 2 closed. -/
def send (ch : Channel) (value : Int64) : Channel × Int64 :=
  if ch.closed then (ch, 2)
  else if ch.cap ≤ ch.q.length ∧ 0 < ch.cap then (ch, 1)
  else ({ ch with q := ch.q ++ [value] }, 0)

/-- `__arth_chan_recv`: the value, or -2 empty, -3 closed and empty. -/
def recv (ch : Channel) : Channel × Int64 :=
  match ch.q with
  | v :: q => ({ ch with q }, v)
  | [] => (ch, if ch.closed then -3 else -2)

/-- `__arth_chan_close`. -/
def close (ch : Channel) : Channel := { ch with closed := true }

end Channel

/-! ## What can happen to a channel -/

/-- What a critical section does to a channel. -/
inductive ChanAct where
  | accept (value : Int64)
  | park (taskId : UInt64) (value : Int64)
  | receive
  | move
  | lose
  | hand
  | close
  | receivers (waiting : List UInt64)

open MpmcChannel in
/-- `move` and `lose` are the two ends of a waking receive: the oldest parked value finds
room in the queue, or does not. -/
inductive ChanStep : ChanAct → MpmcChannel → MpmcChannel → Prop where
  | accept {ch} (value) (hroom : ch.isFull = false) :
    ChanStep (.accept value) ch
      { ch with queue := ch.queue ++ [ch.next value], sent := ch.sent ++ [ch.next value] }
  | park {ch} (taskId value) (hfull : ch.isFull = true) :
    ChanStep (.park taskId value) ch
      { ch with
        waitingSenders := ch.waitingSenders ++ [(taskId, ch.next value)]
        sent := ch.sent ++ [ch.next value] }
  | receive {ch m queue} (hqueue : ch.queue = m :: queue) :
    ChanStep .receive ch { ch with queue, received := ch.received ++ [m] }
  | move {ch w ws} (hwaiting : ch.waitingSenders = w :: ws) (hroom : ch.isFull = false) :
    ChanStep .move ch { ch with queue := ch.queue ++ [w.2], waitingSenders := ws }
  | lose {ch w ws} (hwaiting : ch.waitingSenders = w :: ws) (hfull : ch.isFull = true) :
    ChanStep .lose ch { ch with waitingSenders := ws }
  | hand {ch w ws} (hwaiting : ch.waitingSenders = w :: ws) :
    ChanStep .hand ch { ch with waitingSenders := ws, handed := ch.handed ++ [w.2] }
  | close {ch} : ChanStep .close ch ch.close
  | receivers {ch} (waiting) : ChanStep (.receivers waiting) ch { ch with waitingReceivers := waiting }

namespace MpmcChannel

variable {ch : MpmcChannel}

theorem chanStep_refl : ChanStep (.receivers ch.waitingReceivers) ch ch :=
  ChanStep.receivers ch.waitingReceivers

variable {m : Message}

theorem trySend_eq_none : ch.trySend m = none ↔ ch.isFull = true := by
  unfold trySend
  split
  · rename_i hfull
    exact ⟨fun _ => hfull, fun _ => rfl⟩
  · rename_i hfull
    exact ⟨fun h => (Option.some_ne_none _ h).elim, fun h => absurd h hfull⟩

theorem trySend_of_room (h : ch.isFull = false) :
    ch.trySend m = some { ch with queue := ch.queue ++ [m] } := by
  unfold trySend
  rw [if_neg (by rw [h]; exact Bool.false_ne_true)]

/-- Only a waking receive loses a value, and only a send with room puts one in the queue. -/
structure Does (P : ChanAct → Prop) (ch ch' : MpmcChannel) : Prop where
  act : ∃ a, ChanStep a ch ch' ∧ P a

theorem Does.refl {P : ChanAct → Prop} (h : ∀ l, P (.receivers l)) : Does P ch ch :=
  ⟨_, chanStep_refl, h _⟩

variable {P : ChanAct → Prop} {ch' : MpmcChannel}

theorem send_does (hnone : ∀ l, P (.receivers l)) (value : Int64)
    (haccept : ch.closed = false → P (.accept value)) : Does P ch (ch.send value).1 := by
  unfold send
  split_ifs with hclosed
  · exact Does.refl hnone
  · cases hfull : ch.isFull with
    | false =>
      rw [trySend_of_room hfull]
      exact ⟨_, ChanStep.accept value hfull, haccept (by simpa using hclosed)⟩
    | true =>
      rw [trySend_eq_none.2 hfull]
      exact Does.refl hnone

theorem sendWithTask_does (hnone : ∀ l, P (.receivers l)) (value : Int64) (taskId : UInt64)
    (haccept : ch.closed = false → P (.accept value)) (hpark : P (.park taskId value)) :
    Does P ch (ch.sendWithTask value taskId).1 := by
  unfold sendWithTask
  split_ifs with hclosed
  · exact Does.refl hnone
  · cases hfull : ch.isFull with
    | false =>
      rw [trySend_of_room hfull]
      exact ⟨_, ChanStep.accept value hfull, haccept (by simpa using hclosed)⟩
    | true =>
      rw [trySend_eq_none.2 hfull]
      exact ⟨_, ChanStep.park taskId value hfull, hpark⟩

theorem tryRecv_does (h : ch.tryRecv = some (m, ch')) (hreceive : P .receive) : Does P ch ch' := by
  unfold tryRecv at h
  cases hqueue : ch.queue with
  | nil =>
    rw [hqueue] at h
    cases h
  | cons m' queue =>
    rw [hqueue] at h
    cases h
    exact ⟨_, ChanStep.receive hqueue, hreceive⟩

theorem recv_does (hnone : ∀ l, P (.receivers l)) (hreceive : P .receive) :
    Does P ch ch.recv.1 := by
  unfold recv
  cases h : ch.tryRecv with
  | none => exact Does.refl hnone
  | some r => exact tryRecv_does h hreceive

theorem recvWithTask_does (hnone : ∀ l, P (.receivers l)) (taskId : UInt64)
    (hreceive : P .receive) : Does P ch (ch.recvWithTask taskId).1 := by
  unfold recvWithTask
  cases h : ch.tryRecv with
  | some r => exact tryRecv_does h hreceive
  | none =>
    split_ifs with hclosed
    · exact Does.refl hnone
    · exact ⟨_, ChanStep.receivers _, hnone _⟩

theorem popWaitingReceiver_does (hnone : ∀ l, P (.receivers l)) {t : UInt64}
    (h : ch.popWaitingReceiver = some (t, ch')) : Does P ch ch' := by
  unfold popWaitingReceiver at h
  cases hwaiting : ch.waitingReceivers with
  | nil =>
    rw [hwaiting] at h
    cases h
  | cons t' ts =>
    rw [hwaiting] at h
    cases h
    exact ⟨_, ChanStep.receivers _, hnone _⟩

theorem wakeSender_step {w : UInt64 × Message} {ws : List (UInt64 × Message)}
    (h : ch.waitingSenders = w :: ws) :
    ChanStep (if ch.isFull then .lose else .move) ch ch.wakeSender.1 := by
  unfold wakeSender popWaitingSender
  rw [h]
  set ch' : MpmcChannel := { ch with waitingSenders := ws }
  change ChanStep _ ch ((ch'.trySend w.2).getD ch')
  cases hfull : ch.isFull with
  | false =>
    have hroom : ch'.isFull = false := hfull
    rw [trySend_of_room hroom]
    exact ChanStep.move h hfull
  | true =>
    have hfull' : ch'.isFull = true := hfull
    rw [trySend_eq_none.2 hfull']
    exact ChanStep.lose h hfull

theorem wakeSender_of_nil (h : ch.waitingSenders = []) : ch.wakeSender = (ch, none) := by
  unfold wakeSender popWaitingSender
  rw [h]

theorem wakeSender_does (hnone : ∀ l, P (.receivers l)) (hmove : P .move) (hlose : P .lose) :
    Does P ch ch.wakeSender.1 := by
  cases h : ch.waitingSenders with
  | nil =>
    rw [wakeSender_of_nil h]
    exact Does.refl hnone
  | cons w ws =>
    refine ⟨_, wakeSender_step h, ?_⟩
    split
    · exact hlose
    · exact hmove

theorem handSender_does (hnone : ∀ l, P (.receivers l)) (hhand : P .hand) :
    Does P ch ch.handSender.1 := by
  unfold handSender popWaitingSender
  cases h : ch.waitingSenders with
  | nil => exact Does.refl hnone
  | cons w ws => exact ⟨_, ChanStep.hand h, hhand⟩

end MpmcChannel

/-- A call that neither waits nor wakes. -/
inductive ChanCall where
  | send (value : Int64)
  | recv
  | close

namespace MpmcChannel

def answer (ch : MpmcChannel) : ChanCall → MpmcChannel × Int64
  | .send value => ch.send value
  | .recv => ch.recv
  | .close => (ch.close, 0)

/-- What the channel of one thread keeps. -/
def plain (ch : MpmcChannel) : Channel := ⟨ch.capacity, ch.queue.map (·.value), ch.closed⟩

end MpmcChannel

def Channel.answer (ch : Channel) : ChanCall → Channel × Int64
  | .send value => ch.send value
  | .recv => ch.recv
  | .close => (ch.close, 0)

/-- The results of one call after the other. -/
def answers {C : Type} (answer : C → ChanCall → C × Int64) : C → List ChanCall → List Int64
  | _, [] => []
  | ch, c :: cs => (answer ch c).2 :: answers answer (answer ch c).1 cs

theorem plain_answer (ch : MpmcChannel) (c : ChanCall) :
    ch.plain.answer c = ((ch.answer c).1.plain, (ch.answer c).2) := by
  cases c with
  | close => rfl
  | send value =>
    simp only [Channel.answer, Channel.send, MpmcChannel.answer, MpmcChannel.send,
      MpmcChannel.trySend, MpmcChannel.isFull, MpmcChannel.plain, List.length_map, decide_eq_true_eq]
    by_cases hclosed : ch.closed = true
    · simp [hclosed]
    · by_cases hfull : ch.capacity ≠ 0 ∧ ch.capacity ≤ ch.queue.length
      · simp [hclosed, hfull, Nat.pos_of_ne_zero hfull.1]
      · have hroom : ¬ (ch.capacity ≤ ch.queue.length ∧ 0 < ch.capacity) := by omega
        simp [hclosed, hfull, hroom, MpmcChannel.accepted, MpmcChannel.next]
  | recv =>
    simp only [Channel.answer, Channel.recv, MpmcChannel.answer, MpmcChannel.recv,
      MpmcChannel.tryRecv, MpmcChannel.plain]
    cases hqueue : ch.queue with
    | nil =>
      simp only [hqueue, List.map_nil]
      rfl
    | cons m queue => simp

/-- The channels of one thread and of many answer every list of calls alike. -/
theorem answers_alike (capacity : Int64) (cs : List ChanCall) :
    answers MpmcChannel.answer (.create capacity) cs =
      answers Channel.answer (.create capacity) cs := by
  have hall : ∀ ch : MpmcChannel,
      answers MpmcChannel.answer ch cs = answers Channel.answer ch.plain cs := by
    induction cs with
    | nil => exact fun _ => rfl
    | cons c cs ih =>
      intro ch
      rw [answers, answers, plain_answer, ih]
  exact hall _

end Arth.Runtime
