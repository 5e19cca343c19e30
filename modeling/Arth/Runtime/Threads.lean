import Arth.Runtime.Channel

/-!
# Threads on MPMC channels

* `Call` — the operations on channels; `Pc` — where a thread is inside one of them.
* `World.step` — one thread runs one critical section. Every interleaving of calls is a
  sequence of such steps.
* `step_chan` — a step does one thing to each channel.
-/

namespace Arth.Runtime

open Option Function

/-- An operation on channels. -/
inductive Call where
  | send (handle value : Int64)
  | sendBlocking (handle value : Int64)
  | recv (handle : Int64)
  | recvBlocking (handle : Int64)
  | close (handle : Int64)
  | sendWithTask (handle value : Int64) (taskId : UInt64)
  | recvWithTask (handle : Int64) (taskId : UInt64)
  | recvAndWake (handle : Int64)
  | popWaitingSender (handle : Int64)
  | getWaitingSenderValue
  | popWaitingReceiver (handle : Int64)
  | getWokenSender
  | getWokenReceiver
  | sendAndWake (handle value : Int64)
  | selectClear
  | selectAdd (handle : Int64)
  | trySelectRecv
  | selectRecvBlocking
  | selectRecvWithTask (taskId : UInt64)
  | selectGetReadyIndex
  | selectGetValue
  | selectDeregister (taskId : UInt64) (exceptIndex : Int64)

/-- Where a thread is: between two calls, with the result of the last one, or in front of a
further critical section of its call. -/
inductive Pc where
  | ready (result : Int64)
  /-- `send_blocking` found the channel closed or found none. -/
  | sendRefused (handle : Int64)
  /-- In the blocking send or receive of the channel library. -/
  | blockedSend (handle value : Int64)
  | blockedRecv (handle : Int64)
  | blockedSelect (valid : List (Int64 × Int64))
  /-- `send_and_wake` has sent. -/
  | wakeReceiver (handle : Int64)
  /-- `recv_and_wake` has received the value. -/
  | wakeSender (handle value : Int64)
  /-- A select before the channel of the given index; `task` is the task of
  `select_recv_with_task`. -/
  | probe (task : Option UInt64) (index : Int64) (handles : List Int64) (allClosed : Bool)
  /-- `select_recv_with_task` before its second pass. -/
  | register (taskId : UInt64)
  deriving DecidableEq

/-- A thread with its thread-local cells. -/
structure ThreadState where
  pc : Pc
  wokenSender : UInt64
  wokenReceiver : UInt64
  waitingSenderValue : Int64
  selectChannels : List Int64
  selectResultIndex : Int64
  selectResultValue : Int64

def ThreadState.return (th : ThreadState) (result : Int64) : ThreadState :=
  { th with pc := .ready result }

def ThreadState.goto (th : ThreadState) (pc : Pc) : ThreadState := { th with pc }

/-- The registry of channels, which never loses one, and the threads. -/
structure World (T : Type) where
  chans : Int64 → Option MpmcChannel
  threads : T → ThreadState

variable {T : Type} [DecidableEq T]

namespace World

def setThread (w : World T) (t : T) (th : ThreadState) : World T :=
  { w with threads := Function.update w.threads t th }

/-- One critical section on the channel of a handle. -/
def onChannel (w : World T) (t : T) (handle : Int64)
    (found : MpmcChannel → MpmcChannel × ThreadState) (missing : ThreadState) : World T :=
  match w.chans handle with
  | some ch =>
    { w with chans := Function.update w.chans handle (some (found ch).1) }.setThread t (found ch).2
  | none => w.setThread t missing

/-- A critical section that changes the waiting receivers of several channels. -/
def onReceivers (w : World T) (handles : List Int64) (f : MpmcChannel → MpmcChannel) : World T :=
  handles.foldl
    (fun w handle =>
      { w with chans := Function.update w.chans handle ((w.chans handle).map f) }) w

end World

/-- `recv_and_wake` goes on after its receive unless it looks like a status. -/
def gotValue (result : Int64) : Bool := 0 ≤ result ∨ (result ≠ -2 ∧ result ≠ -3)

/-- The handles of the select set but that of the given index. -/
def exceptAt (exceptIndex : Int64) : Int64 → List Int64 → List Int64
  | _, [] => []
  | index, handle :: handles =>
    if index = exceptIndex then exceptAt exceptIndex (index + 1) handles
    else handle :: exceptAt exceptIndex (index + 1) handles

/-- The channels a blocking select waits for, with their indices. -/
def validReceivers (chans : Int64 → Option MpmcChannel) : Int64 → List Int64 → List (Int64 × Int64)
  | _, [] => []
  | index, handle :: handles =>
    if (chans handle).isSome then (index, handle) :: validReceivers chans (index + 1) handles
    else validReceivers chans (index + 1) handles

namespace World

/-- The first critical section of a call. -/
def start (w : World T) (t : T) (th : ThreadState) : Call → World T
  | .send h v => w.onChannel t h (fun ch => ((ch.send v).1, th.return (ch.send v).2)) (th.return 3)
  | .sendBlocking h v =>
    w.onChannel t h
      (fun ch => (ch, th.goto (if ch.closed then .sendRefused h else .blockedSend h v)))
      (th.goto (.sendRefused h))
  | .recv h => w.onChannel t h (fun ch => (ch.recv.1, th.return ch.recv.2)) (th.return (-3))
  | .recvBlocking h => w.onChannel t h (fun ch => (ch, th.goto (.blockedRecv h))) (th.return (-3))
  | .close h => w.onChannel t h (fun ch => (ch.close, th.return 0)) (th.return 1)
  | .sendWithTask h v task =>
    w.onChannel t h
      (fun ch => ((ch.sendWithTask v task).1, th.return (ch.sendWithTask v task).2)) (th.return 3)
  | .recvWithTask h task =>
    w.onChannel t h (fun ch => ((ch.recvWithTask task).1, th.return (ch.recvWithTask task).2))
      (th.return (-3))
  | .recvAndWake h =>
    w.onChannel t h
      (fun ch =>
        (ch.recv.1, if gotValue ch.recv.2 then th.goto (.wakeSender h ch.recv.2)
          else th.return ch.recv.2))
      (th.return (-3))
  | .popWaitingSender h =>
    w.onChannel t h
      (fun ch =>
        (ch.handSender.1,
          match ch.handSender.2 with
          | some (taskId, m) =>
            { th with waitingSenderValue := m.value }.return (Int64.ofNat taskId.toNat)
          | none => th.return 0))
      (th.return 0)
  | .getWaitingSenderValue =>
    w.setThread t ({ th with waitingSenderValue := 0 }.return th.waitingSenderValue)
  | .popWaitingReceiver h =>
    w.onChannel t h
      (fun ch =>
        match ch.popWaitingReceiver with
        | some (taskId, ch') => (ch', th.return (Int64.ofNat taskId.toNat))
        | none => (ch, th.return 0))
      (th.return 0)
  | .getWokenSender =>
    w.setThread t ({ th with wokenSender := 0 }.return (Int64.ofNat th.wokenSender.toNat))
  | .getWokenReceiver =>
    w.setThread t ({ th with wokenReceiver := 0 }.return (Int64.ofNat th.wokenReceiver.toNat))
  | .sendAndWake h v =>
    w.onChannel t h
      (fun ch =>
        ((ch.send v).1,
          if (ch.send v).2 = 0 then th.goto (.wakeReceiver h) else th.return (ch.send v).2))
      (th.return 3)
  | .selectClear =>
    w.setThread t
      ({ th with selectChannels := [], selectResultIndex := -1, selectResultValue := 0 }.return 0)
  | .selectAdd h =>
    w.setThread t
      ({ th with selectChannels := th.selectChannels ++ [h] }.return
        (Int64.ofNat th.selectChannels.length))
  | .trySelectRecv =>
    w.setThread t
      (if th.selectChannels = [] then th.return 3
        else th.goto (.probe none 0 th.selectChannels true))
  | .selectRecvBlocking =>
    w.setThread t
      (if th.selectChannels = [] then th.return 3
        else if validReceivers w.chans 0 th.selectChannels = [] then th.return 2
        else th.goto (.blockedSelect (validReceivers w.chans 0 th.selectChannels)))
  | .selectRecvWithTask task =>
    w.setThread t
      (if th.selectChannels = [] then th.return 3
        else th.goto (.probe (some task) 0 th.selectChannels true))
  | .selectGetReadyIndex => w.setThread t (th.return th.selectResultIndex)
  | .selectGetValue => w.setThread t (th.return th.selectResultValue)
  | .selectDeregister task except =>
    (w.onReceivers (exceptAt except 0 th.selectChannels) (·.removeWaitingReceiver task)).setThread t
      (th.return 0)

/-- A select takes a message from the channel of an index. -/
def selected (th : ThreadState) (index : Int64) (m : Message) : ThreadState :=
  { th with selectResultIndex := index, selectResultValue := m.value }.return 0

/-- The next critical section of a call. A blocking receive or send waits for a message or
for room, not for the channel to be closed; where several channels are ready, `pick` is the
one the channel library chooses. -/
def resume (w : World T) (t : T) (th : ThreadState) (pick : Nat) : Pc → Option (World T)
  | .ready _ => none
  | .sendRefused h => some (w.setThread t (th.return (if (w.chans h).isSome then 2 else 3)))
  | .blockedSend h v => do
    let ch ← w.chans h
    let ch' ← ch.trySend (ch.next v)
    some (w.onChannel t h (fun _ => (ch'.accepted (ch.next v), th.return 0)) th)
  | .blockedRecv h => do
    let ch ← w.chans h
    let (m, ch') ← ch.tryRecv
    some (w.onChannel t h (fun _ => (ch', th.return m.value)) th)
  | .blockedSelect valid => do
    let (index, h) ← valid[pick]?
    let ch ← w.chans h
    let (m, ch') ← ch.tryRecv
    some (w.onChannel t h (fun _ => (ch', selected th index m)) th)
  | .wakeReceiver h =>
    some <| w.onChannel t h
      (fun ch =>
        match ch.popWaitingReceiver with
        | some (taskId, ch') => (ch', { th with wokenReceiver := taskId }.return 0)
        | none => (ch, th.return 0))
      (th.return 0)
  | .wakeSender h value =>
    some <| w.onChannel t h
      (fun ch =>
        (ch.wakeSender.1,
          match ch.wakeSender.2 with
          | some taskId => { th with wokenSender := taskId }.return value
          | none => th.return value))
      (th.return value)
  | .probe task _ [] allClosed =>
    some <| w.setThread t <|
      if allClosed then th.return 2
      else
        match task with
        | some taskId => th.goto (.register taskId)
        | none => th.return 1
  | .probe task index (h :: handles) allClosed =>
    some <| w.onChannel t h
      (fun ch =>
        match ch.tryRecv with
        | some (m, ch') => (ch', selected th index m)
        | none => (ch, th.goto (.probe task (index + 1) handles (allClosed && ch.closed))))
      (th.goto (.probe task (index + 1) handles allClosed))
  | .register taskId =>
    some <| (w.onReceivers th.selectChannels
      (fun ch => if ch.closed then ch else ch.addWaitingReceiver taskId)).setThread t (th.return 1)

/-- One step of a thread: the next critical section of its call, or the first one of a new
call. -/
def step (w : World T) (t : T) (call : Call) (pick : Nat) : Option (World T) :=
  match (w.threads t).pc with
  | .ready _ => some (w.start t (w.threads t) call)
  | pc => w.resume t (w.threads t) pick pc

/-- The channel whose queue the step of a thread would put a new message into. -/
def sendsTo (w : World T) (t : T) (call : Call) : Option Int64 :=
  match (w.threads t).pc with
  | .ready _ =>
    match call with
    | .send h _ | .sendWithTask h _ _ | .sendAndWake h _ => some h
    | _ => none
  | .blockedSend h _ => some h
  | _ => none

/-- The channel in front of whose waiting senders a waking receive is. -/
def wakesOn (w : World T) (t : T) : Option Int64 :=
  match (w.threads t).pc with
  | .wakeSender h _ => some h
  | _ => none

/-- Who may do what to the channel of a handle in one step. -/
def Permits (w : World T) (t : T) (call : Call) (h : Int64) : ChanAct → Prop
  | .accept _ => w.sendsTo t call = some h ∧
      ((∃ result, (w.threads t).pc = .ready result) →
        ∀ ch, w.chans h = some ch → ch.closed = false)
  | .move | .lose => w.wakesOn t = some h
  | _ => True

open MpmcChannel

variable {w w' : World T} {t : T} {call : Call} {pick : Nat} {P : Int64 → ChanAct → Prop}
    {f : MpmcChannel → MpmcChannel} {pc : Pc}

/-- What happened to the channels from `w` to `w'`. -/
def Did (P : Int64 → ChanAct → Prop) (w w' : World T) : Prop :=
  ∀ h, (w.chans h = none ∧ w'.chans h = none) ∨
    ∃ ch ch', w.chans h = some ch ∧ w'.chans h = some ch' ∧ Does (P h) ch ch'

omit [DecidableEq T] in
theorem did_of_chans (hnone : ∀ h l, P h (.receivers l)) (hchans : w'.chans = w.chans) :
    Did P w w' := by
  intro h
  rw [hchans]
  cases hh : w.chans h with
  | none => exact .inl ⟨rfl, rfl⟩
  | some ch => exact .inr ⟨ch, ch, rfl, rfl, Does.refl (hnone h)⟩

theorem did_onChannel (hnone : ∀ h l, P h (.receivers l)) {handle : Int64}
    {found : MpmcChannel → MpmcChannel × ThreadState} {missing : ThreadState}
    (hfound : ∀ ch, w.chans handle = some ch → Does (P handle) ch (found ch).1) :
    Did P w (w.onChannel t handle found missing) := by
  unfold onChannel
  cases hh : w.chans handle with
  | none => exact did_of_chans hnone rfl
  | some ch =>
    intro h
    by_cases heq : h = handle
    · subst heq
      exact .inr ⟨ch, (found ch).1, hh, update_self .., hfound ch hh⟩
    · have hsame : (update w.chans handle (some (found ch).1)) h = w.chans h :=
        update_of_ne heq ..
      cases hch : w.chans h with
      | none => exact .inl ⟨rfl, hsame.trans hch⟩
      | some ch' => exact .inr ⟨ch', ch', rfl, hsame.trans hch, Does.refl (hnone h)⟩

omit [DecidableEq T] in
theorem chans_onReceivers (handles : List Int64) (f : MpmcChannel → MpmcChannel) (h : Int64) :
    (w.onReceivers handles f).chans h = (w.chans h).map f^[handles.count h] := by
  induction handles generalizing w with
  | nil => exact map_id'.symm
  | cons handle handles ih =>
    change (World.onReceivers _ handles f).chans h = _
    rw [ih]
    by_cases heq : handle = h
    · subst heq
      rw [List.count_cons_self, Function.iterate_succ, ← map_map]
      simp only [update_self]
    · rw [List.count_cons_of_ne heq]
      simp only [update_of_ne (Ne.symm heq)]

theorem iterate_receivers
    (hf : ∀ ch, ∃ l, f ch = { ch with waitingReceivers := l }) (n : Nat) (ch : MpmcChannel) :
    ∃ l, f^[n] ch = { ch with waitingReceivers := l } := by
  induction n generalizing ch with
  | zero => exact ⟨ch.waitingReceivers, rfl⟩
  | succ n ih =>
    obtain ⟨l, hl⟩ := hf ch
    obtain ⟨l', hl'⟩ := ih (f ch)
    exact ⟨l', by rw [Function.iterate_succ_apply, hl', hl]⟩

omit [DecidableEq T] in
theorem did_onReceivers (hnone : ∀ h l, P h (.receivers l))
    (hf : ∀ ch, ∃ l, f ch = { ch with waitingReceivers := l }) (handles : List Int64) :
    Did P w (w.onReceivers handles f) := by
  intro h
  cases hh : w.chans h with
  | none => exact .inl ⟨rfl, by rw [chans_onReceivers, hh, map_none]⟩
  | some ch =>
    obtain ⟨l, hl⟩ := iterate_receivers hf (handles.count h) ch
    refine .inr ⟨ch, _, rfl, ?_, _, ChanStep.receivers l, hnone h l⟩
    rw [chans_onReceivers, hh, map_some, hl]

theorem start_did (hready : ∃ r, (w.threads t).pc = .ready r) :
    Did (w.Permits t call) w (w.start t (w.threads t) call) := by
  obtain ⟨r, hr⟩ := hready
  have hnone : ∀ h l, w.Permits t call h (.receivers l) := fun _ _ => trivial
  have haccept : ∀ {h ch} v, w.sendsTo t call = some h → w.chans h = some ch →
      ch.closed = false → w.Permits t call h (.accept v) := by
    intro h ch v hs hch hopen
    refine ⟨hs, fun _ ch' hch' => ?_⟩
    rw [hch] at hch'
    cases hch'
    exact hopen
  unfold sendsTo at haccept
  rw [hr] at haccept
  cases call with
  | send h v => exact did_onChannel hnone fun ch hch => send_does (hnone h) v (haccept v rfl hch)
  | sendWithTask h v task =>
    exact did_onChannel hnone fun ch hch =>
      sendWithTask_does (hnone h) v task (haccept v rfl hch) trivial
  | sendAndWake h v =>
    exact did_onChannel hnone fun ch hch => send_does (hnone h) v (haccept v rfl hch)
  | sendBlocking h | recvBlocking h => exact did_onChannel hnone fun ch _ => Does.refl (hnone h)
  | recv h | recvAndWake h => exact did_onChannel hnone fun ch _ => recv_does (hnone h) trivial
  | close h => exact did_onChannel hnone fun ch _ => ⟨_, ChanStep.close, trivial⟩
  | recvWithTask h task =>
    exact did_onChannel hnone fun ch _ => recvWithTask_does (hnone h) task trivial
  | popWaitingSender h => exact did_onChannel hnone fun ch _ => handSender_does (hnone h) trivial
  | popWaitingReceiver h =>
    refine did_onChannel hnone fun ch _ => ?_
    split
    · exact popWaitingReceiver_does (hnone h) ‹_›
    · exact Does.refl (hnone h)
  | selectDeregister task except =>
    exact did_onReceivers hnone (fun ch => ⟨_, rfl⟩) _
  | _ => exact did_of_chans hnone rfl

theorem resume_did (hpc : (w.threads t).pc = pc)
    (h : w.resume t (w.threads t) pick pc = some w') : Did (w.Permits t call) w w' := by
  have hnone : ∀ h l, w.Permits t call h (.receivers l) := fun _ _ => trivial
  cases pc with
  | ready r => cases h
  | sendRefused handle =>
    cases h
    exact did_of_chans hnone rfl
  | blockedSend handle v =>
    have haccept : w.Permits t call handle (.accept v) := by
      unfold Permits sendsTo
      rw [hpc]
      refine ⟨rfl, ?_⟩
      rintro ⟨result, hready⟩
      cases hready
    obtain ⟨ch, hch, h⟩ := bind_eq_some_iff.1 h
    obtain ⟨ch', hch', h⟩ := bind_eq_some_iff.1 h
    cases h
    refine did_onChannel hnone fun ch₁ hch₁ => ?_
    rw [hch] at hch₁
    cases hch₁
    cases hfull : ch.isFull with
    | true =>
      rw [trySend_eq_none.2 hfull] at hch'
      cases hch'
    | false =>
      rw [trySend_of_room hfull] at hch'
      cases hch'
      exact ⟨_, ChanStep.accept v hfull, haccept⟩
  | blockedRecv handle =>
    obtain ⟨ch, hch, h⟩ := bind_eq_some_iff.1 h
    obtain ⟨⟨m, ch'⟩, hrecv, h⟩ := bind_eq_some_iff.1 h
    cases h
    refine did_onChannel hnone fun ch₁ hch₁ => ?_
    rw [hch] at hch₁
    cases hch₁
    exact tryRecv_does hrecv trivial
  | blockedSelect valid =>
    obtain ⟨⟨index, handle⟩, _, h⟩ := bind_eq_some_iff.1 h
    obtain ⟨ch, hch, h⟩ := bind_eq_some_iff.1 h
    obtain ⟨⟨m, ch'⟩, hrecv, h⟩ := bind_eq_some_iff.1 h
    cases h
    refine did_onChannel hnone fun ch₁ hch₁ => ?_
    rw [hch] at hch₁
    cases hch₁
    exact tryRecv_does hrecv trivial
  | wakeReceiver handle =>
    cases h
    refine did_onChannel hnone fun ch _ => ?_
    split
    · exact popWaitingReceiver_does (hnone handle) ‹_›
    · exact Does.refl (hnone handle)
  | wakeSender handle v =>
    have hwakes : w.wakesOn t = some handle := by
      unfold wakesOn
      rw [hpc]
    cases h
    exact did_onChannel hnone fun ch _ => wakeSender_does (hnone handle) hwakes hwakes
  | probe task index handles allClosed =>
    cases handles with
    | nil =>
      cases h
      exact did_of_chans hnone rfl
    | cons handle handles =>
      cases h
      refine did_onChannel hnone fun ch _ => ?_
      split
      · exact tryRecv_does ‹_› trivial
      · exact Does.refl (hnone handle)
  | register taskId =>
    cases h
    refine did_onReceivers hnone (fun ch => ?_) _
    split
    · exact ⟨ch.waitingReceivers, rfl⟩
    · exact ⟨_, rfl⟩

/-- **One step of a thread does one permitted thing to each channel.** -/
theorem step_did (h : w.step t call pick = some w') : Did (w.Permits t call) w w' := by
  unfold step at h
  split at h
  · cases h
    exact start_did ⟨_, ‹_›⟩
  · exact resume_did rfl h

/-! ## What a step does to the other threads -/

variable {t' : T}

theorem threads_setThread (ht : t' ≠ t) (th : ThreadState) :
    (w.setThread t th).threads t' = w.threads t' := update_of_ne ht ..

theorem threads_onChannel_of_ne (ht : t' ≠ t) {handle : Int64}
    {found : MpmcChannel → MpmcChannel × ThreadState} {missing : ThreadState} :
    (w.onChannel t handle found missing).threads t' = w.threads t' := by
  unfold onChannel
  split
  · exact threads_setThread ht _
  · exact threads_setThread ht _

omit [DecidableEq T] in
theorem threads_onReceivers (handles : List Int64) (f : MpmcChannel → MpmcChannel) :
    (w.onReceivers handles f).threads = w.threads := by
  induction handles generalizing w with
  | nil => rfl
  | cons handle handles ih => exact ih

theorem threads_start (ht : t' ≠ t) (th : ThreadState) :
    (w.start t th call).threads t' = w.threads t' := by
  cases call with
  | selectDeregister task except =>
    change ((w.onReceivers _ _).setThread t _).threads t' = _
    rw [threads_setThread ht, threads_onReceivers]
  | getWaitingSenderValue | getWokenSender | getWokenReceiver | selectClear | selectAdd
  | trySelectRecv | selectRecvBlocking | selectRecvWithTask | selectGetReadyIndex
  | selectGetValue => exact threads_setThread ht _
  | _ => exact threads_onChannel_of_ne ht

theorem threads_resume {th : ThreadState} (ht : t' ≠ t)
    (h : w.resume t th pick pc = some w') : w'.threads t' = w.threads t' := by
  cases pc with
  | ready r => cases h
  | sendRefused handle =>
    cases h
    exact threads_setThread ht _
  | blockedSend handle v =>
    obtain ⟨ch, _, h⟩ := bind_eq_some_iff.1 h
    obtain ⟨ch', _, h⟩ := bind_eq_some_iff.1 h
    cases h
    exact threads_onChannel_of_ne ht
  | blockedRecv handle =>
    obtain ⟨ch, _, h⟩ := bind_eq_some_iff.1 h
    obtain ⟨⟨m, ch'⟩, _, h⟩ := bind_eq_some_iff.1 h
    cases h
    exact threads_onChannel_of_ne ht
  | blockedSelect valid =>
    obtain ⟨⟨index, handle⟩, _, h⟩ := bind_eq_some_iff.1 h
    obtain ⟨ch, _, h⟩ := bind_eq_some_iff.1 h
    obtain ⟨⟨m, ch'⟩, _, h⟩ := bind_eq_some_iff.1 h
    cases h
    exact threads_onChannel_of_ne ht
  | wakeReceiver | wakeSender =>
    cases h
    exact threads_onChannel_of_ne ht
  | probe task index handles allClosed =>
    cases handles with
    | nil =>
      cases h
      exact threads_setThread ht _
    | cons handle handles =>
      cases h
      exact threads_onChannel_of_ne ht
  | register taskId =>
    cases h
    rw [threads_setThread ht, threads_onReceivers]

theorem step_threads (h : w.step t call pick = some w') (ht : t' ≠ t) :
    w'.threads t' = w.threads t' := by
  unfold step at h
  split at h
  · cases h
    exact threads_start ht _
  · exact threads_resume ht h

end World

end Arth.Runtime
