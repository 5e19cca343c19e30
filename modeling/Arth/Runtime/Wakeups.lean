import Arth.Runtime.Order

/-!
# Waiting tasks

* `Scene` — threads on channels, with the tasks that are suspended and the wakeups that are
  on their way to them.
* `NoneStranded` — nobody waits for a message or for room that is there and that no one is
  about to take.
* `Careful` — the steps that strand nobody; what each operation on a channel has to meet.
-/

namespace Arth.Runtime

open Runs List Option Function

/-! ## One channel -/

variable {queue received : List Message}

namespace MpmcChannel

/-- A send puts its message in the queue. -/
def admits (ch : MpmcChannel) : Bool := !ch.closed && !ch.isFull

/-- The channel after the oldest waiting receiver was popped. -/
def popped (ch : MpmcChannel) : MpmcChannel := (ch.popWaitingReceiver.map (·.2)).getD ch

/-- On an open channel that a task waits on, each message has a wakeup on its way, and on a
channel with parked values each free slot has a move on its way. -/
structure Served (ch : MpmcChannel) (waits : Prop) (due moving : Nat) : Prop where
  receivers : ch.closed = false → waits → ch.queue.length ≤ due
  senders : ch.waitingSenders ≠ [] → ch.capacity ≠ 0 ∧ ch.capacity ≤ ch.queue.length + moving

variable {ch : MpmcChannel} {waits waits' : Prop} {due due' moving moving' : Nat} {m : Message}

theorem Served.weaken (h : ch.Served waits due moving) (hwaits : waits' → waits)
    (hdue : due ≤ due') (hmoving : moving ≤ moving') : ch.Served waits' due' moving' where
  receivers hopen hw := (h.receivers hopen (hwaits hw)).trans hdue
  senders hparked := by
    obtain ⟨hcap, hroom⟩ := h.senders hparked
    exact ⟨hcap, by omega⟩

theorem isFull_iff : ch.isFull = true ↔ ch.capacity ≠ 0 ∧ ch.capacity ≤ ch.queue.length := by
  unfold isFull
  rw [decide_eq_true_iff]

theorem served_erase {T : Type} [DecidableEq T] {x : T} {xs : List T}
    (h : ch.Served waits xs.length moving) (hwaits : waits' → waits) :
    ch.Served waits' (xs.erase x).length moving ↔
      (x ∈ xs → ch.closed = false → waits' → ch.queue.length < xs.length) := by
  constructor
  · intro h' hx hopen hw
    have hle := h'.receivers hopen hw
    have hpos := length_pos_of_mem hx
    rw [length_erase_of_mem hx] at hle
    omega
  · intro hspare
    refine ⟨fun hopen hw => ?_, h.senders⟩
    by_cases hx : x ∈ xs
    · have hlt := hspare hx hopen hw
      rw [length_erase_of_mem hx]
      omega
    · rw [erase_of_not_mem hx]
      exact h.receivers hopen (hwaits hw)

variable {sent : List Message}

theorem served_push (h : ch.Served waits due moving) :
    Served { ch with queue := ch.queue ++ [m], sent } waits due moving ↔
      (ch.closed = false → waits → ch.queue.length < due) := by
  constructor
  · intro h' hopen hw
    have hle := h'.receivers hopen hw
    rw [length_append, length_singleton] at hle
    omega
  · intro hspare
    refine ⟨fun hopen hw => ?_, fun hparked => ?_⟩
    · have hlt := hspare hopen hw
      rw [length_append, length_singleton]
      omega
    · obtain ⟨hcap, hroom⟩ := h.senders hparked
      refine ⟨hcap, hroom.trans ?_⟩
      rw [length_append]
      omega

theorem served_push_due (h : ch.Served waits due moving) :
    Served { ch with queue := ch.queue ++ [m], sent } waits (due + 1) moving := by
  rw [served_push (h.weaken id (Nat.le_succ due) le_rfl)]
  intro hopen hw
  have hle := h.receivers hopen hw
  omega

theorem served_take (h : ch.Served waits due moving)
    (hwaits : waits' → waits) (hqueue : ch.queue = m :: queue) (hdue : due ≤ due' + 1) :
    Served { ch with queue, received } waits' due' moving' ↔
      (ch.waitingSenders ≠ [] → ch.capacity < ch.queue.length + moving') := by
  rw [hqueue, length_cons]
  constructor
  · intro h' hparked
    have hroom := (h'.senders hparked).2
    change ch.capacity ≤ queue.length + moving' at hroom
    omega
  · intro hspare
    refine ⟨fun hopen hw => ?_, fun hparked => ?_⟩
    · have hle := h.receivers hopen (hwaits hw)
      rw [hqueue, length_cons] at hle
      change queue.length ≤ due'
      omega
    · have hlt := hspare hparked
      refine ⟨(h.senders hparked).1, ?_⟩
      change ch.capacity ≤ queue.length + moving'
      omega

variable {senders : List (UInt64 × Message)}

theorem Served.park (h : ch.Served waits due moving) (hfull : ch.isFull = true) :
    Served { ch with waitingSenders := senders, sent } waits due moving := by
  obtain ⟨hcap, hroom⟩ := isFull_iff.1 hfull
  exact ⟨h.receivers, fun _ => ⟨hcap, Nat.le_add_right_of_le hroom⟩⟩

theorem served_move (h : ch.Served waits due moving)
    (hparked : ch.waitingSenders ≠ []) (hmoving : moving ≤ moving' + 1) :
    Served { ch with queue := ch.queue ++ [m], waitingSenders := senders } waits due moving' ↔
      (ch.closed = false → waits → ch.queue.length < due) := by
  obtain ⟨hcap, hroom⟩ := h.senders hparked
  have hsenders : ch.capacity ≤ (ch.queue ++ [m]).length + moving' := by
    rw [length_append, length_singleton]
    omega
  constructor
  · intro h' hopen hw
    have hle := h'.receivers hopen hw
    rw [length_append, length_singleton] at hle
    omega
  · intro hspare
    refine ⟨fun hopen hw => ?_, fun _ => ⟨hcap, hsenders⟩⟩
    have hlt := hspare hopen hw
    rw [length_append, length_singleton]
    omega

theorem Served.full (h : ch.Served waits due moving) (hfull : ch.isFull = true) :
    Served { ch with waitingSenders := senders } waits due moving' := by
  obtain ⟨hcap, hroom⟩ := isFull_iff.1 hfull
  exact ⟨h.receivers, fun _ => ⟨hcap, Nat.le_add_right_of_le hroom⟩⟩

end MpmcChannel

/-! ## Tasks -/

/-- A wakeup of a receiver on its way: a thread has sent and goes to wake one, or a task was
woken and goes to receive. -/
inductive Wakeup (T : Type) where
  | waking (t : T)
  | woken (task : UInt64)
  deriving DecidableEq

/-- A world with its tasks. The code keeps none of this: `waits` are the channels that a
suspended task waits for a message of, `due` the wakeups on their way to the messages of a
channel, `moving` the threads about to move a parked value into it, and `wasted` the tasks
that were woken for a channel on which they did not wait. -/
structure Scene (T : Type) where
  world : World T
  waits : UInt64 → List Int64
  due : Int64 → List (Wakeup T)
  moving : Int64 → List T
  wasted : List UInt64

/-- The operations of a channel for an executor. -/
def Call.Integrated : Call → Prop
  | .sendAndWake .. | .recvAndWake .. | .sendWithTask .. | .recvWithTask ..
  | .selectRecvWithTask .. | .selectDeregister .. | .close .. => True
  | .selectClear | .selectAdd .. | .selectGetReadyIndex | .selectGetValue => True
  | .getWokenSender | .getWokenReceiver => True
  | _ => False

/-- A step of a thread that runs a task. -/
structure Turn (T : Type) where
  thread : T
  task : UInt64
  call : Call
  integrated : call.Integrated

namespace Scene

variable {T : Type} [DecidableEq T]

/-- A task that receives runs, and takes back its wakeups. -/
def settles (s : Scene T) (task : UInt64) : Scene T where
  world := s.world
  waits := Function.update s.waits task []
  due h := (s.due h).erase (.woken task)
  moving := s.moving
  wasted := s.wasted

/-- A task that finds no message in a channel may still find one in another. -/
def misses (s : Scene T) (task : UInt64) (h : Int64) : Scene T where
  world := s.world
  waits := Function.update s.waits task []
  due := Function.update s.due h ((s.due h).erase (.woken task))
  moving := s.moving
  wasted := s.wasted

/-- A task looks for a message in a channel. -/
def looks (s : Scene T) (task : UInt64) (h : Int64) : Scene T :=
  match s.world.chans h with
  | some ch => if ch.queue = [] then s.misses task h else s.settles task
  | none => s

/-- A task is suspended. -/
def sleeps (s : Scene T) (task : UInt64) (handles : List Int64) : Scene T :=
  { s.settles task with waits := Function.update s.waits task handles }

/-- The channel of the handle is there and open. -/
def isOpen (s : Scene T) (h : Int64) : Bool := (s.world.chans h).any fun ch => !ch.closed

/-- A receive that suspends its task on an empty open channel. -/
def looksOrSleeps (s : Scene T) (task : UInt64) (h : Int64) : Scene T :=
  if (s.world.chans h).any fun ch => ch.queue = [] ∧ ch.closed = false then s.sleeps task [h]
  else s.looks task h

/-- The thread goes to wake a receiver of the channel. -/
def goesToWake (s : Scene T) (t : T) (h : Int64) : Scene T :=
  { s with due := Function.update s.due h (s.due h ++ [.waking t]) }

/-- The thread goes to move a parked value into the channel. -/
def goesToMove (s : Scene T) (t : T) (h : Int64) : Scene T :=
  { s with moving := Function.update s.moving h (s.moving h ++ [t]) }

/-- The thread has moved a parked value into the channel, if there was one. -/
def moves (s : Scene T) (t : T) (h : Int64) : Scene T :=
  { s with moving := Function.update s.moving h ((s.moving h).erase t) }

/-- The thread wakes the oldest waiting receiver of the channel. -/
def wakes (s : Scene T) (t : T) (h : Int64) : Scene T :=
  match (s.world.chans h).bind fun ch => ch.waitingReceivers.head? with
  | some task =>
    { s with
      waits := Function.update s.waits task []
      due := Function.update s.due h ((s.due h).erase (.waking t) ++ [.woken task])
      wasted := if h ∈ s.waits task then s.wasted else s.wasted ++ [task] }
  | none => { s with due := Function.update s.due h ((s.due h).erase (.waking t)) }

/-- What a step means for the tasks. -/
def tasks (s : Scene T) (l : Turn T) : Scene T :=
  match (s.world.threads l.thread).pc with
  | .ready _ =>
    match l.call with
    | .sendAndWake h _ =>
      if (s.world.chans h).any (·.admits) then s.goesToWake l.thread h else s
    | .recvAndWake h =>
      if (s.world.chans h).any fun ch => ch.first.any gotValue then
        (s.looks l.task h).goesToMove l.thread h
      else s.looks l.task h
    | .recvWithTask h task => s.looksOrSleeps task h
    | .selectDeregister task except =>
      let removed := exceptAt except 0 (s.world.threads l.thread).selectChannels
      { s with waits := Function.update s.waits task ((s.waits task).filter (· ∉ removed)) }
    | _ => s
  | .wakeReceiver h => s.wakes l.thread h
  | .wakeSender h _ => s.moves l.thread h
  | .probe (some task) _ (h :: _) _ => s.looks task h
  | .register task =>
    s.sleeps task ((s.world.threads l.thread).selectChannels.filter s.isOpen)
  | _ => s

def withWorld (s : Scene T) (world : World T) : Scene T := { s with world }

/-- A step of a thread, for the channels and for the tasks. -/
def next (s : Scene T) (l : Turn T) : Option (Scene T) :=
  (s.world.step l.thread l.call 0).map (s.tasks l).withWorld

/-- A suspended task waits for a message of the channel. -/
def waitsOn (s : Scene T) (h : Int64) : Prop := ∃ task, h ∈ s.waits task

/-- Every channel serves its waiting tasks, and every wakeup reached one that waited. -/
structure NoneStranded (s : Scene T) : Prop where
  served : ∀ h ch, s.world.chans h = some ch →
    ch.Served (s.waitsOn h) (s.due h).length (s.moving h).length
  wasted : s.wasted = []

/-- If a task waits on the open channel, one more wakeup is on its way than it has messages. -/
def SpareWakeup (s : Scene T) (waits : Prop) (h : Int64) (ch : MpmcChannel) : Prop :=
  ch.closed = false → waits → ch.queue.length < (s.due h).length

/-- If values are parked, one more move is on its way than the channel has room. -/
def SpareMove (s : Scene T) (h : Int64) (ch : MpmcChannel) : Prop :=
  ch.waitingSenders ≠ [] → ch.capacity < ch.queue.length + (s.moving h).length

/-- Another task waits for a message of the channel. -/
def OtherWaits (s : Scene T) (task : UInt64) (h : Int64) : Prop :=
  ∃ task', task' ≠ task ∧ h ∈ s.waits task'

/-- The task was not woken for another channel, unless that one can do without. -/
def WokenFor (s : Scene T) (task : UInt64) (h : Int64) : Prop :=
  ∀ h' ch', h' ≠ h → s.world.chans h' = some ch' → .woken task ∈ s.due h' →
    s.SpareWakeup (s.OtherWaits task h') h' ch'

/-- The steps that strand nobody. -/
def Careful (s : Scene T) (l : Turn T) : Prop :=
  match (s.world.threads l.thread).pc with
  | .ready _ =>
    match l.call with
    | .sendWithTask h _ _ => ∀ ch, s.world.chans h = some ch → ch.admits = true →
        s.SpareWakeup (s.waitsOn h) h ch
    | .recvAndWake h => ∀ ch, s.world.chans h = some ch → ch.queue ≠ [] →
        s.WokenFor l.task h ∧ (ch.first.any gotValue = false → s.SpareMove h ch)
    | .recvWithTask h task => ∀ ch, s.world.chans h = some ch →
        (ch.queue ≠ [] ∨ ch.closed = false → s.WokenFor task h) ∧
          (ch.queue ≠ [] → s.SpareMove h ch)
    | _ => True
  | .wakeReceiver h => ∀ ch task, s.world.chans h = some ch →
      ch.waitingReceivers.head? = some task → h ∈ s.waits task
  | .wakeSender h _ => ∀ ch, s.world.chans h = some ch → ch.waitingSenders ≠ [] →
      ch.isFull = false → s.SpareWakeup (s.waitsOn h) h ch
  | .probe (some task) _ (h :: _) _ => ∀ ch, s.world.chans h = some ch → ch.queue ≠ [] →
      s.WokenFor task h ∧ s.SpareMove h ch
  | .register task => ∀ h ch, s.world.chans h = some ch → ch.closed = false →
      if h ∈ (s.world.threads l.thread).selectChannels then
        ch.queue.length ≤ ((s.due h).erase (.woken task)).length
      else .woken task ∈ s.due h → s.SpareWakeup (s.OtherWaits task h) h ch
  | _ => True

variable {s s' : Scene T} {l : Turn T} {h : Int64} {ch ch' : MpmcChannel} {task : UInt64}
  {r : Int64} {w' : World T}

/-- At most the channel of the handle changes. -/
structure Changes (w w' : World T) (h : Int64) (f : MpmcChannel → MpmcChannel) : Prop where
  found : ∀ ch, w.chans h = some ch → w'.chans = Function.update w.chans h (some (f ch))
  missing : w.chans h = none → w'.chans = w.chans

theorem changes_onChannel (w : World T) (t : T) (h : Int64)
    (found : MpmcChannel → MpmcChannel × ThreadState) (missing : ThreadState) :
    Changes w (w.onChannel t h found missing) h fun ch => (found ch).1 where
  found ch hch := by
    unfold World.onChannel
    rw [hch]
    rfl
  missing hch := by
    unfold World.onChannel
    rw [hch]
    rfl

omit [DecidableEq T] in
theorem noneStranded_same (hP : s.NoneStranded) (hchans : w'.chans = s.world.chans) :
    (s.withWorld w').NoneStranded where
  served h ch hch := hP.served h ch (hchans ▸ hch)
  wasted := hP.wasted

variable {g : Scene T} {v : Int64}

omit [DecidableEq T] in
theorem noneStranded_iff_served
    (hchans : w'.chans = update s.world.chans h (some ch')) (hwasted : g.wasted = []) :
    (g.withWorld w').NoneStranded ↔ ch'.Served (g.waitsOn h) (g.due h).length (g.moving h).length ∧
        ∀ h₁ ch₁, h₁ ≠ h → s.world.chans h₁ = some ch₁ →
          ch₁.Served (g.waitsOn h₁) (g.due h₁).length (g.moving h₁).length := by
  have hself : w'.chans h = some ch' := by rw [hchans, update_self]
  constructor
  · intro hP
    refine ⟨hP.served h ch' hself, fun h₁ ch₁ hne hch₁ => hP.served h₁ ch₁ ?_⟩
    change w'.chans h₁ = some ch₁
    rw [hchans, update_of_ne hne, hch₁]
  · rintro ⟨hserved, hothers⟩
    refine ⟨fun h₁ ch₁ hch₁ => ?_, hwasted⟩
    change w'.chans h₁ = some ch₁ at hch₁
    by_cases hne : h₁ = h
    · subst hne
      rw [hself] at hch₁
      cases hch₁
      exact hserved
    · rw [hchans, update_of_ne hne] at hch₁
      exact hothers h₁ ch₁ hne hch₁

omit [DecidableEq T] in
theorem noneStranded_iff_one (hP : s.NoneStranded)
    (hchans : w'.chans = update s.world.chans h (some ch')) (hwaits : g.waits = s.waits)
    (hdue : ∀ h₁, h₁ ≠ h → g.due h₁ = s.due h₁)
    (hmoving : ∀ h₁, h₁ ≠ h → g.moving h₁ = s.moving h₁) (hwasted : g.wasted = s.wasted) :
    (g.withWorld w').NoneStranded ↔
      ch'.Served (s.waitsOn h) (g.due h).length (g.moving h).length := by
  have hon : g.waitsOn = s.waitsOn := by
    unfold waitsOn
    rw [hwaits]
  rw [noneStranded_iff_served hchans (hwasted.trans hP.wasted), hon]
  refine ⟨fun hserved => hserved.1, fun hserved => ⟨hserved, fun h₁ ch₁ hne hch₁ => ?_⟩⟩
  rw [hdue h₁ hne, hmoving h₁ hne]
  exact hP.served h₁ ch₁ hch₁

omit [DecidableEq T] in
theorem waitsOn_awake (hwaits : s'.waits = update s.waits task []) (h : Int64) :
    s'.waitsOn h ↔ s.OtherWaits task h := by
  unfold waitsOn OtherWaits
  rw [hwaits]
  constructor
  · rintro ⟨task', hmem⟩
    by_cases heq : task' = task
    · subst heq
      rw [update_self] at hmem
      cases hmem
    · rw [update_of_ne heq] at hmem
      exact ⟨task', heq, hmem⟩
  · rintro ⟨task', hne, hmem⟩
    exact ⟨task', by rw [update_of_ne hne]; exact hmem⟩

omit [DecidableEq T] in
theorem OtherWaits.waitsOn (hw : s.OtherWaits task h) : s.waitsOn h := by
  obtain ⟨task', _, hmem⟩ := hw
  exact ⟨task', hmem⟩

theorem wokenFor_iff (hP : s.NoneStranded) : (∀ h₁ ch₁, h₁ ≠ h → s.world.chans h₁ = some ch₁ →
    ch₁.Served (s.OtherWaits task h₁) ((s.due h₁).erase (.woken task)).length
      (s.moving h₁).length) ↔ s.WokenFor task h := by
  apply forall_congr'
  intro h₁
  apply forall_congr'
  intro ch₁
  constructor
  · intro hserved hne hch₁
    exact (MpmcChannel.served_erase (hP.served h₁ ch₁ hch₁) OtherWaits.waitsOn).1 (hserved hne hch₁)
  · intro hwoken hne hch₁
    exact (MpmcChannel.served_erase (hP.served h₁ ch₁ hch₁) OtherWaits.waitsOn).2 (hwoken hne hch₁)

/-! ### Senders -/

theorem admits_iff : ch.admits = true ↔ ch.closed = false ∧ ch.isFull = false := by
  unfold MpmcChannel.admits
  cases ch.closed <;> cases ch.isFull <;> decide

theorem send_of_admits (h : ch.admits = true) (v : Int64) : (ch.send v).1 =
    { ch with queue := ch.queue ++ [ch.next v], sent := ch.sent ++ [ch.next v] } := by
  obtain ⟨hopen, hroom⟩ := admits_iff.1 h
  unfold MpmcChannel.send
  rw [if_neg (by rw [hopen]; exact Bool.false_ne_true), MpmcChannel.trySend_of_room hroom]
  rfl

theorem send_of_not_admits (h : ch.admits = false) (v : Int64) : (ch.send v).1 = ch := by
  unfold MpmcChannel.admits at h
  unfold MpmcChannel.send
  cases hclosed : ch.closed with
  | true => rfl
  | false =>
    rw [hclosed] at h
    rw [MpmcChannel.trySend_eq_none.2 (by simpa using h)]
    rfl

theorem sendWithTask_of_admits (h : ch.admits = true) (v : Int64) : (ch.sendWithTask v task).1 =
      { ch with queue := ch.queue ++ [ch.next v], sent := ch.sent ++ [ch.next v] } := by
  obtain ⟨hopen, hroom⟩ := admits_iff.1 h
  unfold MpmcChannel.sendWithTask
  rw [if_neg (by rw [hopen]; exact Bool.false_ne_true), MpmcChannel.trySend_of_room hroom]
  rfl

omit [DecidableEq T] in
theorem noneStranded_iff_found {f : MpmcChannel → MpmcChannel}
    {cond : MpmcChannel → Prop} (hP : s.NoneStranded) (hw : Changes s.world w' h f)
    (hmissing : s.world.chans h = none → g = s)
    (hfound : ∀ ch, s.world.chans h = some ch → ((g.withWorld w').NoneStranded ↔ cond ch)) :
    (g.withWorld w').NoneStranded ↔ ∀ ch, s.world.chans h = some ch → cond ch := by
  cases hch : s.world.chans h with
  | none =>
    constructor
    · intro _ ch hch'
      cases hch'
    · intro _
      rw [hmissing hch]
      exact noneStranded_same hP (hw.missing hch)
  | some ch =>
    rw [hfound ch hch]
    constructor
    · intro hcond ch' hch'
      cases hch'
      exact hcond
    · exact fun hcond => hcond ch rfl

omit [DecidableEq T] in
theorem noneStranded_sendWithTask (hP : s.NoneStranded)
    (hw : Changes s.world w' h fun ch => (ch.sendWithTask v task).1) :
    (s.withWorld w').NoneStranded ↔ ∀ ch, s.world.chans h = some ch → ch.admits = true →
      s.SpareWakeup (s.waitsOn h) h ch := by
  apply noneStranded_iff_found hP hw fun _ => rfl
  intro ch hch
  have hserved := hP.served h ch hch
  rw [noneStranded_iff_one hP (hw.found ch hch) rfl (fun _ _ => rfl) (fun _ _ => rfl) rfl]
  cases hadmits : ch.admits with
  | true =>
    rw [sendWithTask_of_admits hadmits, MpmcChannel.served_push hserved]
    exact ⟨fun hspare _ => hspare, fun hspare => hspare rfl⟩
  | false =>
    refine ⟨fun _ h => (by cases h), fun _ => ?_⟩
    unfold MpmcChannel.sendWithTask
    by_cases hclosed : ch.closed = true
    · rw [if_pos hclosed]
      exact hserved
    · have hfull : ch.isFull = true := by
        unfold MpmcChannel.admits at hadmits
        simpa [hclosed] using hadmits
      rw [if_neg hclosed, MpmcChannel.trySend_eq_none.2 hfull]
      exact hserved.park hfull

variable {t : T} {handles : List Int64} {m : Message}

omit [DecidableEq T] in
theorem noneStranded_sendAndWake (hP : s.NoneStranded)
    (hw : Changes s.world w' h fun ch => (ch.send v).1) :
    ((if (s.world.chans h).any (·.admits) then s.goesToWake t h else s).withWorld
      w').NoneStranded := by
  cases hch : s.world.chans h with
  | none => exact noneStranded_same hP (hw.missing hch)
  | some ch =>
    have hserved := hP.served h ch hch
    rw [any_some]
    cases hadmits : ch.admits with
    | true =>
      rw [if_pos rfl, noneStranded_iff_one (g := s.goesToWake t h) hP (hw.found ch hch) rfl
        (fun _ hne => update_of_ne hne ..) (fun _ _ => rfl) rfl]
      change (ch.send v).1.Served _ (update s.due h _ h).length (s.moving h).length
      rw [update_self, length_append, length_singleton, send_of_admits hadmits]
      exact MpmcChannel.served_push_due hserved
    | false =>
      rw [if_neg Bool.false_ne_true, noneStranded_iff_one hP (hw.found ch hch) rfl
        (fun _ _ => rfl) (fun _ _ => rfl) rfl]
      rw [send_of_not_admits hadmits]
      exact hserved

theorem noneStranded_moves (hP : s.NoneStranded)
    (hw : Changes s.world w' h fun ch => ch.wakeSender.1) :
    ((s.moves t h).withWorld w').NoneStranded ↔ ∀ ch, s.world.chans h = some ch →
      ch.waitingSenders ≠ [] → ch.isFull = false → s.SpareWakeup (s.waitsOn h) h ch := by
  cases hch : s.world.chans h with
  | none =>
    constructor
    · intro _ ch hch'
      cases hch'
    · intro _
      refine ⟨fun h₁ ch₁ hch₁ => ?_, hP.wasted⟩
      have hold : s.world.chans h₁ = some ch₁ := by
        rw [← hw.missing hch]
        exact hch₁
      have hne : h₁ ≠ h := by
        rintro rfl
        rw [hch] at hold
        cases hold
      change ch₁.Served _ _ (update s.moving h _ h₁).length
      rw [update_of_ne hne]
      exact hP.served h₁ ch₁ hold
  | some ch =>
    have hserved := hP.served h ch hch
    rw [noneStranded_iff_one (g := s.moves t h) hP (hw.found ch hch) rfl (fun _ _ => rfl)
      (fun _ hne => update_of_ne hne ..) rfl]
    change ch.wakeSender.1.Served _ (s.due h).length (update s.moving h _ h).length ↔ _
    rw [update_self]
    have hcond : (∀ ch', some ch = some ch' → ch'.waitingSenders ≠ [] → ch'.isFull = false →
        s.SpareWakeup (s.waitsOn h) h ch') ↔ (ch.waitingSenders ≠ [] → ch.isFull = false →
          s.SpareWakeup (s.waitsOn h) h ch) := by
      refine ⟨fun hall => hall ch rfl, fun hone ch' hch' => ?_⟩
      cases hch'
      exact hone
    rw [hcond]
    cases hparked : ch.waitingSenders with
    | nil =>
      rw [MpmcChannel.wakeSender_of_nil hparked]
      refine ⟨fun _ h => absurd rfl h, fun _ => ⟨hserved.receivers, absurd hparked⟩⟩
    | cons sender senders =>
      have hne : ch.waitingSenders ≠ [] := by
        rw [hparked]
        exact cons_ne_nil _ _
      have hlen : (s.moving h).length ≤ ((s.moving h).erase t).length + 1 := by
        have hle := le_length_erase (a := t) (l := s.moving h)
        omega
      have hstep := MpmcChannel.wakeSender_step hparked
      cases hfull : ch.isFull with
      | true =>
        rw [hfull, if_pos rfl] at hstep
        generalize ch.wakeSender.1 = ch' at hstep
        cases hstep with
        | lose _ _ => exact ⟨fun _ _ h => (by cases h), fun _ => hserved.full hfull⟩
      | false =>
        rw [hfull, if_neg Bool.false_ne_true] at hstep
        generalize ch.wakeSender.1 = ch' at hstep
        cases hstep with
        | move hwaiting _ =>
          rw [MpmcChannel.served_move hserved hne hlen]
          exact ⟨fun hspare _ _ => hspare, fun hspare => hspare (cons_ne_nil _ _) rfl⟩

/-! ### Receivers -/

theorem le_erase_succ {α : Type} [DecidableEq α] (x : α) (xs : List α) :
    xs.length ≤ (xs.erase x).length + 1 := by
  have hle := le_length_erase (a := x) (l := xs)
  omega

theorem noneStranded_takes
    (hP : s.NoneStranded) (hch : s.world.chans h = some ch) (hqueue : ch.queue = m :: queue)
    (hchans : w'.chans = update s.world.chans h (some { ch with queue, received }))
    (hwaits : g.waits = (s.settles task).waits) (hdue : g.due = (s.settles task).due)
    (hmoving : ∀ h₁, h₁ ≠ h → g.moving h₁ = s.moving h₁) (hwasted : g.wasted = s.wasted) :
    (g.withWorld w').NoneStranded ↔ s.WokenFor task h ∧
      (ch.waitingSenders ≠ [] → ch.capacity < ch.queue.length + (g.moving h).length) := by
  have hon : ∀ h, g.waitsOn h ↔ s.OtherWaits task h := waitsOn_awake hwaits
  rw [noneStranded_iff_served hchans (hwasted.trans hP.wasted), and_comm]
  refine and_congr ?_ ?_
  · rw [← wokenFor_iff hP]
    apply forall_congr'
    intro h₁
    apply forall_congr'
    intro ch₁
    apply forall_congr'
    intro hne
    rw [hmoving h₁ hne, hdue, propext (hon h₁)]
    rfl
  · rw [propext (hon h), hdue]
    exact MpmcChannel.served_take (hP.served h ch hch) OtherWaits.waitsOn hqueue (le_erase_succ ..)

theorem noneStranded_misses (hP : s.NoneStranded) (hch : s.world.chans h = some ch)
    (hqueue : ch.queue = []) (hchans : w'.chans = update s.world.chans h (some ch)) :
    ((s.misses task h).withWorld w').NoneStranded := by
  have hwaits : (s.misses task h).waits = update s.waits task [] := rfl
  have hon := waitsOn_awake hwaits
  rw [noneStranded_iff_served (g := s.misses task h) hchans hP.wasted]
  constructor
  · refine ⟨fun _ _ => ?_, (hP.served h ch hch).senders⟩
    rw [hqueue]
    exact Nat.zero_le _
  · intro h₁ ch₁ hne hch₁
    rw [propext (hon h₁)]
    change ch₁.Served _ (update s.due h _ h₁).length _
    rw [update_of_ne hne]
    exact (hP.served h₁ ch₁ hch₁).weaken OtherWaits.waitsOn le_rfl le_rfl

theorem waitsOn_sleeps (h : Int64) :
    (s.sleeps task handles).waitsOn h ↔ h ∈ handles ∨ s.OtherWaits task h := by
  change (∃ task', h ∈ update s.waits task handles task') ↔ _
  constructor
  · rintro ⟨task', hmem⟩
    by_cases heq : task' = task
    · subst heq
      rw [update_self] at hmem
      exact .inl hmem
    · rw [update_of_ne heq] at hmem
      exact .inr ⟨task', heq, hmem⟩
  · rintro (hmem | ⟨task', hne, hmem⟩)
    · exact ⟨task, by rw [update_self]; exact hmem⟩
    · exact ⟨task', by rw [update_of_ne hne]; exact hmem⟩

theorem noneStranded_sleeps {waiting : List UInt64} (hP : s.NoneStranded)
    (hch : s.world.chans h = some ch) (hqueue : ch.queue = []) (hchans : w'.chans =
      update s.world.chans h (some { ch with waitingReceivers := waiting })) :
    ((s.sleeps task [h]).withWorld w').NoneStranded ↔ s.WokenFor task h := by
  rw [noneStranded_iff_served (g := s.sleeps task [h]) hchans hP.wasted, ← wokenFor_iff hP]
  have hself : MpmcChannel.Served { ch with waitingReceivers := waiting }
      ((s.sleeps task [h]).waitsOn h) ((s.sleeps task [h]).due h).length
      ((s.sleeps task [h]).moving h).length := by
    refine ⟨fun _ _ => ?_, (hP.served h ch hch).senders⟩
    rw [hqueue]
    exact Nat.zero_le _
  rw [and_iff_right hself]
  apply forall_congr'
  intro h₁
  apply forall_congr'
  intro ch₁
  apply forall_congr'
  intro hne
  rw [propext (waitsOn_sleeps h₁), mem_singleton, or_iff_right hne]
  rfl

theorem recv_of_nil (h : ch.queue = []) : ch.recv.1 = ch := by
  unfold MpmcChannel.recv MpmcChannel.tryRecv
  rw [h]

theorem recv_of_cons (h : ch.queue = m :: queue) :
    ch.recv.1 = { ch with queue, received := ch.received ++ [m] } := by
  unfold MpmcChannel.recv MpmcChannel.tryRecv
  rw [h]

theorem looks_of_nil (hch : s.world.chans h = some ch) (hqueue : ch.queue = []) :
    s.looks task h = s.misses task h := by
  unfold looks
  rw [hch]
  exact if_pos hqueue

theorem looks_of_cons (hch : s.world.chans h = some ch) (hqueue : ch.queue ≠ []) :
    s.looks task h = s.settles task := by
  unfold looks
  rw [hch]
  exact if_neg hqueue

theorem looks_of_none (hch : s.world.chans h = none) : s.looks task h = s := by
  unfold looks
  rw [hch]

theorem noneStranded_probe (hP : s.NoneStranded) (hw : Changes s.world w' h fun ch => ch.recv.1) :
    ((s.looks task h).withWorld w').NoneStranded ↔ ∀ ch, s.world.chans h = some ch →
      ch.queue ≠ [] → s.WokenFor task h ∧ s.SpareMove h ch := by
  apply noneStranded_iff_found hP hw looks_of_none
  intro ch hch
  have hchans := hw.found ch hch
  cases hqueue : ch.queue with
  | nil =>
    rw [recv_of_nil hqueue] at hchans
    rw [looks_of_nil hch hqueue]
    exact ⟨fun _ h => absurd rfl h, fun _ => noneStranded_misses hP hch hqueue hchans⟩
  | cons m queue =>
    have hne : ch.queue ≠ [] := by
      rw [hqueue]
      exact cons_ne_nil _ _
    rw [recv_of_cons hqueue] at hchans
    rw [looks_of_cons hch hne,
      noneStranded_takes (g := s.settles task) hP hch hqueue hchans rfl rfl (fun _ _ => rfl) rfl]
    exact ⟨fun h _ => h, fun h => h (cons_ne_nil _ _)⟩

theorem noneStranded_recvWithTask (hP : s.NoneStranded)
    (hw : Changes s.world w' h fun ch => (ch.recvWithTask task).1) :
    ((s.looksOrSleeps task h).withWorld w').NoneStranded ↔ ∀ ch, s.world.chans h = some ch →
      (ch.queue ≠ [] ∨ ch.closed = false → s.WokenFor task h) ∧
        (ch.queue ≠ [] → s.SpareMove h ch) := by
  apply noneStranded_iff_found hP hw
  · intro hch
    unfold looksOrSleeps
    rw [hch]
    exact looks_of_none hch
  · intro ch hch
    have hchans := hw.found ch hch
    unfold looksOrSleeps
    rw [hch, any_some]
    cases hqueue : ch.queue with
    | nil =>
      have hrecv : (ch.recvWithTask task).1 =
          if ch.closed then ch else ch.addWaitingReceiver task := by
        unfold MpmcChannel.recvWithTask MpmcChannel.tryRecv
        rw [hqueue]
        cases ch.closed <;> rfl
      rw [hrecv] at hchans
      cases hclosed : ch.closed with
      | true =>
        rw [hclosed, if_pos rfl] at hchans
        rw [if_neg (by simp), looks_of_nil hch hqueue]
        refine ⟨fun _ => ⟨fun h => ?_, absurd rfl⟩,
          fun _ => noneStranded_misses hP hch hqueue hchans⟩
        rcases h with h | h
        · exact absurd rfl h
        · cases h
      | false =>
        rw [hclosed, if_neg Bool.false_ne_true] at hchans
        rw [if_pos (by simp), noneStranded_sleeps hP hch hqueue hchans]
        exact ⟨fun h => ⟨fun _ => h, absurd rfl⟩, fun h => h.1 (.inr rfl)⟩
    | cons m queue =>
      have hne : ch.queue ≠ [] := by
        rw [hqueue]
        exact cons_ne_nil _ _
      have hrecv : (ch.recvWithTask task).1 = ch.recv.1 := by
        unfold MpmcChannel.recvWithTask MpmcChannel.recv MpmcChannel.tryRecv
        rw [hqueue]
      rw [hrecv, recv_of_cons hqueue] at hchans
      rw [if_neg (by simp), looks_of_cons hch hne,
        noneStranded_takes (g := s.settles task) hP hch hqueue hchans rfl rfl (fun _ _ => rfl) rfl]
      constructor
      · exact fun h => ⟨fun _ => h.1, fun _ => h.2⟩
      · exact fun h => ⟨h.1 (.inl (cons_ne_nil _ _)), h.2 (cons_ne_nil _ _)⟩

theorem noneStranded_recvAndWake (hP : s.NoneStranded)
    (hw : Changes s.world w' h fun ch => ch.recv.1) :
    ((if (s.world.chans h).any fun ch => ch.first.any gotValue then (s.looks task h).goesToMove t h
      else s.looks task h).withWorld w').NoneStranded ↔ ∀ ch, s.world.chans h = some ch →
      ch.queue ≠ [] → s.WokenFor task h ∧ (ch.first.any gotValue = false → s.SpareMove h ch) := by
  apply noneStranded_iff_found hP hw
  · intro hch
    rw [hch]
    exact looks_of_none hch
  · intro ch hch
    have hchans := hw.found ch hch
    rw [hch, any_some]
    cases hqueue : ch.queue with
    | nil =>
      rw [recv_of_nil hqueue] at hchans
      have hfirst : ch.first.any gotValue = false := by
        unfold MpmcChannel.first
        rw [hqueue]
        rfl
      rw [hfirst, if_neg Bool.false_ne_true, looks_of_nil hch hqueue]
      exact ⟨fun _ h => absurd rfl h, fun _ => noneStranded_misses hP hch hqueue hchans⟩
    | cons m queue =>
      have hne : ch.queue ≠ [] := by
        rw [hqueue]
        exact cons_ne_nil _ _
      rw [recv_of_cons hqueue] at hchans
      rw [looks_of_cons hch hne]
      cases hgot : ch.first.any gotValue with
      | false =>
        rw [if_neg Bool.false_ne_true, noneStranded_takes (g := s.settles task) hP hch hqueue
          hchans rfl rfl (fun _ _ => rfl) rfl]
        exact ⟨fun h _ => ⟨h.1, fun _ => h.2⟩,
          fun h => ⟨(h (cons_ne_nil _ _)).1, (h (cons_ne_nil _ _)).2 rfl⟩⟩
      | true =>
        -- the receiver goes on to move a parked value into the slot it freed
        have hmoving : ch.waitingSenders ≠ [] → ch.capacity <
            ch.queue.length + (((s.settles task).goesToMove t h).moving h).length := by
          intro hparked
          have hroom := ((hP.served h ch hch).senders hparked).2
          change _ < _ + (update s.moving h _ h).length
          rw [update_self, length_append, length_singleton]
          change _ < _ + ((s.moving h).length + 1)
          omega
        rw [if_pos rfl, noneStranded_takes (g := (s.settles task).goesToMove t h) hP hch hqueue
          hchans rfl rfl (fun _ hne => update_of_ne hne ..) rfl, and_iff_left hmoving]
        exact ⟨fun h _ => ⟨h, fun hf => (by cases hf)⟩, fun h => (h (cons_ne_nil _ _)).1⟩

theorem noneStranded_register (hP : s.NoneStranded)
    (hchans : ∀ h, (s.world.chans h = none ∧ w'.chans h = none) ∨ ∃ ch waiting,
      s.world.chans h = some ch ∧ w'.chans h = some { ch with waitingReceivers := waiting }) :
    ((s.sleeps task (handles.filter s.isOpen)).withWorld w').NoneStranded ↔
      ∀ h ch, s.world.chans h = some ch → ch.closed = false →
        if h ∈ handles then ch.queue.length ≤ ((s.due h).erase (.woken task)).length
        else .woken task ∈ s.due h → s.SpareWakeup (s.OtherWaits task h) h ch := by
  have hserved : ((s.sleeps task (handles.filter s.isOpen)).withWorld w').NoneStranded ↔
      ∀ h ch, s.world.chans h = some ch →
        ch.Served ((s.sleeps task (handles.filter s.isOpen)).waitsOn h)
          ((s.due h).erase (.woken task)).length (s.moving h).length := by
    constructor
    · intro hP' h ch hch
      rcases hchans h with ⟨hn, _⟩ | ⟨ch₁, waiting, hs, hs'⟩
      · rw [hch] at hn
        cases hn
      · rw [hch] at hs
        cases hs
        exact ⟨(hP'.served h _ hs').receivers, (hP'.served h _ hs').senders⟩
    · intro hall
      refine ⟨fun h ch hch => ?_, hP.wasted⟩
      rcases hchans h with ⟨_, hn⟩ | ⟨ch₁, waiting, hs, hs'⟩
      · cases hn.symm.trans hch
      · cases hs'.symm.trans hch
        exact ⟨(hall h ch₁ hs).receivers, (hall h ch₁ hs).senders⟩
  rw [hserved]
  apply forall_congr'
  intro h
  apply forall_congr'
  intro ch
  apply forall_congr'
  intro hch
  have hopen_iff : s.isOpen h = true ↔ ch.closed = false := by
    unfold isOpen
    rw [hch]
    simp
  split_ifs with hmem
  · constructor
    · intro hs hopen
      apply hs.receivers hopen
      rw [waitsOn_sleeps]
      exact .inl (mem_filter.2 ⟨hmem, hopen_iff.2 hopen⟩)
    · exact fun hle => ⟨fun hopen _ => hle hopen, (hP.served h ch hch).senders⟩
  · rw [propext (waitsOn_sleeps h), or_iff_right fun hin => hmem (mem_filter.1 hin).1,
      MpmcChannel.served_erase (hP.served h ch hch) OtherWaits.waitsOn]
    constructor
    · exact fun hspare _ hdue hopen hw => hspare hdue hopen hw
    · exact fun hspare hdue hopen hw => hspare hopen hdue hopen hw

end Scene

end Arth.Runtime
