import Arth.Runtime.Pool

/-!
# Who has which task

At any time a task is in one place: in the queue, with one thread, in the list of waiters of
the task it waits for, or done. `Placed` says so, and what holds of the task there. It is an
invariant of the pool for every interleaving: the right to run a task is never given twice.

* `Stage` — what holds of a task with a thread, by the step that the thread is at.
* `Placed.next` — every step keeps the places.
-/

namespace Arth.Runtime

open List Function

/-! ## Stages of a task -/

namespace ConcurrentTask

/-- The body of the task was not started yet. -/
structure Unstarted (k : ConcurrentTask) (state : ConcurrentTaskState) : Prop where
  state : k.state = state
  savedIp : k.savedIp = none
  starts : k.starts = 0
  spawns : k.spawns = 0
  result : k.result = none
  results : k.results = []

/-- The body of the task was started once, and there is no result yet. -/
structure Begun (k : ConcurrentTask) (state : ConcurrentTaskState) : Prop where
  state : k.state = state
  starts : k.starts = 1
  spawns : k.spawns ≤ 1
  result : k.result = none
  results : k.results = []

/-- The body of the task was started once, and one result was written. -/
structure Written (k : ConcurrentTask) (state : ConcurrentTaskState) : Prop where
  state : k.state = state
  starts : k.starts = 1
  spawns : k.spawns ≤ 1
  written : ∃ v, k.result = some v ∧ k.results = [v]

variable {k : ConcurrentTask} {state state' : ConcurrentTaskState}

theorem Unstarted.setState (h : k.Unstarted state) :
    ConcurrentTask.Unstarted { k with state := state' } state' :=
  ⟨rfl, h.savedIp, h.starts, h.spawns, h.result, h.results⟩

theorem Begun.setState (h : k.Begun state) :
    ConcurrentTask.Begun { k with state := state' } state' :=
  ⟨rfl, h.starts, h.spawns, h.result, h.results⟩

theorem Written.setState (h : k.Written state) :
    ConcurrentTask.Written { k with state := state' } state' :=
  ⟨rfl, h.starts, h.spawns, h.written⟩

end ConcurrentTask

/-- What holds of a task with a thread. -/
inductive Stage where
  /-- It has a number only. -/
  | allocated
  /-- It may be run: from its start, or because the task it waits for is complete. -/
  | pending
  | running
  | woken
  | awaiting (target : Nat)
  /-- Its body runs, from its start. -/
  | unstarted
  | started
  | begun
  /-- It has spawned a sub-task, which gets into the map later. -/
  | spawning (sub : Nat)
  | spawned (sub : Nat)
  | saving (sub : Nat)
  | waiting (sub : Nat)
  /-- It is suspended, and it is not known that the task it waits for is complete. -/
  | suspended (sub : Nat)
  /-- It is. -/
  | released
  | written
  /-- It is complete, and its waiters are not woken. -/
  | finished
  /-- This does not happen. -/
  | never

namespace Pool

variable {T : Type}

def Completed (p : Pool T) (id : Nat) : Prop :=
  ∃ k, p.tasks id = some k ∧ k.Written .completed

/-- What a task keeps while it waits for another one, spawned later. -/
structure Waits (p : Pool T) (id : Nat) (k : ConcurrentTask) (target : Nat) : Prop where
  savedIp : k.savedIp ≠ none
  waitingOn : k.waitingOn = some target
  later : id < target
  exist : p.tasks target ≠ none

open ConcurrentTaskState in
/-- What holds of the task of a number at a stage. -/
def At (p : Pool T) (id : Nat) : Stage → Option ConcurrentTask → Prop
  | .allocated, k => k = none
  | _, none => False
  | .pending, some k => k.Unstarted pending ∨
      k.Begun pending ∧ ∃ target, p.Waits id k target ∧ p.Completed target
  | .running, some k => k.Unstarted running ∨
      k.Begun running ∧ ∃ target, p.Waits id k target ∧ p.Completed target
  | .woken, some k => k.Begun running ∧ ∃ target, p.Waits id k target ∧ p.Completed target
  | .awaiting target, some k => k.Begun running ∧ p.Waits id k target ∧ p.Completed target
  | .unstarted, some k => k.Unstarted running
  | .started, some k => k.Begun running ∧ k.spawns = 0
  | .begun, some k => k.Begun running
  | .spawning sub, some k => k.Begun running ∧ id < sub
  | .spawned sub, some k => k.Begun running ∧ id < sub ∧ p.tasks sub ≠ none
  | .saving sub, some k =>
    k.Begun running ∧ id < sub ∧ p.tasks sub ≠ none ∧ k.savedIp ≠ none
  | .waiting sub, some k => k.Begun running ∧ p.Waits id k sub
  | .suspended sub, some k => k.Begun suspended ∧ p.Waits id k sub
  | .released, some k =>
    k.Begun suspended ∧ ∃ target, p.Waits id k target ∧ p.Completed target
  | .written, some k => k.Written running
  | .finished, some k => k.Written completed
  | .never, some _ => False

end Pool

/-- The tasks with a thread, and their stages. -/
def PoolPc.carried : PoolPc → List (Nat × Stage)
  | .allocated id _ _ => [(id, .allocated)]
  | .submitting id => [(id, .pending)]
  | .found id => [(id, .pending)]
  | .refused id => [(id, .never)]
  | .running id => [(id, .running)]
  | .resuming id => [(id, .woken)]
  | .awaiting id target => [(id, .awaiting target)]
  | .resuspending id => [(id, .never)]
  | .fetching id _ => [(id, .begun)]
  | .adding id _ => [(id, .begun)]
  | .clearingIp id _ => [(id, .begun)]
  | .clearingLocals id _ => [(id, .begun)]
  | .clearingTarget id _ => [(id, .begun)]
  | .starting id => [(id, .unstarted)]
  | .spawning id => [(id, .started)]
  | .inserting id sub => [(id, .spawning sub), (sub, .allocated)]
  | .pushing id sub => [(id, .spawned sub), (sub, .pending)]
  | .checking id sub => [(id, .spawned sub)]
  | .reading id _ => [(id, .begun)]
  | .savingIp id sub => [(id, .spawned sub)]
  | .savingLocals id sub => [(id, .saving sub)]
  | .savingTarget id sub => [(id, .saving sub)]
  | .suspending id sub => [(id, .waiting sub)]
  | .registering id sub => [(id, .suspended sub)]
  | .completing id _ => [(id, .begun)]
  | .finishing id => [(id, .written)]
  | .taking id => [(id, .finished)]
  | .waking waiters => waiters.map (·, .released)
  | .reviving waiter waiters => (waiter, .released) :: waiters.map (·, .released)
  | .requeueing waiter waiters => (waiter, .pending) :: waiters.map (·, .released)
  | .client _ | .joining _ | .joined _ | .looping | .stopped | .seeking => []

def PoolPc.ids (pc : PoolPc) : List Nat := pc.carried.map (·.1)

namespace Pool

variable {T : Type}

/-- What a thread knows of a task that is done. -/
def Knows (p : Pool T) : PoolPc → Prop
  | .joined id => p.Completed id
  | .client (some (id, r)) => ∃ k, p.tasks id = some k ∧ k.Written .completed ∧ r = k.result
  | _ => True

/-- The list of waiters of a task. -/
def waitersOf (p : Pool T) (id : Nat) : List Nat := (p.tasks id).elim [] (·.waiters)

end Pool

/-- Where a task is. -/
inductive Place (T : Type) where
  | unborn
  | queued
  | carried (t : T)
  | waiting (target : Nat)
  | done

namespace Pool

variable {T : Type}

/-- What holds of a task by its place. -/
def Suits (p : Pool T) (id : Nat) : Place T → Prop
  | .unborn => p.tasks id = none
  | .queued => p.At id .pending (p.tasks id)
  | .carried t => ∀ stage, (id, stage) ∈ (p.threads t).carried → p.At id stage (p.tasks id)
  | .waiting target => p.At id (.suspended target) (p.tasks id)
  | .done => p.Completed id

/-- Every task is in its place. -/
structure Placed (p : Pool T) (place : Nat → Place T) : Prop where
  unborn : ∀ id, p.nextTaskId ≤ id → place id = .unborn
  queued : ∀ id, id ∈ p.injector ↔ place id = .queued
  nodup_injector : p.injector.Nodup
  carried : ∀ t id, id ∈ (p.threads t).ids ↔ place id = .carried t
  nodup_ids : ∀ t, (p.threads t).ids.Nodup
  waiting : ∀ target id, id ∈ p.waitersOf target ↔ place id = .waiting target
  nodup_waiters : ∀ target, (p.waitersOf target).Nodup
  suits : ∀ id, p.Suits id (place id)
  knows : ∀ t, p.Knows (p.threads t)

variable {p p' : Pool T} {place place' : Nat → Place T} {t : T} {pc : PoolPc} {id : Nat}
  {k : ConcurrentTask} {stage : Stage} {o o' : Option ConcurrentTask}

/-! ## What a step leaves -/

/-- The same task, with other waiters. -/
def Alike (o o' : Option ConcurrentTask) : Prop := ∃ waiters, o' = o.map ({ · with waiters })

theorem alike_refl : Alike o o := by
  cases o with
  | none => exact ⟨[], rfl⟩
  | some k => exact ⟨k.waiters, rfl⟩

/-- Tasks stay in the map, and those with a result stay as they are. -/
structure Grows (p p' : Pool T) : Prop where
  exist : ∀ id, p.tasks id ≠ none → p'.tasks id ≠ none
  completed : ∀ id k, p.tasks id = some k → k.Written .completed → Alike (some k) (p'.tasks id)

theorem Grows.of_tasks (h : p'.tasks = p.tasks) : Grows p p' where
  exist id hid := by rwa [h]
  completed id k hk _ := by
    rw [h, hk]
    exact alike_refl

theorem Grows.mono (h : Grows p p') (hid : p.Completed id) : p'.Completed id := by
  obtain ⟨k, hk, hw⟩ := hid
  obtain ⟨waiters, halike⟩ := h.completed id k hk hw
  exact ⟨_, halike, hw.state, hw.starts, hw.spawns, hw.written⟩

theorem Waits.grows {target : Nat} (h : p.Waits id k target) (hgrows : Grows p p') :
    p'.Waits id k target :=
  ⟨h.savedIp, h.waitingOn, h.later, hgrows.exist target h.exist⟩

theorem released_grows (hgrows : Grows p p')
    (h : ∃ target, p.Waits id k target ∧ p.Completed target) :
    ∃ target, p'.Waits id k target ∧ p'.Completed target := by
  obtain ⟨target, hwaits, hdone⟩ := h
  exact ⟨target, hwaits.grows hgrows, hgrows.mono hdone⟩

theorem At.grows (h : p.At id stage o) (hgrows : Grows p p') : p'.At id stage o := by
  cases o with
  | none =>
    cases stage with
    | allocated => exact h
    | _ => cases h
  | some k =>
    cases stage with
    | pending | running => exact h.imp_right fun h => ⟨h.1, released_grows hgrows h.2⟩
    | woken | released => exact ⟨h.1, released_grows hgrows h.2⟩
    | awaiting target => exact ⟨h.1, h.2.1.grows hgrows, hgrows.mono h.2.2⟩
    | spawned sub => exact ⟨h.1, h.2.1, hgrows.exist sub h.2.2⟩
    | saving sub => exact ⟨h.1, h.2.1, hgrows.exist sub h.2.2.1, h.2.2.2⟩
    | waiting | suspended => exact ⟨h.1, h.2.grows hgrows⟩
    | _ => exact h

theorem unstarted_waiters {state : ConcurrentTaskState} (waiters : List Nat)
    (h : k.Unstarted state) : ConcurrentTask.Unstarted { k with waiters } state :=
  ⟨h.state, h.savedIp, h.starts, h.spawns, h.result, h.results⟩

theorem begun_waiters {state : ConcurrentTaskState} (waiters : List Nat) (h : k.Begun state) :
    ConcurrentTask.Begun { k with waiters } state :=
  ⟨h.state, h.starts, h.spawns, h.result, h.results⟩

theorem Waits.alike {target : Nat} (waiters : List Nat) (h : p.Waits id k target) :
    p.Waits id { k with waiters } target := ⟨h.savedIp, h.waitingOn, h.later, h.exist⟩

theorem released_alike (waiters : List Nat)
    (h : ∃ target, p.Waits id k target ∧ p.Completed target) :
    ∃ target, p.Waits id { k with waiters } target ∧ p.Completed target := by
  obtain ⟨target, hwaits, hdone⟩ := h
  exact ⟨target, hwaits.alike waiters, hdone⟩

theorem At.alike (h : p.At id stage o) (halike : Alike o o') : p.At id stage o' := by
  obtain ⟨waiters, rfl⟩ := halike
  cases o with
  | none => exact h
  | some k =>
    cases stage with
    | allocated | never => cases h
    | pending | running =>
      exact h.imp (unstarted_waiters waiters)
        fun h => ⟨begun_waiters waiters h.1, released_alike waiters h.2⟩
    | woken | released => exact ⟨begun_waiters waiters h.1, released_alike waiters h.2⟩
    | awaiting target => exact ⟨begun_waiters waiters h.1, h.2.1.alike waiters, h.2.2⟩
    | unstarted => exact unstarted_waiters waiters h
    | started | spawning | spawned | saving => exact ⟨begun_waiters waiters h.1, h.2⟩
    | begun => exact begun_waiters waiters h
    | waiting | suspended => exact ⟨begun_waiters waiters h.1, h.2.alike waiters⟩
    | written | finished => exact ⟨h.state, h.starts, h.spawns, h.written⟩

theorem Knows.grows (h : p.Knows pc) (hgrows : Grows p p') : p'.Knows pc := by
  cases pc with
  | joined id => exact hgrows.mono h
  | client joined =>
    cases joined with
    | none => trivial
    | some r =>
      obtain ⟨k, hk, hw, hr⟩ := h
      obtain ⟨waiters, halike⟩ := hgrows.completed _ k hk hw
      exact ⟨_, halike, ⟨hw.state, hw.starts, hw.spawns, hw.written⟩, hr⟩
  | _ => trivial

theorem tasks_modify (f : ConcurrentTask → ConcurrentTask) :
    (p.modify id f).tasks id = (p.tasks id).map f := update_self ..

theorem tasks_modify_of_ne {id' : Nat} (hne : id' ≠ id) (f : ConcurrentTask → ConcurrentTask) :
    (p.modify id f).tasks id' = p.tasks id' := update_of_ne hne ..

variable {f : ConcurrentTask → ConcurrentTask}

theorem grows_modify (hk : p.tasks id = some k)
    (hnot : k.state ≠ .completed) : Grows p (p.modify id f) where
  exist id' hid' := by
    by_cases heq : id' = id
    · subst heq
      rw [tasks_modify, hk]
      exact Option.some_ne_none _
    · rwa [tasks_modify_of_ne heq]
  completed id' k' hk' hw := by
    by_cases heq : id' = id
    · subst heq
      rw [hk] at hk'
      cases hk'
      exact absurd hw.state hnot
    · rw [tasks_modify_of_ne heq, hk']
      exact alike_refl

theorem waitersOf_modify (hf : ∀ k, (f k).waiters = k.waiters)
    (target : Nat) : (p.modify id f).waitersOf target = p.waitersOf target := by
  unfold waitersOf
  by_cases heq : target = id
  · subst heq
    rw [tasks_modify]
    cases p.tasks target with
    | none => rfl
    | some k => exact hf k
  · rw [tasks_modify_of_ne heq]

section

variable [DecidableEq T]

/-- **Moves of one thread.** What a step has to show if tasks move between their thread and
other places only. -/
theorem Placed.move (h : p.Placed place) (hgrows : Grows p p')
    (hthreads : p'.threads = update p.threads t pc)
    (hforeign : ∀ id t', t' ≠ t → (place' id = .carried t' ↔ place id = .carried t'))
    (hsame : ∀ id, place id ≠ .carried t → place' id = place id → Alike (p.tasks id) (p'.tasks id))
    (hmoved : ∀ id, place' id ≠ place id ∨ place id = .carried t → p'.Suits id (place' id))
    (hunborn : ∀ id, p'.nextTaskId ≤ id → place' id = .unborn)
    (hqueued : ∀ id, id ∈ p'.injector ↔ place' id = .queued) (hinjector : p'.injector.Nodup)
    (hids : ∀ id, id ∈ pc.ids ↔ place' id = .carried t) (hnodup : pc.ids.Nodup)
    (hwaiting : ∀ target id, id ∈ p'.waitersOf target ↔ place' id = .waiting target)
    (hwaiters : ∀ target, (p'.waitersOf target).Nodup) (hknows : p'.Knows pc) :
    p'.Placed place' := by
  have hself : p'.threads t = pc := by rw [hthreads, update_self]
  have hother : ∀ t', t' ≠ t → p'.threads t' = p.threads t' := by
    intro t' ht
    rw [hthreads, update_of_ne ht]
  refine ⟨hunborn, hqueued, hinjector, ?_, ?_, hwaiting, hwaiters, ?_, ?_⟩
  · intro t' id
    by_cases ht : t' = t
    · subst ht
      rw [hself]
      exact hids id
    · rw [hother t' ht, h.carried t' id, hforeign id t' ht]
  · intro t'
    by_cases ht : t' = t
    · subst ht
      rwa [hself]
    · rw [hother t' ht]
      exact h.nodup_ids t'
  · intro id
    by_cases hin : place' id ≠ place id ∨ place id = .carried t
    · exact hmoved id hin
    · obtain ⟨heq, hne⟩ := not_or.1 hin
      have heq := not_not.1 heq
      have halike := hsame id hne heq
      have hsuits := h.suits id
      rw [heq]
      -- a place elsewhere, so the thread of a carried task did not move
      cases hplace : place id with
      | unborn =>
        rw [hplace] at hsuits
        obtain ⟨waiters, htask⟩ := halike
        change p'.tasks id = none
        rw [htask, hsuits]
        rfl
      | queued | waiting =>
        rw [hplace] at hsuits
        exact At.alike (At.grows hsuits hgrows) halike
      | carried t' =>
        rw [hplace] at hsuits
        have ht : t' ≠ t := by
          rintro rfl
          exact hne hplace
        intro stage hstage
        rw [hother t' ht] at hstage
        exact At.alike (At.grows (hsuits stage hstage) hgrows) halike
      | done =>
        rw [hplace] at hsuits
        exact hgrows.mono hsuits
  · intro t'
    by_cases ht : t' = t
    · subst ht
      rwa [hself]
    · rw [hother t' ht]
      exact (h.knows t').grows hgrows

theorem Placed.keep (h : p.Placed place) (hgrows : Grows p p')
    (hthreads : p'.threads = update p.threads t pc) (hids : pc.ids = (p.threads t).ids)
    (hsame : ∀ id, id ∉ pc.ids → p'.tasks id = p.tasks id) (hnext : p'.nextTaskId = p.nextTaskId)
    (hinjector : p'.injector = p.injector)
    (hwaiters : ∀ target, p'.waitersOf target = p.waitersOf target)
    (hstages : ∀ c ∈ pc.carried, p'.At c.1 c.2 (p'.tasks c.1)) (hknows : p'.Knows pc) :
    p'.Placed place := by
  apply h.move hgrows hthreads (fun _ _ _ => Iff.rfl)
  · intro id hne _
    rw [hsame id (by rw [hids]; exact fun hin => hne ((h.carried t id).1 hin))]
    exact alike_refl
  · intro id hin
    rcases hin with hne | hin
    · exact absurd rfl hne
    · rw [hin]
      intro stage hstage
      rw [hthreads, update_self] at hstage
      exact hstages (id, stage) hstage
  · rw [hnext]
    exact h.unborn
  · rw [hinjector]
    exact h.queued
  · rw [hinjector]
    exact h.nodup_injector
  · rw [hids]
    exact h.carried t
  · rw [hids]
    exact h.nodup_ids t
  · intro target
    rw [hwaiters]
    exact h.waiting target
  · intro target
    rw [hwaiters]
    exact h.nodup_waiters target
  · exact hknows

theorem Placed.goto (h : p.Placed place) (hids : pc.ids = (p.threads t).ids)
    (hstages : ∀ c ∈ pc.carried, p.At c.1 c.2 (p.tasks c.1)) (hknows : p.Knows pc) :
    (p.goto t pc).Placed place := by
  have hgrows : Grows p (p.goto t pc) := .of_tasks rfl
  refine h.keep hgrows rfl hids (fun _ _ => rfl) rfl rfl (fun _ => rfl) ?_ (hknows.grows hgrows)
  exact fun c hc => At.grows (hstages c hc) hgrows

theorem Placed.change {stage' : Stage} (h : p.Placed place)
    (hpc : (p.threads t).ids = [id]) (hcarried : pc.carried = [(id, stage')])
    (hk : p.tasks id = some k) (hnot : k.state ≠ .completed)
    (hf : ∀ k, (f k).waiters = k.waiters) (hstage : p.At id stage' (some (f k)))
    (hknows : p.Knows pc) : ((p.modify id f).goto t pc).Placed place := by
  have hids : pc.ids = [id] := by
    unfold PoolPc.ids
    rw [hcarried]
    rfl
  have hmodify : Grows p (p.modify id f) := grows_modify hk hnot
  have hgrows : Grows p ((p.modify id f).goto t pc) := ⟨hmodify.exist, hmodify.completed⟩
  refine h.keep hgrows rfl (by rw [hids, hpc]) ?_ rfl rfl (waitersOf_modify hf) ?_
    (hknows.grows hgrows)
  · intro id' hid'
    rw [hids, mem_singleton] at hid'
    exact tasks_modify_of_ne hid' f
  · intro c hc
    rw [hcarried, mem_singleton] at hc
    subst hc
    have htask : ((p.modify id f).goto t pc).tasks id = some (f k) := by
      change (p.modify id f).tasks id = _
      rw [tasks_modify, hk]
      rfl
    rw [htask]
    exact At.grows hstage hgrows

/-! ### One task moves -/

section

variable {i : Nat} {q x : Place T}

/-- The list `l'` has the same ids as `l` apart from `i`, which it has just when `b` holds. -/
structure Gains (l l' : List Nat) (i : Nat) (b : Prop) : Prop where
  other : ∀ id, id ≠ i → (id ∈ l' ↔ id ∈ l)
  self : i ∈ l' ↔ b
  nodup : l'.Nodup

section

variable {l : List Nat} {b : Prop}

theorem Gains.same (hl : l.Nodup) (hi : i ∉ l) (hb : ¬ b) : Gains l l i b :=
  ⟨fun _ _ => .rfl, iff_of_false hi hb, hl⟩

theorem Gains.add (hl : l.Nodup) (hi : i ∉ l) (hb : b) : Gains l (l ++ [i]) i b where
  other id hid := by simp [hid]
  self := iff_of_true (by simp) hb
  nodup := by
    rw [nodup_append_comm, singleton_append, nodup_cons]
    exact ⟨hi, hl⟩

theorem Gains.tail (hl : (i :: l).Nodup) (hb : ¬ b) : Gains (i :: l) l i b where
  other id hid := by simp [hid]
  self := iff_of_false (nodup_cons.1 hl).1 hb
  nodup := (nodup_cons.1 hl).2

end

omit [DecidableEq T] in
theorem carried_ne {t' : T} (ht : t' ≠ t) : (.carried t : Place T) ≠ .carried t' := by
  rintro ⟨⟩
  exact ht rfl

theorem Placed.moveOne (h : p.Placed place) (i : Nat) (q : Place T) (hne : place i ≠ q)
    (hgrows : Grows p p') (hthreads : p'.threads = update p.threads t pc)
    (hfrom : ∀ t', t' ≠ t → place i ≠ .carried t') (hto : ∀ t', t' ≠ t → q ≠ .carried t')
    (hsame : ∀ id, place id ≠ .carried t → id ≠ i → Alike (p.tasks id) (p'.tasks id))
    (hsuits : p'.Suits i q) (hstages : ∀ c ∈ pc.carried, p'.At c.1 c.2 (p'.tasks c.1))
    (hunborn : ∀ id, p'.nextTaskId ≤ id → id ≠ i ∧ p.nextTaskId ≤ id)
    (hinjector : Gains p.injector p'.injector i (q = .queued))
    (hids : Gains (p.threads t).ids pc.ids i (q = .carried t))
    (hwaiters : ∀ target, Gains (p.waitersOf target) (p'.waitersOf target) i (q = .waiting target))
    (hknows : p'.Knows pc) : p'.Placed (update place i q) := by
  have hgains : ∀ {l l' x}, Gains l l' i (q = x) → (∀ id, id ∈ l ↔ place id = x) →
      ∀ id, id ∈ l' ↔ update place i q id = x := by
    intro l l' x hl hx id
    by_cases hid : id = i
    · rw [hid, update_self, hl.self]
    · rw [update_of_ne hid, hl.other id hid, hx]
  refine h.move hgrows hthreads ?_ ?_ ?_ ?_ (hgains hinjector h.queued) hinjector.nodup
    (hgains hids (h.carried t)) hids.nodup (fun target => hgains (hwaiters target) (h.waiting target))
    (fun target => (hwaiters target).nodup) hknows
  · intro id t' ht
    by_cases hid : id = i
    · rw [hid, update_self]
      exact iff_of_false (hto t' ht) (hfrom t' ht)
    · rw [update_of_ne hid]
  · intro id hnot heq
    by_cases hid : id = i
    · subst hid
      rw [update_self] at heq
      exact absurd heq.symm hne
    · exact hsame id hnot hid
  · intro id hin
    by_cases hid : id = i
    · subst hid
      rw [update_self]
      exact hsuits
    · rw [update_of_ne hid] at hin ⊢
      rcases hin with hin | hin
      · exact absurd rfl hin
      · rw [hin]
        intro stage hstage
        rw [hthreads, update_self] at hstage
        exact hstages (id, stage) hstage
  · intro id hid
    obtain ⟨hne, hlt⟩ := hunborn id hid
    rw [update_of_ne hne]
    exact h.unborn id hlt

/-! The task is elsewhere. -/

omit [DecidableEq T] in
theorem Placed.born (h : p.Placed place) (hi : place i ≠ .unborn) (hid : p.nextTaskId ≤ id) :
    id ≠ i ∧ p.nextTaskId ≤ id :=
  ⟨fun heq => hi (heq ▸ h.unborn id hid), hid⟩

omit [DecidableEq T] in
theorem Placed.unqueued (h : p.Placed place) (hi : place i ≠ .queued) (hq : q ≠ .queued) :
    Gains p.injector p.injector i (q = .queued) :=
  .same h.nodup_injector (mt (h.queued i).1 hi) hq

omit [DecidableEq T] in
theorem Placed.unwaiting {target : Nat} (h : p.Placed place) (hi : place i ≠ .waiting target)
    (hq : q ≠ .waiting target) :
    Gains (p.waitersOf target) (p.waitersOf target) i (q = .waiting target) :=
  .same (h.nodup_waiters target) (mt (h.waiting target i).1 hi) hq

theorem Placed.push (h : p.Placed place) (hi : i ∈ (p.threads t).ids)
    (hpending : p.At i .pending (p.tasks i)) (hids : Gains (p.threads t).ids pc.ids i False)
    (hstages : ∀ c ∈ pc.carried, p.At c.1 c.2 (p.tasks c.1)) (hknows : p.Knows pc) :
    ((p.push i).goto t pc).Placed (update place i .queued) := by
  have hplace : place i = .carried t := (h.carried t i).1 hi
  have hgrows : Grows p ((p.push i).goto t pc) := .of_tasks rfl
  have hnew : i ∉ p.injector := mt (h.queued i).1 (hplace.trans_ne nofun)
  refine h.moveOne i .queued (hplace.trans_ne nofun) hgrows rfl
    (fun t' ht => hplace.trans_ne (carried_ne ht)) (fun _ _ => nofun) (fun _ _ _ => alike_refl)
    (At.grows hpending hgrows) (fun c hc => At.grows (hstages c hc) hgrows)
    (fun id hid => h.born (hplace.trans_ne nofun) hid) (.add h.nodup_injector hnew rfl)
    ⟨hids.other, hids.self.trans (iff_of_false id nofun), hids.nodup⟩
    (fun target => h.unwaiting (hplace.trans_ne nofun) nofun) (hknows.grows hgrows)

theorem Placed.steal {injector : List Nat} (h : p.Placed place) (hnone : (p.threads t).ids = [])
    (hinjector : p.injector = i :: injector) :
    ({ p with injector }.goto t (.found i)).Placed (update place i (.carried t)) := by
  have hplace : place i = .queued := by
    rw [← h.queued, hinjector]
    exact mem_cons_self
  have hpending := h.suits i
  rw [hplace] at hpending
  have hnodup := h.nodup_injector
  have hgrows : Grows p ({ p with injector }.goto t (.found i)) := .of_tasks rfl
  have hstage := At.grows hpending hgrows
  refine h.moveOne i (.carried t) (hplace.trans_ne nofun) hgrows rfl
    (fun _ _ => hplace.trans_ne nofun) (fun _ => carried_ne) (fun _ _ _ => alike_refl) ?_ ?_
    (fun id hid => h.born (hplace.trans_ne nofun) hid) ?_ ?_
    (fun target => h.unwaiting (hplace.trans_ne nofun) nofun) trivial
  · intro stage hin
    change (i, stage) ∈ ((update p.threads t (.found i)) t).carried at hin
    rw [update_self] at hin
    cases mem_singleton.1 hin
    exact hstage
  · intro c hc
    cases mem_singleton.1 hc
    exact hstage
  · rw [hinjector] at hnodup ⊢
    exact .tail hnodup nofun
  · rw [hnone]
    exact .add nodup_nil not_mem_nil rfl

omit [DecidableEq T] in
theorem lt_next (h : p.Placed place) (hne : place id ≠ .unborn) : id < p.nextTaskId := by
  by_contra hle
  exact hne (h.unborn id (not_lt.1 hle))

theorem Placed.alloc (h : p.Placed place) (hgrows : Grows p p')
    (hthreads : p'.threads = update p.threads t pc)
    (hnext : p'.nextTaskId = p.nextTaskId + 1) (hinjector : p'.injector = p.injector)
    (hsame : ∀ id, id ∉ (p.threads t).ids → p'.tasks id = p.tasks id)
    (hwaiters : ∀ target, p'.waitersOf target = p.waitersOf target)
    (hids : pc.ids = (p.threads t).ids ++ [p.nextTaskId])
    (hstages : ∀ c ∈ pc.carried, p'.At c.1 c.2 (p'.tasks c.1)) (hknows : p'.Knows pc) :
    p'.Placed (update place p.nextTaskId (.carried t)) := by
  have hplace : place p.nextTaskId = .unborn := h.unborn _ le_rfl
  refine h.moveOne p.nextTaskId (.carried t) (hplace.trans_ne nofun) hgrows hthreads
    (fun _ _ => hplace.trans_ne nofun) (fun _ => carried_ne) ?_ ?_ hstages ?_ ?_ ?_ ?_ hknows
  · intro id hne _
    rw [hsame id fun hin => hne ((h.carried t id).1 hin)]
    exact alike_refl
  · intro stage hstage
    rw [hthreads, update_self] at hstage
    exact hstages _ hstage
  · intro id hid
    rw [hnext] at hid
    exact ⟨by omega, by omega⟩
  · rw [hinjector]
    exact h.unqueued (hplace.trans_ne nofun) nofun
  · rw [hids]
    exact .add (h.nodup_ids t) (mt (h.carried t _).1 (hplace.trans_ne nofun)) rfl
  · intro target
    rw [hwaiters]
    exact h.unwaiting (hplace.trans_ne nofun) nofun

omit [DecidableEq T] in
theorem grows_waiters (f : List Nat → List Nat) :
    Grows p (p.modify id fun k => { k with waiters := f k.waiters }) where
  exist id' hid' := by
    by_cases heq : id' = id
    · subst heq
      rw [tasks_modify]
      simpa using hid'
    · rwa [tasks_modify_of_ne heq]
  completed id' k hk _ := by
    by_cases heq : id' = id
    · subst heq
      rw [tasks_modify, hk]
      exact ⟨_, rfl⟩
    · rw [tasks_modify_of_ne heq, hk]
      exact alike_refl

omit [DecidableEq T] in
theorem alike_modify (f : List Nat → List Nat) (id' : Nat) :
    Alike (p.tasks id') ((p.modify id fun k => { k with waiters := f k.waiters }).tasks id') := by
  by_cases heq : id' = id
  · subst heq
    rw [tasks_modify]
    cases p.tasks id' with
    | none => exact ⟨[], rfl⟩
    | some k => exact ⟨f k.waiters, rfl⟩
  · rw [tasks_modify_of_ne heq]
    exact alike_refl

omit [DecidableEq T] in
theorem waitersOf_waiters (f : List Nat → List Nat) (hid : p.tasks id ≠ none) :
    (p.modify id fun k => { k with waiters := f k.waiters }).waitersOf id = f (p.waitersOf id) := by
  unfold waitersOf
  rw [tasks_modify]
  cases hk : p.tasks id with
  | none => exact absurd hk hid
  | some k => rfl

omit [DecidableEq T] in
theorem waitersOf_of_ne {target : Nat} (hne : target ≠ id) :
    (p.modify id f).waitersOf target = p.waitersOf target := by
  unfold waitersOf
  rw [tasks_modify_of_ne hne]

theorem Placed.register {sub : Nat} (h : p.Placed place) (hpc : p.threads t = .registering i sub) :
    ((p.modify sub fun k => { k with waiters := k.waiters ++ [i] }).goto t .looping).Placed
      (update place i (.waiting sub)) := by
  have hids : (p.threads t).ids = [i] := by rw [hpc]; rfl
  have hplace : place i = .carried t := (h.carried t i).1 (by rw [hids]; exact mem_singleton_self i)
  have hat : p.At i (.suspended sub) (p.tasks i) := by
    have hsuits := h.suits i
    rw [hplace] at hsuits
    apply hsuits
    rw [hpc]
    exact mem_singleton_self _
  -- The task waited for is older, so a task never waits for itself.
  have hsub : i ≠ sub ∧ p.tasks sub ≠ none := by
    cases hk : p.tasks i with
    | none =>
      rw [hk] at hat
      cases hat
    | some k =>
      rw [hk] at hat
      exact ⟨hat.2.later.ne, hat.2.exist⟩
  have hmodify : Grows p (p.modify sub fun k => { k with waiters := k.waiters ++ [i] }) :=
    grows_waiters (· ++ [i])
  have hgrows : Grows p ((p.modify sub fun k => { k with waiters := k.waiters ++ [i] }).goto t
      .looping) := ⟨hmodify.exist, hmodify.completed⟩
  have hwaiters : ∀ target, ((p.modify sub fun k =>
      { k with waiters := k.waiters ++ [i] }).goto t .looping).waitersOf target =
        if target = sub then p.waitersOf sub ++ [i] else p.waitersOf target := by
    intro target
    split_ifs with heq
    · subst heq
      exact waitersOf_waiters (· ++ [i]) hsub.2
    · exact waitersOf_of_ne heq
  refine h.moveOne i (.waiting sub) (hplace.trans_ne nofun) hgrows rfl
    (fun t' ht => hplace.trans_ne (carried_ne ht)) (fun _ _ => nofun)
    (fun id _ _ => alike_modify (· ++ [i]) id) ?_ (fun c hc => by cases hc)
    (fun id hid => h.born (hplace.trans_ne nofun) hid) (h.unqueued (hplace.trans_ne nofun) nofun)
    ?_ ?_ trivial
  · exact At.alike (At.grows hat hgrows) (alike_modify (· ++ [i]) i)
  · rw [hids]
    exact .tail (nodup_singleton i) nofun
  · intro target
    rw [hwaiters]
    by_cases heq : target = sub
    · -- The task was in this thread's hands, so it was not on the list before.
      rw [heq, if_pos rfl]
      exact .add (h.nodup_waiters sub) (mt (h.waiting sub i).1 (hplace.trans_ne nofun)) rfl
    · rw [if_neg heq]
      exact h.unwaiting (hplace.trans_ne nofun) (by rintro ⟨⟩; exact heq rfl)

omit [DecidableEq T] in
theorem Placed.at_carried (h : p.Placed place) (hin : (id, stage) ∈ (p.threads t).carried) :
    p.At id stage (p.tasks id) := by
  have hsuits := h.suits id
  rw [(h.carried t id).1 (mem_map_of_mem hin)] at hsuits
  exact hsuits stage hin

omit [DecidableEq T] in
theorem Placed.task (h : p.Placed place) (hin : (id, stage) ∈ (p.threads t).carried)
    (hstage : stage ≠ .allocated) : ∃ k, p.tasks id = some k ∧ p.At id stage (some k) := by
  have hat := h.at_carried hin
  cases hk : p.tasks id with
  | none =>
    rw [hk] at hat
    cases stage with
    | allocated => exact absurd rfl hstage
    | _ => cases hat
  | some k =>
    rw [hk] at hat
    exact ⟨k, rfl, hat⟩

end

omit [DecidableEq T] in
theorem ids_waking (waiters : List Nat) : (PoolPc.waking waiters).ids = waiters := by
  change (waiters.map (·, Stage.released)).map (·.1) = waiters
  rw [map_map]
  exact map_id' waiters

open Classical in
/-- A task is done, and the tasks that wait for it come to a thread. -/
noncomputable def taken (place : Nat → Place T) (target : Nat) (t : T) (id : Nat) : Place T :=
  if id = target then .done else if place id = .waiting target then .carried t else place id

variable {target : Nat}

omit [DecidableEq T] in
theorem taken_self : taken place target t target = .done := if_pos rfl

omit [DecidableEq T] in
theorem taken_of (hne : id ≠ target) (h : place id = .waiting target) :
    taken place target t id = .carried t := by
  unfold taken
  rw [if_neg hne, if_pos h]

omit [DecidableEq T] in
theorem taken_of_ne (hne : id ≠ target) (h : place id ≠ .waiting target) :
    taken place target t id = place id := by
  unfold taken
  rw [if_neg hne, if_neg h]

omit [DecidableEq T] in
theorem taken_eq_iff {x : Place T} (hdone : x ≠ .done) (hcarried : x ≠ .carried t)
    (htarget : place target = .carried t) :
    taken place target t id = x ↔ place id = x ∧ x ≠ .waiting target := by
  by_cases hid : id = target
  · subst hid
    rw [taken_self, htarget]
    exact ⟨fun h => absurd h.symm hdone, fun h => absurd h.1.symm hcarried⟩
  · by_cases hw : place id = .waiting target
    · rw [taken_of hid hw, hw]
      exact ⟨fun h => absurd h.symm hcarried, fun h => absurd h.1.symm h.2⟩
    · rw [taken_of_ne hid hw]
      refine ⟨fun h => ⟨h, ?_⟩, fun h => h.1⟩
      rintro rfl
      exact hw h

theorem Placed.take (h : p.Placed place) (hpc : p.threads t = .taking id) :
    ((p.modify id ({ · with waiters := [] })).goto t (.waking (p.waitersOf id))).Placed
      (taken place id t) := by
  have hcarried : (p.threads t).carried = [(id, .finished)] := by rw [hpc]; rfl
  have hids : (p.threads t).ids = [id] := by rw [hpc]; rfl
  have hplace : place id = .carried t :=
    (h.carried t id).1 (by rw [hids]; exact mem_singleton_self id)
  have hin : (id, Stage.finished) ∈ (p.threads t).carried := by
    rw [hcarried]
    exact mem_singleton_self _
  obtain ⟨k, hk, hwritten⟩ := h.task hin nofun
  have hdone : p.Completed id := ⟨k, hk, hwritten⟩
  have hexists : p.tasks id ≠ none := by
    rw [hk]
    exact Option.some_ne_none _
  have hmodify : Grows p (p.modify id ({ · with waiters := [] })) := grows_waiters fun _ => []
  have hgrows : Grows p ((p.modify id ({ · with waiters := [] })).goto t
      (.waking (p.waitersOf id))) := ⟨hmodify.exist, hmodify.completed⟩
  have hwaiters : ∀ target, ((p.modify id ({ · with waiters := [] })).goto t
      (.waking (p.waitersOf id))).waitersOf target =
        if target = id then [] else p.waitersOf target := by
    intro target
    split_ifs with heq
    · subst heq
      exact waitersOf_waiters (fun _ => []) hexists
    · exact waitersOf_of_ne heq
  -- Two sets of tasks move: the one taken leaves the thread, its waiters come into its hands.
  refine h.move hgrows rfl ?_ (fun id' _ _ => alike_modify (fun _ => []) id') ?_ ?_ ?_
    h.nodup_injector ?_ ?_ ?_ ?_ trivial
  -- The other threads carry what they carried.
  · intro id' t' ht
    have hne : Place.carried t' ≠ .carried t := by
      intro heq
      cases heq
      exact ht rfl
    rw [taken_eq_iff (x := .carried t') nofun hne hplace]
    exact ⟨fun heq => heq.1, fun heq => ⟨heq, nofun⟩⟩
  · intro id' hin
    by_cases hid : id' = id
    · subst hid
      rw [taken_self]
      exact hgrows.mono hdone
    · by_cases hw : place id' = .waiting id
      · rw [taken_of hid hw]
        intro stage hstage
        change (id', stage) ∈ ((update p.threads t _) t).carried at hstage
        rw [update_self] at hstage
        -- A waiter was suspended on the task, and the task is complete now.
        obtain ⟨w, _, heq⟩ := mem_map.1 hstage
        cases heq
        have hsuits := h.suits id'
        rw [hw] at hsuits
        refine At.alike (At.grows ?_ hgrows) (alike_modify (fun _ => []) id')
        change p.At id' (.suspended id) (p.tasks id') at hsuits
        cases hk' : p.tasks id' with
        | none =>
          rw [hk'] at hsuits
          cases hsuits
        | some k' =>
          rw [hk'] at hsuits
          exact ⟨hsuits.1, id, hsuits.2, hdone⟩
      · rw [taken_of_ne hid hw] at hin ⊢
        -- Nothing else was in the hands of this thread.
        rcases hin with hne | hin
        · exact absurd rfl hne
        · rw [← h.carried, hids, mem_singleton] at hin
          exact absurd hin hid
  · intro id' hid'
    have hnew := h.unborn id' hid'
    rw [taken_eq_iff (x := .unborn) nofun nofun hplace]
    exact ⟨hnew, nofun⟩
  · intro id'
    rw [taken_eq_iff (x := .queued) nofun nofun hplace, ← h.queued]
    exact ⟨fun hin => ⟨hin, nofun⟩, fun hin => hin.1⟩
  · intro id'
    rw [ids_waking, h.waiting]
    by_cases hid : id' = id
    · subst hid
      rw [taken_self, hplace]
      exact ⟨nofun, nofun⟩
    · by_cases hw : place id' = .waiting id
      · rw [taken_of hid hw]
        exact ⟨fun _ => rfl, fun _ => hw⟩
      · rw [taken_of_ne hid hw, ← h.carried, hids, mem_singleton]
        exact ⟨fun hin => absurd hin hw, fun hin => absurd hin hid⟩
  · rw [ids_waking]
    exact h.nodup_waiters id
  · intro target id'
    rw [hwaiters, taken_eq_iff (x := .waiting target) nofun nofun hplace]
    split_ifs with heq
    · subst heq
      exact ⟨nofun, fun hin => absurd rfl hin.2⟩
    · rw [h.waiting]
      refine ⟨fun hin => ⟨hin, ?_⟩, fun hin => hin.1⟩
      intro hw
      cases hw
      exact heq rfl
  · intro target
    rw [hwaiters]
    split
    · exact nodup_nil
    · exact h.nodup_waiters target

theorem Placed.revive {waiters : List Nat} (h : p.Placed place)
    (hpc : p.threads t = .reviving id waiters) :
    ((p.setState id .pending).goto t (.requeueing id waiters)).Placed place := by
  have hids : (p.threads t).ids = id :: waiters := by
    rw [hpc, ← ids_waking (id :: waiters)]
    rfl
  have hin : (id, Stage.released) ∈ (p.threads t).carried := by
    rw [hpc]
    exact mem_cons_self
  obtain ⟨k, hk, hreleased⟩ := h.task hin nofun
  have hnot : k.state ≠ .completed := by
    rw [hreleased.1.state]
    exact nofun
  have hmodify : Grows p (p.setState id .pending) := grows_modify hk hnot
  have hgrows : Grows p ((p.setState id .pending).goto t (.requeueing id waiters)) :=
    ⟨hmodify.exist, hmodify.completed⟩
  refine h.keep hgrows rfl ?_ ?_ rfl rfl (waitersOf_modify fun _ => rfl) ?_ trivial
  · rw [hids, ← ids_waking (id :: waiters)]
    rfl
  · intro id' hid'
    exact tasks_modify_of_ne (by
      rintro rfl
      exact hid' mem_cons_self) _
  · intro c hc
    rcases mem_cons.1 hc with rfl | hc
    · have htask : ((p.setState id .pending).goto t (.requeueing id waiters)).tasks id =
          some { k with state := .pending } := by
        change (p.modify id _).tasks id = _
        rw [tasks_modify, hk]
        rfl
      rw [htask]
      refine .inr ⟨hreleased.1.setState, ?_⟩
      obtain ⟨target, hwaits, hdone⟩ := released_grows hgrows hreleased.2
      exact ⟨target, ⟨hwaits.savedIp, hwaits.waitingOn, hwaits.later, hwaits.exist⟩, hdone⟩
    · obtain ⟨w, hw, rfl⟩ := mem_map.1 hc
      have hne : w ≠ id := by
        have hnodup := h.nodup_ids t
        rw [hids, nodup_cons] at hnodup
        rintro rfl
        exact hnodup.1 hw
      have hin : (w, Stage.released) ∈ (p.threads t).carried := by
        rw [hpc]
        exact mem_cons_of_mem _ hc
      have hat := h.at_carried hin
      change Pool.At _ w .released ((p.modify id _).tasks w)
      rw [tasks_modify_of_ne hne]
      exact At.grows hat hgrows

end

end Pool

end Arth.Runtime
