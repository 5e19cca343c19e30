import Arth.Runtime.Workers

/-!
# Wakeups and completion in the pool

* `NoLostWakeup` — a task that is suspended on another one will be found by it.
* `noLostWakeup_iff` — exactly the interleavings in which that holds throughout.
* `ExactlyOnce` — every task runs once and has one result, which is what joins return.
* `exactlyOnce_of_inTime` — that holds in the same interleavings.
-/

namespace Arth.Runtime

open Runs List Option Function

/-- The tasks that a worker is about to put back into the queue. -/
def PoolPc.wakes : PoolPc → List Nat
  | .waking waiters => waiters
  | .reviving waiter waiters | .requeueing waiter waiters => waiter :: waiters
  | _ => []

/-- A worker without work, or a client. -/
def PoolPc.Idle : PoolPc → Prop
  | .client _ | .joining _ | .joined _ | .looping | .stopped | .seeking => True
  | _ => False

namespace Pool

variable {T : Type}

/-- No result, and not cancelled. -/
def Unended (k : ConcurrentTask) : Prop := k.state ≠ .completed ∧ k.state ≠ .cancelled

/-- The list of waiters of a task was not yet taken. -/
def Untaken (p : Pool T) (target : Nat) : Prop :=
  (∃ k, p.tasks target = some k ∧ Unended k) ∨ ∃ t, p.threads t = .taking target

def SuspendedOn (p : Pool T) (id target : Nat) : Prop :=
  ∃ k, p.tasks id = some k ∧ k.state = .suspended ∧ k.waitingOn = some target

/-- Nothing is left to do. -/
def Quiescent (p : Pool T) : Prop := p.injector = [] ∧ ∀ t, (p.threads t).Idle

/-- A task that is suspended on another one is, or is about to be, among the waiters that
this one has yet to take; or it was found there, or is queued. -/
structure NoLostWakeup (p : Pool T) : Prop where
  awaited : ∀ id target, p.SuspendedOn id target →
    (p.Untaken target ∧ (id ∈ p.waitersOf target ∨ ∃ t, p.threads t = .registering id target)) ∨
      id ∈ p.injector ∨ ∃ t, id ∈ (p.threads t).wakes
  quiescent : p.Quiescent → ∀ id target k, p.SuspendedOn id target → p.tasks target = some k →
    Unended k

/-- A task publishes that it is suspended, and stays unregistered, only while the list of
waiters of its target was not taken. -/
def InTime (p : Pool T) (l : T × PoolCall) : Prop :=
  match p.threads l.1 with
  | .suspending _ sub => p.Untaken sub
  | .taking id => ∀ t id', p.threads t ≠ .registering id' id
  | _ => True

/-- A task is started once, spawns at most one sub-task and gets one result, which a join of
it returns; with nothing left to do, every task has its result. -/
structure ExactlyOnce (p : Pool T) : Prop where
  once : ∀ id k, p.tasks id = some k →
    k.starts ≤ 1 ∧ k.spawns ≤ 1 ∧ k.results.length ≤ 1 ∧ k.result = k.results.head?
  returned : ∀ id k, p.tasks id = some k → k.state ≠ .cancelled ∧
    (k.state = .completed → k.starts = 1 ∧ k.results.length = 1)
  joined : ∀ t id r, p.threads t = .client (some (id, r)) →
    ∃ k, p.tasks id = some k ∧ k.results.length = 1 ∧ r = k.results.head?
  quiescent : p.Quiescent → ∀ id k, p.tasks id = some k → k.state = .completed

instance Unended.decidable (k : ConcurrentTask) : Decidable (Unended k) :=
  inferInstanceAs (Decidable (k.state ≠ .completed ∧ k.state ≠ .cancelled))

instance Untaken.decidable [Fintype T] (p : Pool T) (target : Nat) : Decidable (p.Untaken target) :=
  decidable_of_iff ((p.tasks target).any (decide <| Unended ·) = true ∨
    ∃ t, p.threads t = .taking target) (by simp [Untaken, Option.any_eq_true])

instance Unregistering.decidable [Fintype T] (p : Pool T) (id : Nat) :
    Decidable (∀ t id', p.threads t ≠ .registering id' id) :=
  decidable_of_iff (∀ t, ∀ id' ∈ (p.threads t).ids, p.threads t ≠ .registering id' id)
    ⟨fun h t id' hpc => h t id' (by rw [hpc]; exact List.mem_singleton_self id') hpc,
      fun h t id' _ => h t id'⟩

instance InTime.decidable [Fintype T] (p : Pool T) (l : T × PoolCall) : Decidable (p.InTime l) := by
  unfold InTime
  split <;> infer_instance

variable {p p' : Pool T} {place : Nat → Place T} {t : T} {pc : PoolPc} {id target : Nat}
  {k : ConcurrentTask} {stage : Stage} {l : T × PoolCall} {f : ConcurrentTask → ConcurrentTask}

/-- The lists of waiters that matter were not yet taken. -/
structure Timely (p : Pool T) : Prop where
  waiters : ∀ target, p.waitersOf target ≠ [] → p.Untaken target
  registering : ∀ t id target, p.threads t = .registering id target → p.Untaken target

theorem ids_of_wakes (h : id ∈ pc.wakes) : id ∈ pc.ids := by
  cases pc with
  | waking waiters =>
    rw [ids_waking]
    exact h
  | reviving waiter waiters | requeueing waiter waiters =>
    have hids := ids_waking (waiter :: waiters)
    change id ∈ (PoolPc.waking (waiter :: waiters)).ids
    rw [hids]
    exact h
  | _ => cases h

theorem stage_of_suspended (hat : p.At id stage (some k)) (hstate : k.state = .suspended) :
    (∃ sub, stage = .suspended sub) ∨ stage = .released := by
  cases stage with
  | suspended sub => exact .inl ⟨sub, rfl⟩
  | released => exact .inr rfl
  | allocated | never => cases hat
  | pending | running =>
    rcases hat with hunstarted | hbegun
    · exact nomatch hunstarted.state.symm.trans hstate
    · exact nomatch hbegun.1.state.symm.trans hstate
  | unstarted => exact nomatch (ConcurrentTask.Unstarted.state hat).symm.trans hstate
  | begun => exact nomatch (ConcurrentTask.Begun.state hat).symm.trans hstate
  | written | finished => exact nomatch (ConcurrentTask.Written.state hat).symm.trans hstate
  | _ => exact nomatch hat.1.state.symm.trans hstate

theorem mem_released {waiters : List Nat} (hin : (id, stage) ∈ waiters.map (·, Stage.released)) :
    id ∈ waiters := by
  obtain ⟨w, hw, heq⟩ := mem_map.1 hin
  cases heq
  exact hw

theorem suspended_carried (hin : (id, stage) ∈ pc.carried) (hat : p.At id stage (some k))
    (hstate : k.state = .suspended) (htarget : k.waitingOn = some target) :
    pc = .registering id target ∨ id ∈ pc.wakes := by
  have hstage := stage_of_suspended hat hstate
  cases pc with
  | registering id' sub =>
    cases mem_singleton.1 hin
    have hsub := hat.2.waitingOn.symm.trans htarget
    cases hsub
    exact .inl rfl
  | waking waiters => exact .inr (mem_released hin)
  | reviving waiter waiters | requeueing waiter waiters =>
    rcases mem_cons.1 hin with heq | hin
    · cases heq
      exact .inr mem_cons_self
    · exact .inr (mem_cons_of_mem _ (mem_released hin))
  | _ =>
    rcases hstage with ⟨sub, rfl⟩ | rfl
    · simp [PoolPc.carried] at hin
    · simp [PoolPc.carried] at hin

/-! ## One step -/

theorem awaited_iff_timely (h : p.Placed place) : (∀ id target, p.SuspendedOn id target →
    (p.Untaken target ∧ (id ∈ p.waitersOf target ∨ ∃ t, p.threads t = .registering id target)) ∨
      id ∈ p.injector ∨ ∃ t, id ∈ (p.threads t).wakes) ↔ p.Timely := by
  constructor
  · intro hawaited
    -- A suspended task that is neither queued nor being woken needs an untaken list.
    have huntaken : ∀ id target, p.SuspendedOn id target → place id ≠ .queued →
        (∀ t, place id = .carried t → id ∉ (p.threads t).wakes) → p.Untaken target := by
      intro id target hsuspended hqueued hwakes
      rcases hawaited id target hsuspended with hok | hin | ⟨t, hin⟩
      · exact hok.1
      · exact absurd ((h.queued id).1 hin) hqueued
      · exact absurd hin (hwakes t ((h.carried t id).1 (ids_of_wakes hin)))
    refine ⟨fun target hne => ?_, fun t id target hpc => ?_⟩
    · obtain ⟨id, hin⟩ := exists_mem_of_ne_nil _ hne
      have hplace := (h.waiting target id).1 hin
      have hsuits := h.suits id
      rw [hplace] at hsuits
      change p.At id (.suspended target) (p.tasks id) at hsuits
      cases hk : p.tasks id with
      | none =>
        rw [hk] at hsuits
        cases hsuits
      | some k =>
        rw [hk] at hsuits
        refine huntaken id target ⟨k, hk, hsuits.1.state, hsuits.2.waitingOn⟩ ?_ ?_
        · rw [hplace]
          exact nofun
        · intro t ht
          rw [hplace] at ht
          cases ht
    · obtain ⟨k, hk, hat⟩ := h.only hpc rfl nofun
      have hplace : place id = .carried t := by
        rw [← h.carried, ids_of_carried hpc rfl]
        exact mem_singleton_self id
      refine huntaken id target ⟨k, hk, hat.1.state, hat.2.waitingOn⟩ ?_ ?_
      · rw [hplace]
        exact nofun
      · intro t' ht'
        rw [hplace] at ht'
        cases ht'
        rw [hpc]
        exact not_mem_nil
  · intro htimely id target hsuspended
    obtain ⟨k, hk, hstate, htarget⟩ := hsuspended
    have hsuits := h.suits id
    -- Where a suspended task can be.
    cases hplace : place id with
    | unborn =>
      rw [hplace] at hsuits
      cases hk.symm.trans hsuits
    | queued => exact .inr (.inl ((h.queued id).2 hplace))
    | carried t =>
      obtain ⟨c, hc, rfl⟩ := mem_map.1 ((h.carried t id).2 hplace)
      have hat := h.at_carried hc
      rw [hk] at hat
      rcases suspended_carried hc hat hstate htarget with hpc | hin
      · exact .inl ⟨htimely.registering t _ target hpc, .inr ⟨t, hpc⟩⟩
      · exact .inr (.inr ⟨t, hin⟩)
    | waiting sub =>
      rw [hplace] at hsuits
      change p.At id (.suspended sub) (p.tasks id) at hsuits
      rw [hk] at hsuits
      cases hsuits.2.waitingOn.symm.trans htarget
      have hin := (h.waiting target id).2 hplace
      exact .inl ⟨htimely.waiters target (ne_nil_of_mem hin), .inl hin⟩
    | done =>
      rw [hplace] at hsuits
      obtain ⟨k', hk', hwritten⟩ := hsuits
      cases hk.symm.trans hk'
      exact nomatch hwritten.state.symm.trans hstate

theorem idle_not_taking (h : p.Quiescent) (t : T) (id : Nat) : p.threads t ≠ .taking id := by
  intro hpc
  have hidle := h.2 t
  rw [hpc] at hidle
  cases hidle

theorem noLostWakeup_iff_timely (h : p.Placed place) : p.NoLostWakeup ↔ p.Timely := by
  rw [← awaited_iff_timely h]
  refine ⟨fun hP => hP.awaited, fun hawaited => ⟨hawaited, ?_⟩⟩
  intro hquiescent id target k hsuspended hk
  rcases hawaited id target hsuspended with ⟨huntaken, _⟩ | hin | ⟨t, hin⟩
  · rcases huntaken with ⟨k', hk', hunended⟩ | ⟨t, hpc⟩
    · cases hk.symm.trans hk'
      exact hunended
    · exact absurd hpc (idle_not_taking hquiescent t target)
  · rw [hquiescent.1] at hin
    cases hin
  · have hidle := hquiescent.2 t
    cases hpc : p.threads t with
    | waking | reviving | requeueing => rw [hpc] at hidle; cases hidle
    | _ => rw [hpc] at hin; cases hin

theorem unended_modify
    (hunended : ∀ k, Unended k → Unended (f k)) (hk : p.tasks target = some k) (h : Unended k) :
    ∃ k', (p.modify id f).tasks target = some k' ∧ Unended k' := by
  by_cases heq : target = id
  · subst heq
    exact ⟨f k, by rw [tasks_modify, hk]; rfl, hunended k h⟩
  · exact ⟨k, by rw [tasks_modify_of_ne heq, hk], h⟩

section

variable [DecidableEq T] {sub : Nat}

theorem Untaken.keep (h : p.Untaken target)
    (hthreads : p'.threads = update p.threads t pc) (hpc : p.threads t ≠ .taking target)
    (htasks : ∀ k, p.tasks target = some k → Unended k →
      (∃ k', p'.tasks target = some k' ∧ Unended k') ∨ pc = .taking target) :
    p'.Untaken target := by
  rcases h with ⟨k, hk, hunended⟩ | ⟨t', ht'⟩
  · rcases htasks k hk hunended with hsome | hnew
    · exact .inl hsome
    · exact .inr ⟨t, by rw [hthreads, update_self, hnew]⟩
  · have hne : t' ≠ t := by
      rintro rfl
      exact hpc ht'
    exact .inr ⟨t', by rw [hthreads, update_of_ne hne, ht']⟩

theorem Timely.quiet (h : p.Timely) (hthreads : p'.threads = update p.threads t pc)
    (hpc : ∀ id, p.threads t ≠ .taking id) (hnew : ∀ id target, pc ≠ .registering id target)
    (hwaiters : ∀ target, p'.waitersOf target = p.waitersOf target)
    (htasks : ∀ target k, p.tasks target = some k → Unended k →
      (∃ k', p'.tasks target = some k' ∧ Unended k') ∨ pc = .taking target) : p'.Timely where
  waiters target hne := by
    rw [hwaiters] at hne
    exact (h.waiters target hne).keep hthreads (hpc target) (htasks target)
  registering t' id target ht' := by
    by_cases ht : t' = t
    · subst ht
      rw [hthreads, update_self] at ht'
      exact absurd ht' (hnew id target)
    · rw [hthreads, update_of_ne ht] at ht'
      exact (h.registering t' id target ht').keep hthreads (hpc target) (htasks target)

theorem Timely.tasks (h : p.Timely) (hthreads : p'.threads = update p.threads t pc)
    (hpc : ∀ id, p.threads t ≠ .taking id) (hnew : ∀ id target, pc ≠ .registering id target)
    (htasks : p'.tasks = p.tasks) : p'.Timely := by
  refine h.quiet hthreads hpc hnew (fun target => ?_) (fun target k hk hunended => ?_)
  · unfold waitersOf
    rw [htasks]
  · exact .inl ⟨k, by rw [htasks, hk], hunended⟩

theorem Timely.goto (h : p.Timely) (hpc : ∀ id, p.threads t ≠ .taking id)
    (hnew : ∀ id target, pc ≠ .registering id target) : (p.goto t pc).Timely :=
  h.tasks rfl hpc hnew rfl

theorem Timely.modify (h : p.Timely)
    (hpc : ∀ id, p.threads t ≠ .taking id) (hnew : ∀ id target, pc ≠ .registering id target)
    (hf : ∀ k, (f k).waiters = k.waiters) (hunended : ∀ k, Unended k → Unended (f k)) :
    ((p.modify id f).goto t pc).Timely := by
  refine h.quiet rfl hpc hnew (waitersOf_modify hf) (fun target k hk hk' => .inl ?_)
  exact unended_modify hunended hk hk'

theorem Timely.insert {fnId : Int64} {args : List Int64} (h : p.Timely)
    (hpc : ∀ id, p.threads t ≠ .taking id) (hnew : ∀ id target, pc ≠ .registering id target)
    (hnone : p.tasks id = none) : ((p.insert id (.new fnId args)).goto t pc).Timely := by
  refine h.quiet rfl hpc hnew (waitersOf_insert hnone) (fun target k hk hk' => .inl ?_)
  change ∃ k', update p.tasks id _ target = some k' ∧ _
  have hne : target ≠ id := by
    rintro rfl
    rw [hnone] at hk
    cases hk
  exact ⟨k, by rw [update_of_ne hne, hk], hk'⟩

theorem timely_finishing (h : p.Timely) (hpc : p.threads t = .finishing id) :
    (p.resume t (.finishing id)).Timely := by
  refine h.quiet rfl ?_ nofun (waitersOf_modify fun _ => rfl) ?_
  · rw [hpc]
    exact nofun
  · intro target k hk hunended
    by_cases heq : target = id
    · exact .inr (by rw [heq])
    · refine .inl ⟨k, ?_, hunended⟩
      change (p.modify id _).tasks target = _
      rw [tasks_modify_of_ne heq, hk]

theorem timely_suspending (h : p.Placed place) (htimely : p.Timely)
    (hpc : p.threads t = .suspending id sub) :
    (p.resume t (.suspending id sub)).Timely ↔ p.Untaken sub := by
  obtain ⟨k, _, hat⟩ := h.only hpc rfl nofun
  have hne : sub ≠ id := hat.2.later.ne'
  have hself : (p.resume t (.suspending id sub)).threads t = .registering id sub :=
    update_self ..
  have hother : ∀ t', t' ≠ t → (p.resume t (.suspending id sub)).threads t' = p.threads t' :=
    fun t' ht => update_of_ne ht ..
  have hkeep : ∀ target, p.Untaken target → (p.resume t (.suspending id sub)).Untaken target := by
    intro target huntaken
    refine huntaken.keep rfl (by rw [hpc]; exact nofun) (fun k hk hunended => .inl ?_)
    exact unended_modify (fun _ _ => ⟨nofun, nofun⟩) hk hunended
  constructor
  · intro htimely'
    rcases htimely'.registering t id sub hself with ⟨k', hk', hunended⟩ | ⟨t', ht'⟩
    · change (p.modify id _).tasks sub = some k' at hk'
      rw [tasks_modify_of_ne hne] at hk'
      exact .inl ⟨k', hk', hunended⟩
    · have ht : t' ≠ t := by
        rintro rfl
        rw [hself] at ht'
        cases ht'
      rw [hother t' ht] at ht'
      exact .inr ⟨t', ht'⟩
  · intro huntaken
    refine ⟨fun target hwaiters => ?_, fun t' id' target ht' => ?_⟩
    · have hsame : (p.setState id .suspended).waitersOf target = p.waitersOf target :=
        waitersOf_modify (f := ({ · with state := .suspended })) (fun _ => rfl) target
      change (p.setState id .suspended).waitersOf target ≠ [] at hwaiters
      rw [hsame] at hwaiters
      exact hkeep target (htimely.waiters target hwaiters)
    · by_cases ht : t' = t
      · subst ht
        rw [hself] at ht'
        cases ht'
        exact hkeep _ huntaken
      · rw [hother t' ht] at ht'
        exact hkeep target (htimely.registering t' id' target ht')

theorem timely_registering (htimely : p.Timely)
    (hpc : p.threads t = .registering id sub) : (p.resume t (.registering id sub)).Timely := by
  have hkeep : ∀ target, p.Untaken target → (p.resume t (.registering id sub)).Untaken target := by
    intro target huntaken
    refine huntaken.keep rfl (by rw [hpc]; exact nofun) (fun k hk hunended => .inl ?_)
    exact unended_modify (fun _ h => h) hk hunended
  refine ⟨fun target hwaiters => hkeep target ?_, fun t' id' target ht' => hkeep target ?_⟩
  · by_cases heq : target = sub
    · subst heq
      exact htimely.registering t id target hpc
    · have hsame : (p.resume t (.registering id sub)).waitersOf target = p.waitersOf target :=
        waitersOf_of_ne heq
      rw [hsame] at hwaiters
      exact htimely.waiters target hwaiters
  · by_cases ht : t' = t
    · subst ht
      rw [show (p.resume t' (.registering id sub)).threads t' = .looping from
        update_self ..] at ht'
      cases ht'
    · rw [show (p.resume t (.registering id sub)).threads t' = p.threads t' from
        update_of_ne ht ..] at ht'
      exact htimely.registering t' id' target ht'

theorem timely_taking (h : p.Placed place) (htimely : p.Timely) (hpc : p.threads t = .taking id) :
    (p.resume t (.taking id)).Timely ↔ ∀ t' id', p.threads t' ≠ .registering id' id := by
  obtain ⟨k, hk, hwritten⟩ := h.only hpc rfl nofun
  have hplace : place id = .carried t := by
    rw [← h.carried, ids_of_carried hpc rfl]
    exact mem_singleton_self id
  have hself : (p.resume t (.taking id)).threads t = .waking ((p.tasks id).elim [] (·.waiters)) :=
    update_self ..
  have hother : ∀ t', t' ≠ t → (p.resume t (.taking id)).threads t' = p.threads t' :=
    fun t' ht => update_of_ne ht ..
  constructor
  · intro htimely' t' id' ht'
    have ht : t' ≠ t := by
      rintro rfl
      rw [hpc] at ht'
      cases ht'
    rcases htimely'.registering t' id' id (by rw [hother t' ht, ht']) with
      ⟨k', hk', hunended⟩ | ⟨t'', ht''⟩
    · change (p.modify id _).tasks id = some k' at hk'
      rw [tasks_modify, hk] at hk'
      cases hk'
      exact hunended.1 hwritten.state
    · -- nobody else has the task
      have hne : t'' ≠ t := by
        rintro rfl
        rw [hself] at ht''
        cases ht''
      rw [hother t'' hne] at ht''
      have hin : id ∈ (p.threads t'').ids := by
        rw [ht'']
        exact mem_singleton_self id
      have hplace' := (h.carried t'' id).1 hin
      rw [hplace] at hplace'
      cases hplace'
      exact hne rfl
  · intro hnone
    have hkeep : ∀ target, target ≠ id → p.Untaken target →
        (p.resume t (.taking id)).Untaken target := by
      intro target hne huntaken
      refine huntaken.keep rfl ?_ (fun k hk hunended => .inl ?_)
      · rw [hpc]
        intro heq
        cases heq
        exact hne rfl
      · exact unended_modify (fun _ h => h) hk hunended
    refine ⟨fun target hwaiters => ?_, fun t' id' target ht' => ?_⟩
    · have hne : target ≠ id := by
        rintro rfl
        apply hwaiters
        exact waitersOf_waiters (fun _ => []) (by rw [hk]; exact some_ne_none _)
      have hsame : (p.resume t (.taking id)).waitersOf target = p.waitersOf target :=
        waitersOf_of_ne hne
      rw [hsame] at hwaiters
      exact hkeep target hne (htimely.waiters target hwaiters)
    · have ht : t' ≠ t := by
        rintro rfl
        rw [hself] at ht'
        cases ht'
      rw [hother t' ht] at ht'
      have hne : target ≠ id := by
        rintro rfl
        exact hnone t' id' ht'
      exact hkeep target hne (htimely.registering t' id' target ht')

theorem timely_tryTransition {expected new : ConcurrentTaskState} {yes no : PoolPc}
    (h : p.Timely) (hpc : ∀ id, p.threads t ≠ .taking id)
    (hyes : ∀ id target, yes ≠ .registering id target)
    (hno : ∀ id target, no ≠ .registering id target) (hnew : new ≠ .completed ∧ new ≠ .cancelled) :
    (p.tryTransition t id expected new yes no).Timely := by
  unfold tryTransition
  split
  · exact h.modify hpc hyes (fun _ => rfl) (fun _ _ => hnew)
  · exact h.goto hpc hno

theorem timely_resume (h : p.Placed place) (htimely : p.Timely) (hpc : p.threads t = pc)
    (hsuspending : ∀ id sub, pc ≠ .suspending id sub) (htaking : ∀ id, pc ≠ .taking id) :
    (p.resume t pc).Timely := by
  have htake : ∀ id, p.threads t ≠ .taking id := by
    rw [hpc]
    exact htaking
  cases pc with
  | allocated id fnId args =>
    exact htimely.insert htake nofun (h.absent (by rw [hpc]; exact mem_singleton_self _))
  | submitting | pushing | requeueing => exact htimely.tasks rfl htake nofun rfl
  | joining | looping | running | resuming | awaiting | checking =>
    refine htimely.goto htake fun id target => ?_
    split <;> nofun
  | seeking =>
    unfold resume
    cases p.injector with
    | nil => exact htimely.goto htake nofun
    | cons id injector => exact htimely.tasks rfl htake nofun rfl
  | found | refused => exact timely_tryTransition htimely htake nofun nofun ⟨nofun, nofun⟩
  | resuspending | reviving =>
    exact htimely.modify htake nofun (fun _ => rfl) (fun _ _ => ⟨nofun, nofun⟩)
  | clearingIp | clearingLocals | clearingTarget | savingIp | savingLocals | savingTarget
  | completing => exact htimely.modify htake nofun (fun _ => rfl) (fun _ h => h)
  | starting id =>
    refine htimely.modify htake (fun id target => ?_) (fun _ => rfl) (fun _ h => h)
    split <;> nofun
  | spawning id =>
    have halloc : p.allocTaskId.Timely := ⟨htimely.waiters, htimely.registering⟩
    exact halloc.modify htake nofun (fun _ => rfl) (fun _ h => h)
  | inserting id sub =>
    have hnone : p.tasks sub = none :=
      h.absent (by rw [hpc]; exact mem_cons_of_mem _ (mem_singleton_self _))
    have hin : (id, Stage.spawning sub) ∈ (p.threads t).carried := by
      rw [hpc]
      exact mem_cons_self
    obtain ⟨k, hk, _⟩ := h.task hin nofun
    change ((p.insert sub ((p.tasks id).elim _ _)).goto t _).Timely
    rw [hk]
    exact htimely.insert htake nofun hnone
  | suspending id sub => exact absurd rfl (hsuspending id sub)
  | registering id sub => exact timely_registering htimely hpc
  | finishing id => exact timely_finishing htimely hpc
  | taking id => exact absurd rfl (htaking id)
  | waking waiters =>
    cases waiters with
    | nil => exact htimely.goto htake nofun
    | cons waiter waiters =>
      refine htimely.goto htake fun id target => ?_
      split <;> nofun
  | _ => exact htimely.goto htake nofun

theorem timely_start (htimely : p.Timely) {joined : Option (Nat × Option Int64)}
    (hpc : p.threads t = .client joined) (call : PoolCall) : (p.start t call).Timely := by
  have htake : ∀ id, p.threads t ≠ .taking id := by
    rw [hpc]
    exact nofun
  cases call with
  | spawn | shutdown => exact htimely.tasks rfl htake nofun rfl
  | join id => exact htimely.goto htake nofun

/-- **One step.** The lists stay in time just when the step is. -/
theorem timely_next (h : p.Placed place) (htimely : p.Timely) (hnext : p.next l = some p') :
    p'.Timely ↔ p.InTime l := by
  cases hnext
  unfold step InTime
  cases hpc : p.threads l.1 with
  | client joined => exact iff_of_true (timely_start htimely hpc l.2) trivial
  | suspending id sub => exact timely_suspending h htimely hpc
  | taking id => exact timely_taking h htimely hpc
  | _ => exact iff_of_true (timely_resume h htimely hpc nofun nofun) trivial

omit [DecidableEq T] in
theorem Fresh.timely (h : p.Fresh) : p.Timely where
  waiters target hne := by
    apply absurd _ hne
    unfold waitersOf
    rw [h.tasks]
    rfl
  registering t id target hpc := by
    rcases h.threads t with hidle | hidle
    · rw [hidle] at hpc
      cases hpc
    · rw [hidle] at hpc
      cases hpc

/-- **No wakeup is lost** throughout an interleaving just when every task that suspends does
so, and registers, before the list of waiters of its target is taken. -/
theorem noLostWakeup_iff (hp : p.Fresh) (ls : List (T × PoolCall)) :
    Always Pool.next NoLostWakeup p ls ↔ Along Pool.next InTime p ls := by
  refine always_iff_along (I := fun p => ∃ place, p.Placed place) ?_ ?_ ?_ ⟨_, hp.placed⟩ ?_
  · rintro p l p' ⟨place, hplaced⟩ hnext
    exact hplaced.next hnext
  · rintro p l p' ⟨place, hplaced⟩ hP hnext
    obtain ⟨place', hplaced'⟩ := hplaced.next hnext
    rw [noLostWakeup_iff_timely hplaced']
    exact timely_next hplaced ((noLostWakeup_iff_timely hplaced).1 hP) hnext
  · intro p l hnone
    cases hnone
  · exact (noLostWakeup_iff_timely hp.placed).2 hp.timely

/-! ## Completion -/

omit [DecidableEq T] in
theorem Placed.begun_id (h : p.Placed place) (hid : p.tasks id ≠ none) : id < p.nextTaskId := by
  by_contra hle
  have hsuits := h.suits id
  rw [h.unborn id (le_of_not_gt hle)] at hsuits
  exact hid hsuits

omit [DecidableEq T] in
theorem carried_idle (h : pc.Idle) : pc.ids = [] := by
  cases pc <;> first | rfl | cases h

omit [DecidableEq T] in
theorem done_or_waiting (h : p.Placed place) (hquiescent : p.Quiescent) (hk : p.tasks id = some k) :
    p.Completed id ∨ ∃ target, k.waitingOn = some target ∧ id < target ∧ p.tasks target ≠ none ∧
      id ∈ p.waitersOf target := by
  have hsuits := h.suits id
  cases hplace : place id with
  | unborn =>
    rw [hplace] at hsuits
    cases hk.symm.trans hsuits
  | queued =>
    have hin := (h.queued id).2 hplace
    rw [hquiescent.1] at hin
    cases hin
  | carried t =>
    have hin := (h.carried t id).2 hplace
    rw [carried_idle (hquiescent.2 t)] at hin
    cases hin
  | waiting target =>
    rw [hplace] at hsuits
    change p.At id (.suspended target) (p.tasks id) at hsuits
    rw [hk] at hsuits
    have hwaits := hsuits.2
    exact .inr ⟨target, hwaits.waitingOn, hwaits.later, hwaits.exist, (h.waiting target id).2 hplace⟩
  | done =>
    rw [hplace] at hsuits
    exact .inl hsuits

omit [DecidableEq T] in
theorem completed_of_quiescent (h : p.Placed place) (htimely : p.Timely)
    (hquiescent : p.Quiescent) (n : Nat) :
    ∀ id, p.nextTaskId ≤ id + n → p.tasks id ≠ none → p.Completed id := by
  induction n with
  | zero =>
    intro id hle hid
    have hlt := h.begun_id hid
    omega
  | succ n ih =>
    intro id hle hid
    obtain ⟨k, hk⟩ := ne_none_iff_exists'.1 hid
    rcases done_or_waiting h hquiescent hk with hdone | ⟨target, _, hlt, hexist, hin⟩
    · exact hdone
    · obtain ⟨k', hk', hwritten⟩ := ih target (by omega) hexist
      rcases htimely.waiters target (ne_nil_of_mem hin) with ⟨k'', hk'', hunended⟩ | ⟨t, hpc⟩
      · cases hk'.symm.trans hk''
        exact absurd hwritten.state hunended.1
      · exact absurd hpc (idle_not_taking hquiescent t target)

omit [DecidableEq T] in
theorem exactlyOnce_of_timely (h : p.Placed place) (htimely : p.Timely) : p.ExactlyOnce where
  once id k hk := by
    rcases (h.sound hk).once with hunstarted | hbegun | hwritten
    · rw [hunstarted.starts, hunstarted.spawns, hunstarted.result, hunstarted.results]
      exact ⟨Nat.zero_le 1, Nat.zero_le 1, Nat.zero_le 1, rfl⟩
    · rw [hbegun.starts, hbegun.result, hbegun.results]
      exact ⟨le_rfl, hbegun.spawns, Nat.zero_le 1, rfl⟩
    · obtain ⟨v, hresult, hresults⟩ := hwritten.written
      rw [hwritten.starts, hresult, hresults]
      exact ⟨le_rfl, hwritten.spawns, le_rfl, rfl⟩
  returned id k hk := by
    refine ⟨(h.sound hk).cancelled, fun hstate => ?_⟩
    have hwritten := (h.sound hk).completed hstate
    obtain ⟨v, _, hresults⟩ := hwritten.written
    exact ⟨hwritten.starts, by rw [hresults]; rfl⟩
  joined t id r hpc := by
    have hknows := h.knows t
    rw [hpc] at hknows
    obtain ⟨k, hk, hwritten, hr⟩ := hknows
    obtain ⟨v, hresult, hresults⟩ := hwritten.written
    exact ⟨k, hk, by rw [hresults]; rfl, by rw [hr, hresult, hresults]; rfl⟩
  quiescent hquiescent id k hk := by
    have hid : p.tasks id ≠ none := by
      rw [hk]
      exact some_ne_none k
    obtain ⟨k', hk', hwritten⟩ :=
      completed_of_quiescent h htimely hquiescent p.nextTaskId id (Nat.le_add_left _ _) hid
    cases hk.symm.trans hk'
    exact hwritten.state

/-- **Every task runs exactly once** in every interleaving whose steps are in time. -/
theorem exactlyOnce_of_inTime (hp : p.Fresh) {ls : List (T × PoolCall)}
    (h : Along Pool.next InTime p ls) : Always Pool.next ExactlyOnce p ls := by
  have hinv : Always Pool.next (fun p => ∃ place, p.Placed place ∧ p.Timely) p ls := by
    refine always_of_along ?_ ⟨_, hp.placed, hp.timely⟩ h
    rintro p l p' ⟨place, hplaced, htimely⟩ hin hnext
    obtain ⟨place', hplaced'⟩ := hplaced.next hnext
    exact ⟨place', hplaced', (timely_next hplaced htimely hnext).2 hin⟩
  refine hinv.mono ?_
  rintro p ⟨place, hplaced, htimely⟩
  exact exactlyOnce_of_timely hplaced htimely

end

/-- A pool with one client and two workers. -/
def small : Pool (Fin 3) where
  injector := []
  tasks _ := none
  nextTaskId := 1
  shutdown := false
  threads := ![.client none, .looping, .looping]

theorem fresh_small : small.Fresh where
  injector := rfl
  tasks _ := rfl
  threads t := by
    fin_cases t
    · exact .inl rfl
    · exact .inr rfl
    · exact .inr rfl

/-- A worker looks whether its sub-task is complete, the other one completes it and takes its
waiters, and only then does the first one suspend and register. -/
def late : List (Fin 3 × PoolCall) :=
  List.replicate 3 (0, .spawn 3 [5, 7]) ++ List.replicate 9 (1, .shutdown) ++
    List.replicate 9 (2, .shutdown) ++ List.replicate 5 (1, .shutdown)

theorem late_ends : ∃ p, run Pool.next small late = some p ∧ p.Quiescent ∧ p.SuspendedOn 1 2 ∧
    ∃ k, p.tasks 2 = some k ∧ k.state = .completed := by
  have hthreads : (run Pool.next small late).map (fun p =>
      (p.injector, p.threads 0, p.threads 1, p.threads 2)) =
        some ([], .client none, .looping, .looping) := by decide +kernel
  have htask : (run Pool.next small late).bind (fun p =>
      (p.tasks 1).map fun k => (k.state, k.waitingOn)) = some (.suspended, some 2) := by
    decide +kernel
  have hsub : (run Pool.next small late).bind (fun p => (p.tasks 2).map (·.state)) =
      some .completed := by decide +kernel
  obtain ⟨p, hp, heq⟩ := map_eq_some_iff.1 hthreads
  simp only [Prod.mk.injEq] at heq
  obtain ⟨hinjector, hclient, hfirst, hsecond⟩ := heq
  rw [hp, bind_some] at htask hsub
  obtain ⟨k, hk, heq⟩ := map_eq_some_iff.1 htask
  rw [Prod.mk.injEq] at heq
  refine ⟨p, hp, ⟨hinjector, fun t => ?_⟩, ⟨k, hk, heq⟩, map_eq_some_iff.1 hsub⟩
  fin_cases t
  · change (p.threads 0).Idle
    rw [hclient]
    trivial
  · change (p.threads 1).Idle
    rw [hfirst]
    trivial
  · change (p.threads 2).Idle
    rw [hsecond]
    trivial

theorem late_loses : ¬ Always Pool.next NoLostWakeup small late := by
  intro h
  obtain ⟨p, hp, hquiescent, hsuspended, k, hk, hstate⟩ := late_ends
  exact ((h.last hp).quiescent hquiescent 1 2 k hsuspended hk).1 hstate

theorem late_incomplete : ¬ Always Pool.next ExactlyOnce small late := by
  intro h
  obtain ⟨p, hp, hquiescent, ⟨k, hk, hstate, _⟩, _⟩ := late_ends
  have hcompleted := (h.last hp).quiescent hquiescent 1 k hk
  rw [hstate] at hcompleted
  cases hcompleted

/-- The first worker suspends in time; the second one completes the sub-task, wakes the first
task and completes it, and the client joins it. -/
def early : List (Fin 3 × PoolCall) :=
  List.replicate 3 (0, .spawn 3 [5, 7]) ++ List.replicate 14 (1, .shutdown) ++
    List.replicate 27 (2, .shutdown) ++ List.replicate 3 (0, .join 1)

theorem noLostWakeup_early : Always Pool.next NoLostWakeup small early :=
  (noLostWakeup_iff fresh_small early).2 (by decide +kernel)

theorem exactlyOnce_early : Always Pool.next ExactlyOnce small early :=
  exactlyOnce_of_inTime fresh_small (by decide +kernel)

end Pool

end Arth.Runtime
