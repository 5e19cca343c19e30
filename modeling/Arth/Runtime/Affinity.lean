import Arth.Runtime.Honest

/-!
# Tasks that stay on one worker

* `TaskMarkers.home` — the worker in whose queue a task waits, if it waits in the queue of one.
* `Unstranded` — no sendable task waits in the queue of a worker.
* `PinnedTo` — only one worker is in the callback of a task that is not sendable.
* `Anchored` — what `spawn` has to be told for that.
* `Placed` — the invariant, `step_placed` — one step keeps it, and the markers of the tasks.
* `pinned_of_anchored` — what follows for runs; `drifts` — a run of a task without an origin.
-/

namespace Arth.Runtime

open List Option Function

/-- The worker in whose queue a task waits. A task that is sendable or has no origin waits in
the injector. -/
def TaskMarkers.home (m : TaskMarkers) (numWorkers : ℕ) : Option ℕ :=
  if m.isSendable = false ∧ 0 < m.originThread then some ((m.originThread - 1) % numWorkers)
  else none

namespace Executor

open Runs

variable {T : Type} {idx : ℕ} {x : Executor T}

/-- A task in the queue of a worker is not sendable. -/
def Unstranded (x : Executor T) : Prop :=
  ∀ idx, ∀ handle ∈ x.threadLocalQueues idx, ∀ k, x.tasks handle = some k →
    k.markers.isSendable = false

/-- If the task is not sendable, then only this worker is in its callback. -/
def PinnedTo (handle : Handle) (idx : ℕ) (x : Executor T) : Prop :=
  ∀ k, x.tasks handle = some k → k.markers.isSendable = false →
    ∀ t, x.current t = some handle → x.worker t = some idx

/-- All workers are the same one. -/
def Lone (x : Executor T) : Prop :=
  ∀ t t' idx idx', x.worker t = some idx → x.worker t' = some idx' → idx = idx'

/-- **What `spawn` has to be told.** A task that is not sendable has an origin, unless there is
one worker only. -/
def Anchored (x : Executor T) (l : T × ExecAct) : Prop :=
  match l.2 with
  | .call (.spawn _ markers _) =>
    markers.isSendable = true ∨ 0 < markers.originThread ∨ x.Lone
  | _ => True

/-- The task waits in the queue of this worker, or in the injector. -/
def Homed (x : Executor T) (handle : Handle) (home : Option ℕ) : Prop :=
  ∃ k, x.tasks handle = some k ∧ k.markers.home x.numWorkers = home

/-- The thread is a worker that may run the task. -/
def Suits (x : Executor T) (t : T) (handle : Handle) : Prop :=
  ∃ idx, x.worker t = some idx ∧ (x.Homed handle none ∨ x.Homed handle (some idx))

/-- What goes to a queue says of the task what its markers say. -/
def Describes (x : Executor T) (task : ScheduledTask) : Prop :=
  ∃ k, x.tasks task.handle = some k ∧ task.threadAffine = !k.markers.isSendable ∧
    task.affineThread = k.markers.originThread

/-- What a thread has in its hands. -/
def Fits (x : Executor T) (t : T) : ExecPc → Prop
  | .enqueueing task => x.Describes task
  | .requeueing task _ => x.Describes task
  | .stealing => ∃ idx, x.worker t = some idx
  | .found handle => x.Suits t handle
  | .entering handle => x.Suits t handle
  | _ => True

/-- The invariant, where `ok` holds of the markers of all tasks. -/
structure Placed (ok : TaskMarkers → Prop) (x : Executor T) : Prop where
  numWorkers : 0 < x.numWorkers
  unknown : ∀ handle, x.nextHandle ≤ handle → x.tasks handle = none
  marked : ∀ handle k, x.tasks handle = some k → ok k.markers
  allocated : ∀ t handle k, x.threads t = .allocated handle k →
    handle < x.nextHandle ∧ x.tasks handle = none ∧ ok k.markers
  distinct : ∀ t t' handle k k', x.threads t = .allocated handle k →
    x.threads t' = .allocated handle k' → t = t'
  queued : ∀ idx, ∀ handle ∈ x.threadLocalQueues idx, x.Homed handle (some idx)
  injected : ∀ task ∈ x.injector, x.Homed task.handle none
  fits : ∀ t, x.Fits t (x.threads t)
  current : ∀ t handle, x.current t = some handle → x.Suits t handle

theorem placed_fresh (ok : TaskMarkers → Prop) (h : Fresh x) : Placed ok x where
  numWorkers := h.numWorkers
  unknown handle _ := h.tasks handle
  marked handle k hk := by rw [h.tasks handle] at hk; cases hk
  allocated t handle k hpc := by rw [h.threads t] at hpc; cases hpc
  distinct t t' handle k k' hpc := by rw [h.threads t] at hpc; cases hpc
  queued idx handle hmem := by
    rw [h.threadLocalQueues idx] at hmem
    cases hmem
  injected task hmem := by
    rw [h.injector] at hmem
    cases hmem
  fits t := by
    rw [h.threads t]
    trivial
  current t handle hcur := by
    rw [h.current t] at hcur
    cases hcur

theorem home_eq_some {m : TaskMarkers} {n : ℕ} (h : m.home n = some idx) :
    m.isSendable = false := by
  unfold TaskMarkers.home at h
  split at h
  · rename_i hm
    exact hm.1
  · cases h

theorem Placed.unstranded {ok : TaskMarkers → Prop} (h : Placed ok x) : Unstranded x := by
  intro idx handle hmem k hk
  obtain ⟨k', hk', hhome⟩ := h.queued idx handle hmem
  obtain rfl : k' = k := some.inj (hk'.symm.trans hk)
  exact home_eq_some hhome

/-- The workers are the same ones and the tasks have the markers they had. -/
structure Continues (x y : Executor T) : Prop where
  numWorkers : y.numWorkers = x.numWorkers
  worker : y.worker = x.worker
  tasks : ∀ handle k, x.tasks handle = some k →
    ∃ k', y.tasks handle = some k' ∧ k'.markers = k.markers

variable {ok : TaskMarkers → Prop} {x y z : Executor T} {t : T}

theorem Continues.of_tasks (hnum : y.numWorkers = x.numWorkers) (hworker : y.worker = x.worker)
    (htasks : y.tasks = x.tasks) : Continues x y :=
  ⟨hnum, hworker, fun _ k hk => ⟨k, htasks ▸ hk, rfl⟩⟩

theorem Continues.trans (h : Continues x y) (h' : Continues y z) : Continues x z := by
  refine ⟨h'.numWorkers.trans h.numWorkers, h'.worker.trans h.worker, ?_⟩
  intro handle k hk
  obtain ⟨k₁, hk₁, hm₁⟩ := h.tasks handle k hk
  obtain ⟨k₂, hk₂, hm₂⟩ := h'.tasks handle k₁ hk₁
  exact ⟨k₂, hk₂, hm₂.trans hm₁⟩

variable {handle : Handle} {k : MTTaskInfo} {pc : ExecPc}

theorem Homed.continues {home : Option ℕ} (h : x.Homed handle home)
    (hc : Continues x y) : y.Homed handle home := by
  obtain ⟨k, hk, hhome⟩ := h
  obtain ⟨k', hk', hm⟩ := hc.tasks handle k hk
  exact ⟨k', hk', by rw [hm, hc.numWorkers, hhome]⟩

theorem Suits.continues (h : x.Suits t handle) (hc : Continues x y) : y.Suits t handle := by
  obtain ⟨idx, hidx, hhome⟩ := h
  refine ⟨idx, by rw [hc.worker, hidx], ?_⟩
  exact hhome.imp (·.continues hc) (·.continues hc)

theorem Describes.continues {task : ScheduledTask} (h : x.Describes task)
    (hc : Continues x y) : y.Describes task := by
  obtain ⟨k, hk, haffine, horigin⟩ := h
  obtain ⟨k', hk', hm⟩ := hc.tasks task.handle k hk
  exact ⟨k', hk', by rw [hm, haffine], by rw [hm, horigin]⟩

theorem Fits.continues (h : x.Fits t pc) (hc : Continues x y) : y.Fits t pc := by
  cases pc with
  | enqueueing | requeueing => exact Describes.continues h hc
  | stealing =>
    obtain ⟨idx, hidx⟩ : ∃ idx, x.worker t = some idx := h
    exact ⟨idx, by rw [hc.worker, hidx]⟩
  | found | entering => exact Suits.continues h hc
  | _ => trivial

theorem describes_scheduled (hk : x.tasks handle = some k) : x.Describes (k.scheduled handle) :=
  ⟨k, hk, rfl, rfl⟩

/-! ## Primitive changes -/

section Primitive

variable [DecidableEq T]

theorem continues_goto (pc : ExecPc) : Continues x (x.goto t pc) := .of_tasks rfl rfl rfl

variable {k : MTTaskInfo} {pc : ExecPc} {f : MTTaskInfo → MTTaskInfo}

theorem allocated_of_goto (hfresh : ∀ handle k, pc ≠ .allocated handle k) {t' : T}
    {handle : Handle} (hpc : (x.goto t pc).threads t' = .allocated handle k) :
    t' ≠ t ∧ x.threads t' = .allocated handle k := by
  by_cases hne : t' = t
  · subst hne
    rw [threads_goto_self] at hpc
    exact absurd hpc (hfresh handle k)
  · rw [threads_goto_of_ne hne] at hpc
    exact ⟨hne, hpc⟩

theorem fits_goto (hall : ∀ t', x.Fits t' (x.threads t')) (hfits : x.Fits t pc)
    (t' : T) : x.Fits t' ((x.goto t pc).threads t') := by
  by_cases hne : t' = t
  · subst hne
    rwa [threads_goto_self]
  · rw [threads_goto_of_ne hne]
    exact hall t'

theorem Placed.goto (h : Placed ok x) (hfits : x.Fits t pc)
    (hfresh : ∀ handle k, pc ≠ .allocated handle k) : Placed ok (x.goto t pc) := by
  refine ⟨h.numWorkers, h.unknown, h.marked, ?_, ?_, h.queued, h.injected,
    fits_goto h.fits hfits, h.current⟩
  · intro t' handle k hpc
    exact h.allocated t' handle k (allocated_of_goto hfresh hpc).2
  · intro t₁ t₂ handle k k' h₁ h₂
    exact h.distinct t₁ t₂ handle k k' (allocated_of_goto hfresh h₁).2
      (allocated_of_goto hfresh h₂).2

omit [DecidableEq T] in
theorem continues_modify (handle : Handle)
    (hf : ∀ k, (f k).markers = k.markers) : Continues x (x.modify handle f) := by
  refine ⟨rfl, rfl, fun h' k hk => ?_⟩
  by_cases heq : h' = handle
  · subst heq
    exact ⟨f k, by simp [modify, hk], hf k⟩
  · exact ⟨k, by simp [modify, heq, hk], rfl⟩

omit [DecidableEq T] in
theorem Placed.modify (h : Placed ok x) (handle : Handle)
    (hf : ∀ k, (f k).markers = k.markers) : Placed ok (x.modify handle f) := by
  have hc : Continues x (x.modify handle f) := continues_modify handle hf
  refine ⟨h.numWorkers, ?_, ?_, ?_, h.distinct, ?_, ?_, ?_, ?_⟩
  · intro h' hle
    exact tasks_modify_eq_none.2 (h.unknown h' hle)
  · intro h' k hk
    by_cases heq : h' = handle
    · subst heq
      simp only [Executor.modify, update_self, map_eq_some_iff] at hk
      obtain ⟨k', hk', rfl⟩ := hk
      rw [hf k']
      exact h.marked h' k' hk'
    · simp only [Executor.modify, update_of_ne heq] at hk
      exact h.marked h' k hk
  · intro t h' k hpc
    obtain ⟨hlt, hnone, hok⟩ := h.allocated t h' k hpc
    exact ⟨hlt, tasks_modify_eq_none.2 hnone, hok⟩
  · exact fun idx h' hmem => (h.queued idx h' hmem).continues hc
  · exact fun task hmem => (h.injected task hmem).continues hc
  · exact fun t => (h.fits t).continues hc
  · exact fun t h' hcur => (h.current t h' hcur).continues hc

theorem Placed.allocate (h : Placed ok x) (hok : ok k.markers) :
    Placed ok ({ x with nextHandle := x.nextHandle + 1 }.goto t (.allocated x.nextHandle k)) := by
  -- no thread had this handle before
  have hless : ∀ t' handle k', x.threads t' = .allocated handle k' → handle ≠ x.nextHandle := by
    intro t' handle k' hpc
    exact ne_of_lt (h.allocated t' handle k' hpc).1
  have hfits : x.Fits t (.allocated x.nextHandle k) := trivial
  refine ⟨h.numWorkers, ?_, h.marked, ?_, ?_, h.queued, h.injected, fits_goto h.fits hfits,
    h.current⟩
  · intro handle hle
    exact h.unknown handle (le_trans (Int.le_add_one le_rfl) hle)
  · intro t' handle k' hpc
    by_cases hne : t' = t
    · subst hne
      rw [threads_goto_self] at hpc
      cases hpc
      exact ⟨Int.lt_add_one_of_le le_rfl, h.unknown _ le_rfl, hok⟩
    · rw [threads_goto_of_ne hne] at hpc
      obtain ⟨hlt, hnone, hok'⟩ := h.allocated t' handle k' hpc
      exact ⟨Int.lt_add_one_of_le hlt.le, hnone, hok'⟩
  · intro t₁ t₂ handle k₁ k₂ h₁ h₂
    by_cases hne₁ : t₁ = t <;> by_cases hne₂ : t₂ = t
    · rw [hne₁, hne₂]
    · subst hne₁
      rw [threads_goto_self] at h₁
      rw [threads_goto_of_ne hne₂] at h₂
      cases h₁
      exact absurd rfl (hless t₂ _ k₂ h₂)
    · subst hne₂
      rw [threads_goto_self] at h₂
      rw [threads_goto_of_ne hne₁] at h₁
      cases h₂
      exact absurd rfl (hless t₁ _ k₁ h₁)
    · rw [threads_goto_of_ne hne₁] at h₁
      rw [threads_goto_of_ne hne₂] at h₂
      exact h.distinct t₁ t₂ handle k₁ k₂ h₁ h₂

theorem Placed.insert (h : Placed ok x) {handle : Handle}
    (hpc : x.threads t = .allocated handle k) :
    Placed ok ({ x with tasks := update x.tasks handle (some k) }.goto t .idle) ∧
      Continues x ({ x with tasks := update x.tasks handle (some k) }.goto t .idle) := by
  obtain ⟨hlt, hnone, hok⟩ := h.allocated t handle k hpc
  have hc : Continues x ({ x with tasks := update x.tasks handle (some k) }.goto t .idle) := by
    refine ⟨rfl, rfl, fun h' k' hk' => ⟨k', ?_, rfl⟩⟩
    have hne : h' ≠ handle := by
      rintro rfl
      rw [hnone] at hk'
      cases hk'
    exact (update_of_ne hne _ _).trans hk'
  refine ⟨⟨h.numWorkers, ?_, ?_, ?_, ?_, ?_, ?_, ?_, ?_⟩, hc⟩
  · intro h' hle
    have hne : h' ≠ handle := ne_of_gt (lt_of_lt_of_le hlt hle)
    exact (update_of_ne hne _ _).trans (h.unknown h' hle)
  · intro h' k' hk'
    change update x.tasks handle (some k) h' = some k' at hk'
    by_cases heq : h' = handle
    · subst heq
      rw [update_self] at hk'
      cases hk'
      exact hok
    · rw [update_of_ne heq] at hk'
      exact h.marked h' k' hk'
  · intro t' h' k' hpc'
    obtain ⟨hne, hpc'⟩ := allocated_of_goto (by simp) hpc'
    obtain ⟨hlt', hnone', hok'⟩ := h.allocated t' h' k' hpc'
    refine ⟨hlt', ?_, hok'⟩
    have hne' : h' ≠ handle := by
      rintro rfl
      exact hne (h.distinct t' t h' k' k hpc' hpc)
    exact (update_of_ne hne' _ _).trans hnone'
  · intro t₁ t₂ h' k₁ k₂ h₁ h₂
    exact h.distinct t₁ t₂ h' k₁ k₂ (allocated_of_goto (by simp) h₁).2
      (allocated_of_goto (by simp) h₂).2
  · exact fun idx h' hmem => (h.queued idx h' hmem).continues hc
  · exact fun task hmem => (h.injected task hmem).continues hc
  · have hfits : x.Fits t .idle := trivial
    exact fun t' => (fits_goto h.fits hfits t').continues hc
  · exact fun t' h' hcur => (h.current t' h' hcur).continues hc

omit [DecidableEq T] in
theorem continues_push (task : ScheduledTask) : Continues x (x.push task) := by
  unfold push
  split <;> exact .of_tasks rfl rfl rfl

omit [DecidableEq T] in
theorem Placed.push (h : Placed ok x) {task : ScheduledTask} (hd : x.Describes task) :
    Placed ok (x.push task) := by
  obtain ⟨k, hk, haffine, horigin⟩ := hd
  unfold Executor.push
  split_ifs with hcond
  · obtain ⟨hsend, hpos⟩ := hcond
    rw [haffine, Bool.not_eq_true'] at hsend
    have hhome : x.Homed task.handle (some ((task.affineThread - 1) % x.numWorkers)) := by
      refine ⟨k, hk, ?_⟩
      rw [horigin] at hpos ⊢
      simp [TaskMarkers.home, hsend, hpos]
    refine ⟨h.numWorkers, h.unknown, h.marked, h.allocated, h.distinct, ?_, h.injected,
      h.fits, h.current⟩
    intro idx handle hmem
    dsimp only at hmem
    by_cases heq : idx = (task.affineThread - 1) % x.numWorkers
    · subst heq
      rw [update_self, mem_append, mem_singleton] at hmem
      rcases hmem with hmem | rfl
      · exact h.queued _ handle hmem
      · exact hhome
    · rw [update_of_ne heq] at hmem
      exact h.queued idx handle hmem
  · have hhome : x.Homed task.handle none := by
      refine ⟨k, hk, ?_⟩
      rw [haffine, horigin, Bool.not_eq_true'] at hcond
      exact if_neg hcond
    refine ⟨h.numWorkers, h.unknown, h.marked, h.allocated, h.distinct, h.queued, ?_, h.fits,
      h.current⟩
    intro task' hmem
    rw [mem_append, mem_singleton] at hmem
    rcases hmem with hmem | rfl
    · exact h.injected task' hmem
    · exact hhome

omit [DecidableEq T] in
theorem Placed.pop (h : Placed ok x) {injector : List ScheduledTask} {queues : ℕ → List Handle}
    (hinjector : ∀ task ∈ injector, task ∈ x.injector)
    (hqueues : ∀ idx, ∀ handle ∈ queues idx, handle ∈ x.threadLocalQueues idx) :
    Placed ok { x with injector := injector, threadLocalQueues := queues } :=
  ⟨h.numWorkers, h.unknown, h.marked, h.allocated, h.distinct,
    fun idx handle hmem => h.queued idx handle (hqueues idx handle hmem),
    fun task hmem => h.injected task (hinjector task hmem), h.fits, h.current⟩

omit [DecidableEq T] in
theorem Placed.register (h : Placed ok x) (waiters : Handle → List Handle) :
    Placed ok { x with taskWaiters := waiters } :=
  ⟨h.numWorkers, h.unknown, h.marked, h.allocated, h.distinct, h.queued, h.injected, h.fits,
    h.current⟩

theorem Placed.call (h : Placed ok x) {lock : Option T} {running : Option Handle}
    (hsuits : ∀ handle, running = some handle → x.Suits t handle) : Placed ok { x with
      callbackLock := lock
      current := update x.current t running } := by
  refine ⟨h.numWorkers, h.unknown, h.marked, h.allocated, h.distinct, h.queued, h.injected,
    h.fits, ?_⟩
  intro t' handle hcur
  dsimp only at hcur
  by_cases hne : t' = t
  · subst hne
    rw [update_self] at hcur
    exact hsuits handle hcur
  · rw [update_of_ne hne] at hcur
    exact h.current t' handle hcur

end Primitive

/-! ## Steps -/

variable {l : T × ExecAct}

section Step

variable [DecidableEq T]

omit [DecidableEq T] in
theorem setState_placed (h : Placed ok x) (handle : Handle) (st : MTTaskState) :
    Placed ok (x.setState handle st) ∧ Continues x (x.setState handle st) :=
  ⟨h.modify handle fun _ => rfl, continues_modify handle fun _ => rfl⟩

theorem wake_placed (h : Placed ok x) (handle : Handle) (waiters : List Handle) :
    Placed ok (x.wake t handle waiters) ∧ Continues x (x.wake t handle waiters) := by
  have hskip : Placed ok (x.goto t (.waking waiters)) ∧ Continues x (x.goto t (.waking waiters)) :=
    ⟨h.goto trivial (by simp), continues_goto _⟩
  unfold wake
  split
  · rename_i k hk
    split
    · have hc : Continues x
          (x.modify handle fun k => { k with state := .pending, woken := true }) :=
        continues_modify handle fun _ => rfl
      have hp : Placed ok (x.modify handle fun k => { k with state := .pending, woken := true }) :=
        h.modify handle fun _ => rfl
      have hfits : x.Fits t (.requeueing (k.scheduled handle) waiters) := describes_scheduled hk
      exact ⟨hp.goto (hfits.continues hc) (by simp), hc.trans (continues_goto _)⟩
    · exact hskip
  · exact hskip

theorem begin_placed (h : Placed ok x) {c : ExecCall}
    (hok : ∀ fnId markers spawnFunction, c = .spawn fnId markers spawnFunction → ok markers)
    (hn : x.begin t c = some y) : Placed ok y ∧ Continues x y := by
  have hset : ∀ handle st pc, (∀ z : Executor T, z.Fits t pc) → (∀ h' k, pc ≠ .allocated h' k) →
      Placed ok ((x.setState handle st).goto t pc) ∧
        Continues x ((x.setState handle st).goto t pc) := by
    intro handle st pc hfits hfresh
    obtain ⟨hp, hc⟩ := setState_placed h handle st
    exact ⟨hp.goto (hfits _) hfresh, hc.trans (continues_goto pc)⟩
  have hsame : Placed ok x ∧ Continues x x := ⟨h, .of_tasks rfl rfl rfl⟩
  cases c with
  | registerCallback =>
    simp only [begin] at hn
    split at hn
    · cases hn
      exact ⟨⟨h.numWorkers, h.unknown, h.marked, h.allocated, h.distinct, h.queued,
        h.injected, h.fits, h.current⟩, .of_tasks rfl rfl rfl⟩
    · cases hn
  | spawn fnId markers spawnFunction =>
    cases hn
    exact ⟨h.allocate (hok fnId markers spawnFunction rfl), .of_tasks rfl rfl rfl⟩
  | pushArg handle arg =>
    simp only [begin, some.injEq] at hn
    subst hn
    split
    · exact ⟨h.modify handle fun _ => rfl, continues_modify handle fun _ => rfl⟩
    · exact hsame
  | start handle =>
    simp only [begin, some.injEq] at hn
    subst hn
    split
    · rename_i k hk
      split
      · exact ⟨h.goto (describes_scheduled hk) (by simp), continues_goto _⟩
      · exact hsame
    · exact hsame
  | blockTask handle | completeTask handle | panicTask handle =>
    cases hn
    exact hset handle _ _ (fun _ => trivial) (by simp)
  | wakeTask handle =>
    cases hn
    exact wake_placed h handle []
  | cancelTask handle =>
    simp only [begin, some.injEq] at hn
    subst hn
    split
    · split
      · exact hsame
      · exact hset handle _ _ (fun _ => trivial) (by simp)
    · exact hsame

theorem seek_placed (h : Placed ok x) (hworker : x.worker t = some idx) :
    Placed ok (x.seek t idx) ∧ Continues x (x.seek t idx) := by
  refine ⟨?_, ?_⟩
  · unfold seek
    split
    · rename_i handle queue hqueue
      have hsuits : x.Fits t (.found handle) := by
        refine ⟨idx, hworker, .inr (h.queued idx handle ?_)⟩
        rw [hqueue]
        exact mem_cons_self
      have hpop : Placed ok { x with
          threadLocalQueues := update x.threadLocalQueues idx queue } := by
        refine h.pop (fun _ hmem => hmem) fun i handle' hmem => ?_
        by_cases heq : i = idx
        · subst heq
          rw [update_self] at hmem
          rw [hqueue]
          exact mem_cons_of_mem _ hmem
        · rwa [update_of_ne heq] at hmem
      exact hpop.goto (hsuits.continues (.of_tasks rfl rfl rfl)) (by simp)
    · exact h.goto ⟨idx, hworker⟩ (by simp)
  · unfold seek
    split <;> exact .of_tasks rfl rfl rfl

theorem steal_placed (h : Placed ok x) (hpc : x.threads t = .stealing)
    (hn : x.resume t .stealing = some y) : Placed ok y ∧ Continues x y := by
  obtain ⟨idx, hworker⟩ : ∃ idx, x.worker t = some idx := by
    simpa only [hpc, Fits] using h.fits t
  simp only [resume] at hn
  split at hn
  · rename_i task injector hinjector
    cases hn
    have hsuits : x.Fits t (.found task.handle) := by
      refine ⟨idx, hworker, .inl (h.injected task ?_)⟩
      rw [hinjector]
      exact mem_cons_self
    have hpop : Placed ok { x with
        injector := injector
        threadLocalQueues := x.threadLocalQueues } := by
      refine h.pop (fun task' hmem => ?_) fun _ _ hmem => hmem
      rw [hinjector]
      exact mem_cons_of_mem _ hmem
    exact ⟨hpop.goto (hsuits.continues (.of_tasks rfl rfl rfl)) (by simp), .of_tasks rfl rfl rfl⟩
  · cases hn
    exact ⟨h.goto trivial (by simp), continues_goto _⟩

theorem resume_placed (h : Placed ok x) (hpc : x.threads t = pc)
    (hn : x.resume t pc = some y) : Placed ok y ∧ Continues x y := by
  have hfits : x.Fits t pc := hpc ▸ h.fits t
  have hidle : Placed ok (x.goto t .idle) ∧ Continues x (x.goto t .idle) :=
    ⟨h.goto trivial (by simp), continues_goto _⟩
  cases pc with
  -- Between calls only the worker loop has a step of its own.
  | idle =>
    simp only [resume] at hn
    split at hn
    · rename_i idx hworker hcur
      cases hn
      exact seek_placed h hworker
    · cases hn
  | allocated handle k =>
    cases hn
    exact h.insert hpc
  | enqueueing task | requeueing task =>
    cases hn
    exact ⟨(h.push hfits).goto trivial (by simp), (continues_push task).trans (continues_goto _)⟩
  | registering handle reason =>
    cases reason with
    | awaitingTask target =>
      cases hn
      exact ⟨(h.register _).goto trivial (by simp), .of_tasks rfl rfl rfl⟩
    -- The other reasons register nowhere.
    | awaitingChannelRecv | awaitingChannelSend | awaitingTimer | awaitingNetOp =>
      cases hn
      exact hidle
  | taking handle =>
    cases hn
    exact ⟨(h.register _).goto trivial (by simp), .of_tasks rfl rfl rfl⟩
  | waking waiters =>
    cases waiters with
    | nil =>
      cases hn
      exact hidle
    | cons handle waiters =>
      cases hn
      exact wake_placed h handle waiters
  | stealing => exact steal_placed h hpc hn
  | found handle =>
    simp only [resume] at hn
    split at hn
    · cases hn
      obtain ⟨hp, hc⟩ := setState_placed h handle (.running ((x.worker t).getD 0 + 1))
      have hsuits : x.Fits t (.entering handle) := hfits
      -- The state changes and the home does not, so the task still fits the worker.
      exact ⟨hp.goto (hsuits.continues hc) (by simp), hc.trans (continues_goto _)⟩
    · cases hn
      exact hidle
  | entering handle =>
    simp only [resume] at hn
    split at hn
    · cases hn
    · split at hn
      · cases hn
        -- The worker enters the body of the task that it was found to fit.
        refine ⟨Placed.goto (h.call ?_) trivial (by simp), .of_tasks rfl rfl rfl⟩
        intro handle' heq
        cases heq
        exact hfits
      · cases hn
        exact hidle
  | checking handle result =>
    simp only [resume, some.injEq] at hn
    subst hn
    split
    · split
      · exact hidle
      · exact ⟨h.goto trivial (by simp), continues_goto _⟩
    · exact hidle
  | completing handle result =>
    cases hn
    obtain ⟨hp, hc⟩ := setState_placed h handle (.completed result)
    exact ⟨hp.goto trivial (by simp), hc.trans (continues_goto _)⟩

/-- **One step.** A thread only ever has tasks in its hands that it may run. -/
theorem step_placed (h : Placed ok x) (hok : ∀ fnId markers spawnFunction,
      l.2 = .call (.spawn fnId markers spawnFunction) → ok markers) (hn : next x l = some y) :
    Placed ok y ∧ Continues x y := by
  obtain ⟨t, act⟩ := l
  cases act with
  | call c =>
    cases hpc : x.threads t <;> simp only [next, hpc] at hn
    case idle =>
      split at hn
      · cases hn
      · exact begin_placed h (fun fnId markers spawnFunction heq => hok _ _ _ (by rw [heq])) hn
    all_goals cases hn
  | ret result =>
    cases hpc : x.threads t <;> simp only [next, hpc, leave] at hn
    case idle =>
      split at hn
      · cases hn
        refine ⟨Placed.goto (h.call ?_) trivial (by simp), .of_tasks rfl rfl rfl⟩
        intro handle heq
        cases heq
      · cases hn
    all_goals cases hn
  | resume =>
    have hn' : x.resume t (x.threads t) = some y := by
      rw [← hn]
      cases hpc : x.threads t <;> simp only [next, hpc]
    exact resume_placed h rfl hn'

end Step

/-- The task is sendable or has an origin. -/
def rooted (m : TaskMarkers) : Prop := m.isSendable = true ∨ 0 < m.originThread

theorem Continues.lone (h : Continues x y) (hlone : y.Lone) : x.Lone := by
  intro t t' idx idx' hidx hidx'
  rw [← h.worker] at hidx hidx'
  exact hlone t t' idx idx' hidx hidx'

theorem Anchored.rooted (h : x.Anchored l) (hlone : ¬ x.Lone)
    (fnId : Int64) (markers : TaskMarkers) (spawnFunction : Option String)
    (hl : l.2 = .call (.spawn fnId markers spawnFunction)) : rooted markers := by
  simp only [Anchored, hl] at h
  rcases h with hsend | hpos | hl
  · exact .inl hsend
  · exact .inr hpos
  · exact absurd hl hlone

theorem Placed.pinned (h : Placed rooted x) (hk : x.tasks handle = some k) :
    PinnedTo handle ((k.markers.originThread - 1) % x.numWorkers) x := by
  intro k' hk' hsend t hcur
  obtain rfl : k = k' := some.inj (hk.symm.trans hk')
  have hpos : 0 < k.markers.originThread := by
    rcases h.marked handle k hk with hs | hpos
    · rw [hsend] at hs
      cases hs
    · exact hpos
  obtain ⟨idx, hidx, hhome⟩ := h.current t handle hcur
  have hown : k.markers.home x.numWorkers =
      some ((k.markers.originThread - 1) % x.numWorkers) := if_pos ⟨hsend, hpos⟩
  rcases hhome with ⟨k', hk', hnone⟩ | ⟨k', hk', hsome⟩
  · obtain rfl : k = k' := some.inj (hk.symm.trans hk')
    rw [hown] at hnone
    cases hnone
  · obtain rfl : k = k' := some.inj (hk.symm.trans hk')
    rw [hidx, ← hsome, hown]

theorem Placed.pinned_lone (h : Placed ok x) (hlone : x.Lone)
    (hidx : x.worker t = some idx) (handle : Handle) : PinnedTo handle idx x := by
  intro k hk hsend t' hcur
  obtain ⟨idx', hidx', -⟩ := h.current t' handle hcur
  rw [hidx', hlone t t' idx idx' hidx hidx']

section Run

variable [DecidableEq T]

theorem unstranded_run (h : Fresh x) (ls : List (T × ExecAct)) : Always next Unstranded x ls := by
  have halways : Always next (Placed fun _ => True) x ls := by
    refine always_of_along (c := fun _ _ => True) ?_ (placed_fresh _ h)
      (along_of_forall (fun _ _ => trivial) x)
    exact fun s l s' hs _ hn => (step_placed hs (fun _ _ _ _ => trivial) hn).1
  exact halways.mono fun s hs => hs.unstranded

theorem pinned_run (h : Placed rooted x) (hlone : ¬ x.Lone) {ls : List (T × ExecAct)}
    (hc : Along next Anchored x ls) (handle : Handle) :
    ∃ idx, Always next (PinnedTo handle idx) x ls := by
  induction ls generalizing x with
  | nil =>
    cases hk : x.tasks handle with
    | none =>
      refine ⟨0, fun k hk' => ?_⟩
      rw [hk] at hk'
      cases hk'
    | some k => exact ⟨_, h.pinned hk⟩
  | cons l ls ih =>
    cases hk : x.tasks handle with
    | none =>
      -- nobody is in its callback yet, and what is to come is in the rest of the run
      have hfirst : ∀ idx, PinnedTo handle idx x := by
        intro idx k hk'
        rw [hk] at hk'
        cases hk'
      cases hn : next x l with
      | none =>
        refine ⟨0, hfirst 0, fun s' hs' => ?_⟩
        rw [hn] at hs'
        cases hs'
      | some y =>
        obtain ⟨hy, hcont⟩ := step_placed h (hc.1.rooted hlone) hn
        obtain ⟨idx, hrest⟩ := ih hy (fun hl => hlone (hcont.lone hl)) (hc.2 y hn)
        refine ⟨idx, hfirst idx, fun s' hs' => ?_⟩
        rw [hn] at hs'
        cases hs'
        exact hrest
    | some k =>
      refine ⟨(k.markers.originThread - 1) % x.numWorkers, ?_⟩
      have halways : Always next (fun s => Placed rooted s ∧ Continues x s) x (l :: ls) := by
        refine always_of_along ?_ ⟨h, .of_tasks rfl rfl rfl⟩ hc
        rintro s l s' ⟨hs, hcont⟩ hl hn
        have hlone' : ¬ s.Lone := fun hl => hlone (hcont.lone hl)
        obtain ⟨hs', hcont'⟩ := step_placed hs (hl.rooted hlone') hn
        exact ⟨hs', hcont.trans hcont'⟩
      refine halways.mono ?_
      rintro s ⟨hs, hcont⟩
      obtain ⟨k', hk', hm⟩ := hcont.tasks handle k hk
      rw [← hm, ← hcont.numWorkers]
      exact hs.pinned hk'

theorem pinned_run_lone (h : Fresh x) (hlone : x.Lone) (ls : List (T × ExecAct))
    (handle : Handle) : ∃ idx, Always next (PinnedTo handle idx) x ls := by
  have halways : Always next (fun s => Placed (fun _ => True) s ∧ Continues x s) x ls := by
    refine always_of_along (c := fun _ _ => True) ?_ ⟨placed_fresh _ h, .of_tasks rfl rfl rfl⟩
      (along_of_forall (fun _ _ => trivial) x)
    rintro s l s' ⟨hs, hcont⟩ - hn
    obtain ⟨hs', hcont'⟩ := step_placed hs (fun _ _ _ _ => trivial) hn
    exact ⟨hs', hcont.trans hcont'⟩
  by_cases hworker : ∃ t idx, x.worker t = some idx
  · obtain ⟨t, idx, hidx⟩ := hworker
    refine ⟨idx, halways.mono ?_⟩
    rintro s ⟨hs, hcont⟩
    rw [← hcont.worker] at hidx
    refine hs.pinned_lone ?_ hidx handle
    intro t₁ t₂ idx₁ idx₂ h₁ h₂
    rw [hcont.worker] at h₁ h₂
    exact hlone t₁ t₂ idx₁ idx₂ h₁ h₂
  · -- without workers nobody is in a callback
    refine ⟨0, halways.mono ?_⟩
    rintro s ⟨hs, hcont⟩ k hk hsend t hcur
    obtain ⟨idx, hidx, -⟩ := hs.current t handle hcur
    rw [hcont.worker] at hidx
    exact absurd ⟨t, idx, hidx⟩ hworker

/-- **Tasks stay on their worker.** In every run from a fresh executor no sendable task waits
in the queue of a worker. If every task that is spawned as not sendable has an origin, or there
is one worker only, then the callback of such a task is entered by the same worker throughout
the run, however often the task is blocked and woken. -/
theorem pinned_of_anchored (h : Fresh x) (ls : List (T × ExecAct)) : Always next Unstranded x ls ∧
      (Along next Anchored x ls → ∀ handle, ∃ idx, Always next (PinnedTo handle idx) x ls) := by
  refine ⟨unstranded_run h ls, fun hc handle => ?_⟩
  by_cases hlone : x.Lone
  · exact pinned_run_lone h hlone ls handle
  · exact pinned_run (placed_fresh _ h) hlone hc handle

end Run

/-! ## A task without an origin -/

inductive Seat where
  | client | left | right
  deriving DecidableEq

/-- One client and two workers. -/
def duo : Executor Seat where
  numWorkers := 2
  injector := []
  threadLocalQueues := fun _ => []
  tasks := fun _ => none
  taskWaiters := fun _ => []
  nextHandle := 1
  hasCallback := false
  callbackLock := none
  worker := fun
    | .client => none
    | .left => some 0
    | .right => some 1
  current := fun _ => none
  threads := fun _ => .idle

theorem fresh_duo : Fresh duo :=
  ⟨Nat.two_pos, rfl, fun _ => rfl, fun _ => rfl, fun _ => rfl, rfl, rfl, fun _ => rfl, fun _ => rfl⟩

/-- The client spawns a task that is not sendable and starts it. -/
def confines (origin : ℕ) : List (Seat × ExecAct) :=
  [(.client, .call .registerCallback), (.client, .call (.spawn 1 ⟨false, false, origin⟩ none)),
    (.client, .resume), (.client, .call (.start 1)), (.client, .resume)]

/-- The worker blocks the task and its callback returns; the client wakes it. -/
def pauses (t : Seat) : List (Seat × ExecAct) :=
  [(t, .call (.blockTask 1 (.awaitingTimer 5))), (t, .resume), (t, .ret 0), (t, .resume),
    (.client, .call (.wakeTask 1)), (.client, .resume), (.client, .resume)]

/-- The worker takes a task from its queue, or from the injector, and enters its callback. -/
def takes (t : Seat) (origin : ℕ) : List (Seat × ExecAct) :=
  List.replicate (if 0 < origin then 3 else 4) (t, .resume)

/-- What a worker is running, and whether the first task is sendable. -/
def shown (t : Seat) (x : Executor Seat) : Option ℕ × Option Handle × Option Bool :=
  (x.worker t, x.current t, (x.tasks 1).map (·.markers.isSendable))

theorem pinned_cycle : (∀ handle, ∃ idx, Always next (PinnedTo handle idx) duo
      (confines 2 ++ takes .right 2 ++ pauses .right ++ takes .right 2)) ∧
      (run next duo (confines 2 ++ takes .right 2 ++ pauses .right ++ takes .right 2)).map
        (shown .right) = some (some 1, some 1, some false) := by
  refine ⟨(pinned_of_anchored fresh_duo _).2 ?_, by decide +kernel⟩
  simp [confines, takes, pauses, Along, Anchored]

theorem drifts_first : (run next duo (confines 0 ++ takes .left 0)).map (shown .left) =
      some (some 0, some 1, some false) := by
  decide +kernel

theorem drifts_last :
    (run next duo (confines 0 ++ takes .left 0 ++ (pauses .left ++ takes .right 0))).map
      (shown .right) = some (some 1, some 1, some false) := by
  decide +kernel

theorem worker_of_shown {ls₁ : List (Seat × ExecAct)} (ls₂ : List (Seat × ExecAct))
    {worker : ℕ} {t : Seat} (h : Always next (PinnedTo 1 idx) duo (ls₁ ++ ls₂))
    (hshown : (run next duo ls₁).map (shown t) = some (some worker, some 1, some false)) :
    worker = idx := by
  obtain ⟨x, hrun, hx⟩ := map_eq_some_iff.1 hshown
  simp only [shown, Prod.mk.injEq] at hx
  obtain ⟨hworker, hcur, hsend⟩ := hx
  obtain ⟨k, hk, hk'⟩ := map_eq_some_iff.1 hsend
  have hpinned := (h.of_append hrun).start k hk hk' t hcur
  exact some.inj (hworker.symm.trans hpinned)

/-- **A task without an origin goes to any worker.** -/
theorem drifts : ¬ ∃ idx, Always next (PinnedTo 1 idx) duo
    (confines 0 ++ takes .left 0 ++ (pauses .left ++ takes .right 0)) := by
  rintro ⟨idx, h⟩
  have hfirst : 0 = idx := worker_of_shown _ h drifts_first
  have hlast : 1 = idx := worker_of_shown [] (by rwa [List.append_nil]) drifts_last
  omega

end Executor

end Arth.Runtime
