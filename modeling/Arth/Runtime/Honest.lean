import Arth.Runtime.Finality

/-!
# Runs of the threaded executor

* `begin_step`, `resume_step`, `leave_step` — a careful step keeps the invariant and the
  states of the tasks that have ended.
* `step_released` — how a task stops waiting.
* `honest_of_careful` — what follows for runs.
* `finished_strands` — a run that is not careful.
-/

namespace Arth.Runtime

open List Option Function

/-- The thread owes nobody anything: it neither has a task in its hands nor waiters to
register, take or wake. -/
def ExecPc.plain : ExecPc → Bool
  | .registering _ (.awaitingTask _) => false
  | .taking _ | .waking _ | .requeueing _ _ | .found _ => false
  | _ => true

namespace Executor

open Runs

variable {T : Type} {x y : Executor T} {t : T}

/-- The tasks that have ended stay as they are. -/
def Keeps (x y : Executor T) : Prop :=
  ∀ handle, x.ended handle = true → y.state handle = x.state handle

variable {pc : ExecPc}

theorem wakes_of_plain (h : pc.plain = true) : pc.wakes = [] := by
  cases pc <;> first | rfl | cases h

theorem carries_of_plain (h : pc.plain = true) (handle : Handle) : pc.carries handle = false := by
  cases pc <;> first | rfl | cases h

theorem Passes.of_plain (hplain : (x.threads t).plain = true)
    (hfresh : ∀ handle k, pc ≠ .allocated handle k)
    (hcommits : ∀ handle, pc.commits handle = true → x.ended handle = false) : Passes x t pc := by
  refine ⟨hfresh, hcommits, ?_, ?_, ?_, ?_⟩
  · intro handle target hpc
    rw [hpc] at hplain
    cases hplain
  · intro target hpc
    rw [hpc] at hplain
    cases hplain
  · intro handle hmem
    rw [wakes_of_plain hplain] at hmem
    cases hmem
  · intro handle hcarry
    rw [carries_of_plain hplain] at hcarry
    cases hcarry

variable [DecidableEq T]

theorem keeps_goto (pc : ExecPc) : Keeps x (x.goto t pc) := fun _ _ => rfl

variable {st : MTTaskState}

theorem keeps_setState {handle : Handle}
    (h : x.ended handle = false) : Keeps x ((x.setState handle st).goto t pc) := by
  intro h' hend
  have hne : h' ≠ handle := by
    rintro rfl
    rw [h] at hend
    cases hend
  exact (state_setState handle h' st).trans (if_neg hne)

theorem keeps_push (task : ScheduledTask) (pc : ExecPc) : Keeps x ((x.push task).goto t pc) := by
  intro h' _
  change (x.push task).state h' = x.state h'
  rw [state, state, tasks_push]

theorem Inv.goto_idle (h : Inv x) (hplain : (x.threads t).plain = true)
    (hfresh : ∀ handle k, pc ≠ .allocated handle k)
    (hcommits : ∀ handle, pc.commits handle = false) : Inv (x.goto t pc) :=
  h.goto (.of_plain hplain hfresh fun handle hc => by rw [hcommits handle] at hc; cases hc)

variable {waiters : List Handle} {l : T × ExecAct} {c : ExecCall}

theorem wake_step (h : Inv x) {handle : Handle}
    (hpc : (x.threads t = .idle ∧ waiters = []) ∨ x.threads t = .waking (handle :: waiters)) :
    Inv (x.wake t handle waiters) ∧ Keeps x (x.wake t handle waiters) := by
  -- the task is not blocked, so nobody is owed a wake
  have hskip : (∀ target, ¬ x.Awaits handle target) → Inv (x.goto t (.waking waiters)) := by
    intro hnot
    refine h.goto ⟨by simp, by simp [ExecPc.commits], ?_, ?_, ?_, ?_⟩
    · intro h' target hreg
      rcases hpc with ⟨hpc, -⟩ | hpc <;> rw [hpc] at hreg <;> cases hreg
    · intro target htake
      rcases hpc with ⟨hpc, -⟩ | hpc <;> rw [hpc] at htake <;> cases htake
    · intro h' hmem target hwait
      rcases hpc with ⟨hpc, -⟩ | hpc
      · rw [hpc] at hmem
        simp [ExecPc.wakes] at hmem
      · rw [hpc] at hmem
        rcases mem_cons.1 hmem with rfl | hmem
        · exact absurd hwait (hnot target)
        · exact hmem
    · intro h' hcarry
      rcases hpc with ⟨hpc, -⟩ | hpc <;> simp [hpc, ExecPc.carries] at hcarry
  cases hk : x.tasks handle with
  | none =>
    have hwake : x.wake t handle waiters = x.goto t (.waking waiters) := by
      simp only [wake, hk]
    rw [hwake]
    refine ⟨hskip fun target hwait => ?_, keeps_goto _⟩
    rw [Awaits, state, hk] at hwait
    cases hwait
  | some k =>
    by_cases hb : k.state.isBlocked = true
    · have hwake : x.wake t handle waiters =
          (x.modify handle fun k => { k with state := .pending, woken := true }).goto t
            (.requeueing (k.scheduled handle) waiters) := by
        simp only [wake, hk, hb, if_true]
      rw [hwake]
      refine ⟨h.wake_blocked hk hb hpc rfl, fun h' hend => ?_⟩
      have hne : h' ≠ handle := by
        rintro rfl
        rw [ended, state, hk, map_some, any_some, isCompleted_of_isBlocked hb] at hend
        cases hend
      exact (state_modify handle h' _).trans (if_neg hne)
    · have hwake : x.wake t handle waiters = x.goto t (.waking waiters) := by
        simp only [wake, hk, if_neg hb]
      rw [hwake]
      refine ⟨hskip fun target hwait => ?_, keeps_goto _⟩
      rw [Awaits, state, hk] at hwait
      have hst : k.state = .blocked (.awaitingTask target) := some.inj hwait
      rw [hst] at hb
      exact hb rfl

theorem end_step (h : Inv x) {handle : Handle} (hst : st.isCompleted = true)
    (hplain : (x.threads t).plain = true) (hlive : x.ended handle = false)
    (halone : x.Alone t handle) : Inv ((x.setState handle st).goto t (.taking handle)) ∧
      Keeps x ((x.setState handle st).goto t (.taking handle)) := by
  refine ⟨?_, keeps_setState hlive⟩
  have hgoto : Inv (x.goto t (.taking handle)) :=
    h.goto_idle hplain (by simp) (by simp [ExecPc.commits])
  refine hgoto.setState ?_ (fun _ t' => ?_) (fun _ => ⟨t, threads_goto_self _⟩) ?_
  · rintro rfl
    cases hst
  · by_cases hne : t' = t
    · subst hne
      rw [threads_goto_self]
      rfl
    · rw [threads_goto_of_ne hne]
      exact halone t' hne
  · rintro target rfl
    cases hst

theorem begin_step (h : Inv x) (hpc : x.threads t = .idle)
    (hc : Careful x (t, .call c)) (hn : x.begin t c = some y) : Inv y ∧ Keeps x y := by
  have hplain : (x.threads t).plain = true := by rw [hpc]; rfl
  cases c with
  | registerCallback =>
    simp only [begin] at hn
    split at hn
    · cases hn
      exact ⟨h.same ⟨rfl, rfl, rfl, rfl, rfl, rfl, rfl⟩, fun _ _ => rfl⟩
    · cases hn
  | spawn fnId markers spawnFunction =>
    cases hn
    exact ⟨h.allocate hpc ⟨rfl, rfl⟩, fun _ _ => rfl⟩
  | pushArg handle arg =>
    simp only [begin, some.injEq] at hn
    split at hn
    · subst hn
      refine ⟨h.modify fun k => ⟨rfl, rfl⟩, fun h' _ => ?_⟩
      refine (state_modify handle h' _).trans ?_
      split_ifs with heq
      · rw [heq]
        rfl
      · rfl
    · subst hn
      exact ⟨h, fun _ _ => rfl⟩
  | start handle =>
    simp only [begin, some.injEq] at hn
    subst hn
    cases x.tasks handle with
    | none => exact ⟨h, fun _ _ => rfl⟩
    | some k =>
      by_cases hpend : k.state = .pending
      · simp only [hpend, if_true]
        exact ⟨h.goto_idle hplain (by simp) (by simp [ExecPc.commits]), keeps_goto _⟩
      · simp only [hpend, if_false]
        exact ⟨h, fun _ _ => rfl⟩
  | blockTask handle reason =>
    cases hn
    have hlive : x.ended handle = false := by simpa only [Careful, hpc] using hc
    refine ⟨?_, keeps_setState hlive⟩
    have hgoto : Inv (x.goto t (.registering handle reason)) :=
      h.goto_idle hplain (by simp) (by simp [ExecPc.commits])
    refine hgoto.setState (by simp) (fun hst => ?_) (fun hst => ?_) ?_
    · cases hst
    · cases hst
    · intro target hst
      cases hst
      exact ⟨t, threads_goto_self _⟩
  | wakeTask handle =>
    cases hn
    exact wake_step h (.inl ⟨hpc, rfl⟩)
  | completeTask handle | panicTask handle =>
    cases hn
    obtain ⟨hlive, halone⟩ : x.ended handle = false ∧ x.Alone t handle := by
      simpa only [Careful, hpc] using hc
    exact end_step h rfl hplain hlive halone
  | cancelTask handle =>
    simp only [begin, some.injEq] at hn
    subst hn
    have halone : x.Alone t handle := by simpa only [Careful, hpc] using hc
    cases hk : x.tasks handle with
    | none => exact ⟨h, fun _ _ => rfl⟩
    | some k =>
      cases hst : k.state.isCompleted with
      | true => simpa only [hst, if_true] using ⟨h, fun _ _ => rfl⟩
      | false =>
        have hlive : x.ended handle = false := by
          rw [ended, state, hk, map_some, any_some, hst]
        simp only [hst, Bool.false_eq_true, if_false]
        exact end_step h rfl hplain hlive halone

/-! ## The other steps -/

section

variable (h : Inv x)
include h

theorem seek_step (hpc : x.threads t = .idle) (idx : ℕ) :
    Inv (x.seek t idx) ∧ Keeps x (x.seek t idx) := by
  have hplain : (x.threads t).plain = true := by rw [hpc]; rfl
  cases hq : x.threadLocalQueues idx with
  | nil =>
    have hseek : x.seek t idx = x.goto t .stealing := by simp only [seek, hq]
    rw [hseek]
    exact ⟨h.goto_idle hplain (by simp) (by simp [ExecPc.commits]), keeps_goto _⟩
  | cons handle queue =>
    have hseek : x.seek t idx = { x.goto t (.found handle) with
          threadLocalQueues := update x.threadLocalQueues idx queue } := by
      simp only [seek, hq]
      rfl
    rw [hseek]
    refine ⟨?_, fun _ _ => rfl⟩
    have hgoto : Inv (x.goto t (.found handle)) :=
      h.goto_idle hplain (by simp) (by simp [ExecPc.commits])
    refine hgoto.pop handle ⟨t, ?_⟩ ?_
    · simp [ExecPc.carries]
    · rintro h' (hinj | ⟨i, hi, hmem⟩) hne
      · exact .inl hinj
      · have hmem : h' ∈ x.threadLocalQueues i := hmem
        refine .inr ⟨i, hi, ?_⟩
        by_cases heq : i = idx
        · subst heq
          have hmem : h' ∈ handle :: queue := hq ▸ hmem
          simpa using (mem_cons.1 hmem).resolve_left hne
        · simpa [update_of_ne heq] using hmem

theorem steal_step (hpc : x.threads t = .stealing)
    (hn : x.resume t .stealing = some y) : Inv y ∧ Keeps x y := by
  have hplain : (x.threads t).plain = true := by rw [hpc]; rfl
  simp only [resume] at hn
  split at hn
  · rename_i task injector hinj
    cases hn
    refine ⟨?_, fun _ _ => rfl⟩
    have hgoto : Inv (x.goto t (.found task.handle)) :=
      h.goto_idle hplain (by simp) (by simp [ExecPc.commits])
    refine hgoto.pop task.handle ⟨t, ?_⟩ ?_
    · simp [ExecPc.carries]
    · rintro h' (⟨k, hk, rfl⟩ | hlocal) hne
      · refine .inl ⟨k, ?_, rfl⟩
        have hk : k ∈ task :: injector := hinj ▸ hk
        refine (mem_cons.1 hk).resolve_left ?_
        rintro rfl
        exact hne rfl
      · exact .inr hlocal
  · cases hn
    exact ⟨h.goto_idle hplain (by simp) (by simp [ExecPc.commits]), keeps_goto _⟩

theorem register_step {handle : Handle} {reason : MTBlockReason}
    (hpc : x.threads t = .registering handle reason) (hc : Careful x (t, .resume))
    (hn : x.resume t (.registering handle reason) = some y) : Inv y ∧ Keeps x y := by
  cases reason with
  | awaitingTask target =>
    cases hn
    refine ⟨?_, fun _ _ => rfl⟩
    have hopen : x.Awaits handle target → x.Open target := by
      simpa only [Careful, hpc] using hc
    refine (h.register target handle).goto ⟨by simp, by simp [ExecPc.commits], ?_, ?_, ?_, ?_⟩
    · intro h' target' hreg hwait
      obtain ⟨rfl, htarget⟩ : handle = h' ∧ MTBlockReason.awaitingTask target =
          .awaitingTask target' := by
        simpa using hpc.symm.trans hreg
      cases htarget
      refine ⟨by simp, ?_⟩
      rcases hopen hwait with hlive | ⟨t', htake⟩
      · exact .inl hlive
      · refine .inr ⟨t', ?_, htake⟩
        rintro rfl
        rw [hpc] at htake
        cases htake
    · intro target' htake
      cases hpc.symm.trans htake
    · intro h' hmem
      rw [hpc] at hmem
      simp [ExecPc.wakes] at hmem
    · intro h' hcarry
      rw [hpc] at hcarry
      simp [ExecPc.carries] at hcarry
  | awaitingChannelRecv | awaitingChannelSend | awaitingTimer | awaitingNetOp =>
    cases hn
    have hplain : (x.threads t).plain = true := by rw [hpc]; rfl
    exact ⟨h.goto_idle hplain (by simp) (by simp [ExecPc.commits]), keeps_goto _⟩

theorem take_step {handle : Handle} (hpc : x.threads t = .taking handle)
    (hn : x.resume t (.taking handle) = some y) : Inv y ∧ Keeps x y := by
  cases hn
  refine ⟨?_, fun _ _ => rfl⟩
  have hgoto : Inv (x.goto t (.waking (x.taskWaiters handle))) := by
    refine h.goto ⟨by simp, by simp [ExecPc.commits], ?_, ?_, ?_, ?_⟩
    · intro h' target hreg
      cases hpc.symm.trans hreg
    · intro target htake h' hmem
      cases hpc.symm.trans htake
      exact hmem
    · intro h' hmem
      rw [hpc] at hmem
      simp [ExecPc.wakes] at hmem
    · intro h' hcarry
      simp [hpc, ExecPc.carries] at hcarry
  refine hgoto.take handle fun h' hmem => ⟨t, ?_⟩
  rw [threads_goto_self]
  exact hmem

theorem requeue_step {task : ScheduledTask}
    (hpc : x.threads t = .requeueing task waiters) : Inv ((x.push task).goto t (.waking waiters)) ∧
      Keeps x ((x.push task).goto t (.waking waiters)) := by
  refine ⟨?_, keeps_push task _⟩
  have hthreads : (x.push task).threads = x.threads := by
    unfold push
    split <;> rfl
  refine (h.push task).goto ⟨by simp, by simp [ExecPc.commits], ?_, ?_, ?_, ?_⟩
  · intro h' target hreg
    rw [hthreads, hpc] at hreg
    cases hreg
  · intro target htake
    rw [hthreads, hpc] at htake
    cases htake
  · intro h' hmem target _
    rwa [hthreads, hpc] at hmem
  · intro h' hcarry _
    rw [hthreads, hpc] at hcarry
    exact .inl (queued_push (.inr (by simpa [ExecPc.carries] using hcarry)) h.numWorkers)

theorem found_step {handle : Handle} (hpc : x.threads t = .found handle)
    (hn : x.resume t (.found handle) = some y) : Inv y ∧ Keeps x y := by
  have hpasses : ∀ z : Executor T, z.threads t = .found handle → ¬ z.Woken handle →
      ∀ pc : ExecPc, (∀ h' k, pc ≠ .allocated h' k) →
        (∀ h', pc.commits h' = true → z.ended h' = false) → Passes z t pc := by
    intro z hz hnot pc hfresh hcommits
    refine ⟨hfresh, hcommits, ?_, ?_, ?_, ?_⟩
    · intro h' target hreg
      cases hz.symm.trans hreg
    · intro target htake
      cases hz.symm.trans htake
    · intro h' hmem
      rw [hz] at hmem
      simp [ExecPc.wakes] at hmem
    · intro h' hcarry hwoken
      rw [hz] at hcarry
      obtain rfl : handle = h' := by simpa [ExecPc.carries] using hcarry
      exact absurd hwoken hnot
  simp only [resume] at hn
  split_ifs at hn with hpend
  · cases hn
    have hlive : x.ended handle = false := by
      rw [ended, hpend]
      rfl
    refine ⟨?_, keeps_setState hlive⟩
    have hrunning : Inv (x.setState handle (.running ((x.worker t).getD 0 + 1))) := by
      refine h.setState (by simp) (fun hst => ?_) (fun hst => ?_) ?_
      · cases hst
      · cases hst
      · intro target hst
        cases hst
    refine hrunning.goto (hpasses (x.setState handle _) hpc ?_ _ (by simp) ?_)
    · rintro ⟨k, hk, hk', -⟩
      have hrun := state_setState (x := x) handle handle (.running ((x.worker t).getD 0 + 1))
      rw [state, hk, map_some, hk', if_pos rfl] at hrun
      obtain ⟨-, -, hst⟩ := map_eq_some_iff.1 hrun.symm
      cases hst
    · intro h' hc
      obtain rfl : handle = h' := by simpa [ExecPc.commits] using hc
      by_contra hend
      rcases ended_setState ((Bool.not_eq_false _).mp hend) with ⟨-, hst⟩ | hold
      · cases hst
      · rw [hlive] at hold
        cases hold
  · cases hn
    refine ⟨h.goto (hpasses x hpc ?_ _ (by simp) (by simp [ExecPc.commits])), keeps_goto _⟩
    rintro ⟨k, hk, hk', -⟩
    exact hpend (by rw [state, hk, map_some, hk'])

theorem resume_step (hpc : x.threads t = pc)
    (hc : Careful x (t, .resume)) (hn : x.resume t pc = some y) : Inv y ∧ Keeps x y := by
  -- what is left of an operation that ends here
  have hdone : pc.plain = true → Inv (x.goto t .idle) := by
    intro hplain
    exact h.goto_idle (hpc ▸ hplain) (by simp) (by simp [ExecPc.commits])
  cases pc with
  | idle =>
    simp only [resume] at hn
    split at hn
    · cases hn
      exact seek_step h hpc _
    · cases hn
  | allocated handle k =>
    cases hn
    refine ⟨h.insert hpc rfl, fun h' hend => ?_⟩
    have hne : h' ≠ handle := by
      rintro rfl
      rw [ended, state, (h.allocated t h' k hpc).2.1] at hend
      cases hend
    exact congrArg (Option.map (·.state)) (update_of_ne hne (some k) x.tasks)
  | enqueueing task =>
    cases hn
    refine ⟨?_, keeps_push task _⟩
    have hthreads : (x.push task).threads = x.threads := by
      unfold push
      split <;> rfl
    exact (h.push task).goto_idle (by rw [hthreads, hpc]; rfl) (by simp) (by simp [ExecPc.commits])
  | registering handle reason => exact register_step h hpc hc hn
  | taking handle => exact take_step h hpc hn
  | waking waiters =>
    cases waiters with
    | nil =>
      cases hn
      refine ⟨h.goto ⟨by simp, by simp [ExecPc.commits], ?_, ?_, ?_, ?_⟩, keeps_goto _⟩ <;>
        simp [hpc, ExecPc.wakes, ExecPc.carries]
    | cons handle waiters =>
      cases hn
      exact wake_step h (.inr hpc)
  | requeueing task waiters =>
    cases hn
    exact requeue_step h hpc
  | stealing => exact steal_step h hpc hn
  | found handle => exact found_step h hpc hn
  | entering handle =>
    simp only [resume] at hn
    split at hn
    · cases hn
    · split at hn
      · cases hn
        exact ⟨(hdone rfl).same ⟨rfl, rfl, rfl, rfl, rfl, rfl, rfl⟩, fun _ _ => rfl⟩
      · cases hn
        exact ⟨hdone rfl, keeps_goto _⟩
  | checking handle result =>
    simp only [resume, some.injEq] at hn
    subst hn
    cases hst : x.state handle with
    | none => exact ⟨hdone rfl, keeps_goto _⟩
    | some st =>
      by_cases hstop : (st.isCompleted || st.isBlocked) = true
      · simp only [hstop, if_true]
        exact ⟨hdone rfl, keeps_goto _⟩
      · simp only [hstop]
        have hlive : x.ended handle = false := by
          rw [ended, hst, any_some]
          simp only [Bool.or_eq_true, not_or, Bool.not_eq_true] at hstop
          exact hstop.1
        refine ⟨h.goto (.of_plain (by rw [hpc]; rfl) (by simp) fun h' hcom => ?_), keeps_goto _⟩
        obtain rfl : handle = h' := by simpa [ExecPc.commits] using hcom
        exact hlive
  | completing handle result =>
    cases hn
    have halone : x.Alone t handle := by simpa only [Careful, hpc] using hc
    have hlive := h.committed t handle (by rw [hpc]; simp [ExecPc.commits])
    exact end_step h rfl (by rw [hpc]; rfl) hlive halone

theorem leave_step (hpc : x.threads t = .idle) {result : Int64}
    (hn : x.leave t result = some y) : Inv y ∧ Keeps x y := by
  unfold leave at hn
  split at hn
  · rename_i handle _
    cases hn
    have hgoto : Inv (x.goto t (.checking handle result)) :=
      h.goto_idle (by rw [hpc]; rfl) (by simp) (by simp [ExecPc.commits])
    exact ⟨hgoto.same ⟨rfl, rfl, rfl, rfl, rfl, rfl, rfl⟩, fun _ _ => rfl⟩
  · cases hn

/-- **One careful step** keeps the invariant, and the tasks that have ended. -/
theorem step_inv (hc : Careful x l) (hn : next x l = some y) : Inv y ∧ Keeps x y := by
  obtain ⟨t, act⟩ := l
  cases act with
  | call c =>
    cases hpc : x.threads t <;> simp only [next, hpc] at hn
    case idle =>
      split at hn
      · cases hn
      · exact begin_step h hpc hc hn
    all_goals cases hn
  | ret result =>
    cases hpc : x.threads t <;> simp only [next, hpc] at hn
    case idle => exact leave_step h hpc hn
    all_goals cases hn
  | resume =>
    have hn' : x.resume t (x.threads t) = some y := by
      rw [← hn]
      cases hpc : x.threads t <;> simp only [next, hpc]
    exact resume_step h rfl hc hn'

end

/-! ## Waiting tasks -/

theorem awaits_setState {handle h' target : Handle} (hw : x.Awaits handle target) :
    ((x.setState h' st).goto t pc).Awaits handle target ∨ h' = handle := by
  by_cases heq : h' = handle
  · exact .inr heq
  · left
    change (x.setState h' st).state handle = _
    rw [state_setState, if_neg fun h => heq h.symm]
    exact hw

theorem awaits_wake {handle h' target : Handle} (hw : x.Awaits handle target) :
    (x.wake t h' waiters).Awaits handle target ∨ (x.wake t h' waiters).Woken handle := by
  by_cases heq : h' = handle
  · subst heq
    right
    obtain ⟨k, hk, hst⟩ := map_eq_some_iff.1 hw
    have hb : k.state.isBlocked = true := by rw [hst]; rfl
    refine ⟨{ k with state := .pending, woken := true }, ?_, rfl, rfl⟩
    simp only [wake, hk, hb, if_true]
    change update x.tasks h' _ h' = _
    rw [update_self, hk]
    rfl
  · left
    unfold wake
    split
    · split
      · change (x.modify h' _).state handle = _
        rw [state_modify, if_neg fun h => heq h.symm]
        exact hw
      · exact hw
    · exact hw

section Released

variable {handle target : Handle}

omit [DecidableEq T] in
theorem awaits_of_tasks (hw : x.Awaits handle target) (heq : y.tasks = x.tasks) :
    y.Awaits handle target := by
  rw [Awaits, state, heq]
  exact hw

theorem begin_released (hpc : x.threads t = .idle) (hn : x.begin t c = some y)
    (hw : x.Awaits handle target) :
    y.Awaits handle target ∨ y.Woken handle ∨ x.Moves (t, .call c) handle := by
  cases c with
  | registerCallback =>
    simp only [begin] at hn
    split at hn <;> cases hn
    exact .inl hw
  | spawn fnId markers spawnFunction =>
    cases hn
    exact .inl hw
  | pushArg h' arg =>
    simp only [begin, some.injEq] at hn
    subst hn
    split
    · left
      rw [Awaits, state_modify]
      split_ifs with heq
      · subst heq
        exact hw
      · exact hw
    · exact .inl hw
  | start h' =>
    simp only [begin, some.injEq] at hn
    subst hn
    left
    split
    · split <;> exact hw
    · exact hw
  | blockTask | completeTask | panicTask =>
    cases hn
    refine (awaits_setState hw).imp id fun heq => .inr ?_
    simpa only [Moves, hpc] using heq
  | wakeTask h' =>
    cases hn
    exact (awaits_wake hw).imp id .inl
  | cancelTask h' =>
    simp only [begin, some.injEq] at hn
    subst hn
    split
    · split
      · exact .inl hw
      · refine (awaits_setState hw).imp id fun heq => .inr ?_
        simpa only [Moves, hpc] using heq
    · exact .inl hw

theorem resume_released (h : Inv x) {pc : ExecPc} (hpc : x.threads t = pc)
    (hn : x.resume t pc = some y) (hw : x.Awaits handle target) :
    y.Awaits handle target ∨ y.Woken handle ∨ x.Moves (t, .resume) handle := by
  cases pc with
  | idle =>
    simp only [resume] at hn
    split at hn <;> cases hn
    left
    unfold seek
    split <;> exact hw
  | allocated h' k =>
    cases hn
    have hne : handle ≠ h' := by
      rintro rfl
      rw [Awaits, state, (h.allocated t handle k hpc).2.1] at hw
      cases hw
    left
    refine Eq.trans ?_ hw
    exact congrArg (Option.map (·.state)) (update_of_ne hne (some k) x.tasks)
  | enqueueing task | requeueing task =>
    cases hn
    exact .inl (awaits_of_tasks hw (tasks_push task))
  | registering h' reason =>
    left
    cases reason <;> cases hn <;> exact hw
  | taking h' =>
    cases hn
    exact .inl hw
  | waking waiters =>
    cases waiters with
    | nil =>
      cases hn
      exact .inl hw
    | cons h' waiters =>
      cases hn
      exact (awaits_wake hw).imp id .inl
  | stealing =>
    simp only [resume] at hn
    split at hn <;> cases hn <;> exact .inl hw
  | found h' =>
    simp only [resume] at hn
    split_ifs at hn with hpend
    · cases hn
      refine (awaits_setState hw).imp id fun heq => ?_
      rw [heq, hw] at hpend
      cases hpend
    · cases hn
      exact .inl hw
  | entering h' =>
    simp only [resume] at hn
    split at hn
    · cases hn
    · split at hn <;> cases hn <;> exact .inl hw
  | checking h' result =>
    simp only [resume, some.injEq] at hn
    subst hn
    left
    split
    · split <;> exact hw
    · exact hw
  | completing h' result =>
    cases hn
    refine (awaits_setState hw).imp id fun heq => .inr ?_
    simpa only [Moves, hpc] using heq

theorem step_released (h : Inv x) (hn : next x l = some y)
    (hw : x.Awaits handle target) : y.Awaits handle target ∨ y.Woken handle ∨ x.Moves l handle := by
  obtain ⟨t, act⟩ := l
  cases act with
  | call c =>
    cases hpc : x.threads t <;> simp only [next, hpc] at hn
    case idle =>
      split at hn
      · cases hn
      · exact begin_released hpc hn hw
    all_goals cases hn
  | ret result =>
    cases hpc : x.threads t <;> simp only [next, hpc, leave] at hn
    case idle =>
      split at hn <;> cases hn
      exact .inl hw
    all_goals cases hn
  | resume =>
    have hn' : x.resume t (x.threads t) = some y := by
      rw [← hn]
      cases hpc : x.threads t <;> simp only [next, hpc]
    exact resume_released h rfl hn' hw

end Released

/-! ## Runs -/

omit [DecidableEq T] in
theorem Keeps.trans {z : Executor T} (h : Keeps x y) (h' : Keeps y z) : Keeps x z := by
  intro handle hend
  have hsame := h handle hend
  have hend' : y.ended handle = true := by rwa [ended, hsame]
  exact (h' handle hend').trans hsame

theorem run_inv (h : Inv x) {ls : List (T × ExecAct)} (hc : Along next Careful x ls)
    (hrun : run next x ls = some y) : Inv y ∧ Keeps x y := by
  induction ls generalizing x with
  | nil =>
    cases hrun
    exact ⟨h, fun _ _ => rfl⟩
  | cons l ls ih =>
    obtain ⟨x₁, hn, hrest⟩ := bind_eq_some_iff.1 hrun
    obtain ⟨h₁, hk₁⟩ := step_inv h hc.1 hn
    obtain ⟨hy, hk⟩ := ih h₁ (hc.2 x₁ hn) hrest
    exact ⟨hy, hk₁.trans hk⟩

/-- **Ended tasks are final.** In every run of careful steps from a fresh executor the state
of a task that has ended does not change and its callback is not entered; a task stops waiting
because it is woken, unless it is blocked or ended itself; and whenever no operation is under
way no task waits for one that has ended, and the tasks that were woken are in a queue. -/
theorem honest_of_careful {ls : List (T × ExecAct)} (h : Fresh x)
    (hc : Along next Careful x ls) : Honest x ls := by
  have hinv := inv_fresh h
  refine ⟨?_, ?_, ?_⟩
  · have halways : Always next Inv x ls :=
      always_of_along (fun s l s' hs hcare hn => (step_inv hs hcare hn).1) hinv hc
    exact halways.mono fun s hs => hs.settled
  · intro ls₁ ls₂ x₁ x₂ hls hrun₁ hrun₂ handle hend
    obtain ⟨hc₁, hc₂⟩ := Along.of_append (hls ▸ hc) hrun₁
    obtain ⟨h₁, -⟩ := run_inv hinv hc₁ hrun₁
    exact (run_inv h₁ hc₂ hrun₂).2 handle hend
  · intro ls₁ l ls₂ x₁ x₂ hls hrun hn handle target hw
    obtain ⟨hc₁, -⟩ := Along.of_append (hls ▸ hc) hrun
    exact step_released (run_inv hinv hc₁ hrun).1 hn hw

instance [Fintype T] (x : Executor T) (l : T × ExecAct) : Decidable (Careful x l) := by
  unfold Careful Alone Awaits Open
  split <;> infer_instance

/-- One client and one worker. -/
def small : Executor Bool where
  numWorkers := 1
  injector := []
  threadLocalQueues := fun _ => []
  tasks := fun _ => none
  taskWaiters := fun _ => []
  nextHandle := 1
  hasCallback := false
  callbackLock := none
  worker := fun t => if t then some 0 else none
  current := fun _ => none
  threads := fun _ => .idle

theorem fresh_small : Fresh small :=
  ⟨Nat.one_pos, rfl, fun _ => rfl, fun _ => rfl, fun _ => rfl, rfl, rfl, fun _ => rfl, fun _ => rfl⟩

/-- The client spawns two tasks and starts the second one. -/
def spawns : List (Bool × ExecAct) :=
  [(false, .call .registerCallback),
    (false, .call (.spawn 1 ⟨true, true, 0⟩ none)), (false, .resume),
    (false, .call (.spawn 2 ⟨true, true, 0⟩ none)), (false, .resume),
    (false, .call (.start 2)), (false, .resume)]

/-- The first task waits for the second one. -/
def awaits : List (Bool × ExecAct) :=
  [(false, .call (.blockTask 1 (.awaitingTask 2))), (false, .resume)]

/-- The worker runs the second task, which returns 7. -/
def works : List (Bool × ExecAct) :=
  List.replicate 4 (true, .resume) ++ (true, .ret 7) :: List.replicate 4 (true, .resume)

theorem honest_awaited :
    Honest small (spawns ++ awaits ++ works ++ List.replicate 2 (true, .resume)) ∧
      (run next small (spawns ++ awaits ++ works ++ List.replicate 2 (true, .resume))).map
        (fun x => (x.state 2, x.state 1, x.injector.map (·.handle))) =
          some (some (.completed 7), some .pending, [1]) :=
  ⟨honest_of_careful fresh_small (by decide +kernel), by decide +kernel⟩

theorem late_state : (run next small (spawns ++ works ++ awaits)).map
      (fun x => (x.threads false, x.threads true, x.state 1, x.ended 2)) =
        some (.idle, .idle, some (.blocked (.awaitingTask 2)), true) := by
  decide +kernel

/-- **A task that waits for one that has ended waits for ever.** -/
theorem finished_strands : ¬ Honest small (spawns ++ works ++ awaits) := by
  rintro ⟨halways, -, -⟩
  obtain ⟨x, hrun, hx⟩ := Option.map_eq_some_iff.1 late_state
  simp only [Prod.mk.injEq] at hx
  obtain ⟨hclient, hworker, hwait, hended⟩ := hx
  have hquiet : x.Quiet := by
    intro t
    cases t
    · exact hclient
    · exact hworker
  have hlive := (halways.last hrun).awake hquiet 1 2 hwait
  rw [hended] at hlive
  cases hlive

end Executor

end Arth.Runtime
