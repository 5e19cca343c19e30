import Arth.Lib.Runs

/-!
# The task tables of the language

* `Table` — the table of function tasks, the table of poll tasks and the cancellation flags.
* `Entry` — what the three hold for one handle; the queries look at nothing else.
* `Table.next` — one operation on any handle.
* `Reports` — every query reports one outcome.
* `lifecycle_iff` — the runs in which all queries report the first outcome of every task.
-/

namespace Arth.Runtime.TaskTable

open Runs Option Function

abbrev Handle := ℤ

inductive TaskState where
  | pending
  | running
  | completed (result : Int64)
  | cancelled
  | panicked (message : String)
  | error (exception : Int64)
  deriving DecidableEq

/-- The terminal outcomes of a task. -/
inductive Outcome where
  | completed (result : Int64)
  | cancelled
  | panicked (message : String)
  | error (exception : Int64)
  deriving DecidableEq

/-- A poll task; the result is kept beside the state. -/
structure PollTaskInfo where
  state : TaskState
  result : Option Int64
  deriving DecidableEq

/-- What the tables hold for one handle. -/
structure Entry where
  fn : Option TaskState
  poll : Option PollTaskInfo
  cancel : Bool
  deriving DecidableEq

namespace Entry

variable (e : Entry)

/-- `__arth_await`: the value, and the panic that is propagated to the caller. -/
def await : Int64 × Option String :=
  if e.cancel then (-1, none)
  else
    match e.fn with
    | some (.completed result) => (result, none)
    | some .cancelled => (-1, none)
    | some (.panicked message) => (-2, some message)
    | _ => (0, none)

/-- `__arth_task_join`, which looks at the same tables in the same order. -/
def join : Int64 × Option String :=
  if e.cancel then (-1, none)
  else
    match e.fn with
    | some (.completed result) => (result, none)
    | some .cancelled => (-1, none)
    | some (.panicked message) => (-2, some message)
    | _ => (0, none)

/-- `__arth_task_get_result`. -/
def getResult : Int64 :=
  match e.poll.bind (·.result) with
  | some result => result
  | none =>
    match e.fn with
    | some (.completed result) => result
    | _ => 0

end Entry

def TaskState.code : TaskState → ℤ
  | .pending => 0
  | .running => 1
  | .completed _ => 2
  | .cancelled => 3
  | .panicked _ => 4
  | .error _ => 5

def TaskState.isError : TaskState → Bool
  | .error _ => true
  | _ => false

namespace Entry

variable (e : Entry)

/-- `__arth_task_get_state`. -/
def getState : ℤ :=
  match e.poll with
  | some info => info.state.code
  | none =>
    match e.fn with
    | some state => state.code
    | none => -1

/-- `__arth_task_is_completed`, of function tasks. -/
def isCompleted : Bool :=
  match e.fn with
  | some (.completed _) | some .cancelled | some (.panicked _) => true
  | _ => false

/-- `__arth_task_has_error`. -/
def hasError : Bool :=
  e.poll.any (·.state.isError) || e.fn.any (·.isError)

end Entry

/-- The answer of `await` and `join` that stands for an outcome; none does for an exception. -/
def Outcome.awaited : Outcome → Option (Int64 × Option String)
  | .completed result => some (result, none)
  | .cancelled => some (-1, none)
  | .panicked message => some (-2, some message)
  | .error _ => none

def Outcome.result : Outcome → Int64
  | .completed result => result
  | _ => 0

/-- The state a task is in after an outcome. -/
def Outcome.state : Outcome → TaskState
  | .completed result => .completed result
  | .cancelled => .cancelled
  | .panicked message => .panicked message
  | .error exception => .error exception

/-- All queries report the outcome. -/
structure Reports (e : Entry) (o : Outcome) : Prop where
  await : ∀ a, o.awaited = some a → e.await = a
  join : ∀ a, o.awaited = some a → e.join = a
  getResult : e.getResult = o.result
  getState : e.getState = o.state.code
  isCompleted : e.isCompleted = true
  hasError : e.hasError = o.state.isError

/-! ## The tables -/

/-- The tables. The code does not keep the last: the first outcome of each task. -/
structure Table where
  fnTasks : Handle → Option TaskState
  pollTasks : Handle → Option PollTaskInfo
  cancelMap : Handle → Bool
  nextHandle : Handle
  nextPollHandle : Handle
  first : Handle → Option Outcome

inductive Op where
  | spawnFn
  | spawnWithPoll
  | markRunning (handle : Handle)
  | markPending (handle : Handle)
  | complete (handle : Handle) (result : Int64)
  | setResult (handle : Handle) (result : Int64)
  | setError (handle : Handle) (exception : Int64)
  | setPanicked (handle : Handle) (message : String)
  | cancel (handle : Handle)
  deriving DecidableEq

namespace Table

variable (s : Table)

def start : Table where
  fnTasks := fun _ => none
  pollTasks := fun _ => none
  cancelMap := fun _ => false
  nextHandle := 1
  nextPollHandle := 100000
  first := fun _ => none

def entry (handle : Handle) : Entry where
  fn := s.fnTasks handle
  poll := s.pollTasks handle
  cancel := s.cancelMap handle

/-- An outcome that the tables accept; only the first one of a task counts. -/
def record (handle : Handle) (o : Outcome) : Table :=
  { s with first := Function.update s.first handle ((s.first handle).or (some o)) }

def setFn (handle : Handle) (state : TaskState) : Table :=
  { s with fnTasks := Function.update s.fnTasks handle (some state) }

/-- A new state for a function task; nothing happens without one. -/
def updateFn (handle : Handle) (state : TaskState) : Table :=
  if (s.fnTasks handle).isSome then s.setFn handle state else s

/-- An outcome of a function task. -/
def finishFn (handle : Handle) (o : Outcome) : Table :=
  if (s.fnTasks handle).isSome then (s.setFn handle o.state).record handle o else s

def setPoll (handle : Handle) (info : PollTaskInfo) : Table :=
  { s with pollTasks := Function.update s.pollTasks handle (some info) }

def setCancel (handle : Handle) (b : Bool) : Table :=
  { s with cancelMap := Function.update s.cancelMap handle b }

def next : Table → Op → Option Table
  | s, .spawnFn =>
    some { (s.setFn s.nextHandle .pending).setCancel s.nextHandle false with
      nextHandle := s.nextHandle + 1 }
  | s, .spawnWithPoll =>
    some { (s.setPoll s.nextPollHandle ⟨.pending, none⟩).setCancel s.nextPollHandle false with
      nextPollHandle := s.nextPollHandle + 1 }
  | s, .markRunning handle => some (s.updateFn handle .running)
  | s, .markPending handle =>
    some (match s.pollTasks handle with
      | some info => s.setPoll handle { info with state := .pending }
      | none => s)
  | s, .complete handle result => some (s.finishFn handle (.completed result))
  | s, .setResult handle result =>
    some (match s.pollTasks handle with
      | some _ => (s.setPoll handle ⟨.completed result, some result⟩).record handle
          (.completed result)
      | none => s)
  | s, .setError handle exception =>
    some (match s.pollTasks handle with
      | some info => (s.setPoll handle { info with state := .error exception }).record handle
          (.error exception)
      | none => s.finishFn handle (.error exception))
  | s, .setPanicked handle message => some (s.finishFn handle (.panicked message))
  -- a poll task keeps its state
  | s, .cancel handle =>
    some (if (s.fnTasks handle).isSome then
      ((s.setCancel handle true).setFn handle .cancelled).record handle .cancelled
    else if (s.pollTasks handle).isSome then
      (s.setCancel handle true).record handle .cancelled
    else s.setCancel handle true)

/-- Every query of the handle reports its first outcome, and it is one task only. -/
def ConsistentAt (handle : Handle) : Prop :=
  (∀ o, s.first handle = some o → Reports (s.entry handle) o) ∧
    ¬ ((s.fnTasks handle).isSome ∧ (s.pollTasks handle).isSome)

/-- **One consistent lifecycle**, for every handle. -/
def Consistent : Prop := ∀ handle, s.ConsistentAt handle

/-- The outcome is accepted for a function task that has none yet, or has the same. -/
def Agrees (handle : Handle) (o : Outcome) : Prop :=
  (s.fnTasks handle).isSome → s.first handle = none ∨ s.first handle = some o

/-- The steps that keep the lifecycle consistent. -/
def Allowed (s : Table) : Op → Prop
  | .spawnFn => s.pollTasks s.nextHandle = none
  | .spawnWithPoll => s.fnTasks s.nextPollHandle = none
  | .markRunning handle => (s.fnTasks handle).isSome → s.first handle = none
  | .markPending _ => True
  | .complete handle result => s.Agrees handle (.completed result)
  | .setResult handle _ => s.pollTasks handle = none
  | .setError handle _ => s.pollTasks handle = none ∧ s.fnTasks handle = none
  | .setPanicked handle message => s.Agrees handle (.panicked message)
  | .cancel handle => s.pollTasks handle = none ∧ s.Agrees handle .cancelled

/-- Handles are fresh; a task without an outcome is pending or running, and not cancelled. -/
structure Kept (s : Table) : Prop where
  fresh : ∀ handle, s.nextHandle ≤ handle → s.fnTasks handle = none
  freshPoll : ∀ handle, s.nextPollHandle ≤ handle → s.pollTasks handle = none
  task : ∀ handle, s.first handle ≠ none →
    (s.fnTasks handle).isSome ∨ (s.pollTasks handle).isSome
  cancel : ∀ handle, s.first handle = none → (s.fnTasks handle).isSome →
    s.cancelMap handle = false

theorem kept_start : Kept start where
  fresh := fun _ _ => rfl
  freshPoll := fun _ _ => rfl
  task := fun _ h => absurd rfl h
  cancel := fun _ _ _ => rfl

theorem consistent_start : start.Consistent := by
  intro handle
  constructor
  · intro o h
    cases h
  · rintro ⟨h, -⟩
    cases h

end Table

/-! ## Which entries report an outcome -/

section
variable {o o' : Outcome} {state : TaskState} {poll : Option PollTaskInfo} {c : Bool}

theorem Outcome.state_inj (h : o.state = o'.state) : o = o' := by
  cases o <;> cases o' <;> simp_all [Outcome.state]

theorem not_reports_poll : ¬ Reports ⟨none, poll, c⟩ o := by
  intro h
  cases h.isCompleted

theorem not_reports_of_open (h : (Entry.mk (some state) poll c).isCompleted = false) :
    ¬ Reports ⟨some state, poll, c⟩ o := by
  intro hr
  rw [hr.isCompleted] at h
  cases h

theorem Reports.state_eq (h : Reports ⟨some state, none, c⟩ o) : state = o.state := by
  have hcode := h.getState
  have hresult := h.getResult
  have hcompleted := h.isCompleted
  cases o with
  | completed result =>
    cases state <;>
      simp_all [Entry.getState, Entry.getResult, Outcome.state, Outcome.result, TaskState.code]
  | cancelled => cases state <;> simp_all [Entry.getState, Outcome.state, TaskState.code]
  | panicked message =>
    have hawait := h.await _ rfl
    cases state <;> cases c <;>
      simp_all [Entry.getState, Entry.await, Outcome.state, TaskState.code]
  | error exception =>
    cases state <;> simp_all [Entry.getState, Entry.isCompleted, Outcome.state, TaskState.code]

theorem reports_state (h : ∀ exception, o ≠ .error exception) :
    Reports ⟨some o.state, none, false⟩ o := by
  cases o with
  | error exception => exact absurd rfl (h exception)
  | completed _ | cancelled | panicked _ => constructor <;> simp [Outcome.awaited, Entry.await,
      Entry.join, Entry.getResult, Entry.getState, Entry.isCompleted, Entry.hasError,
      Outcome.state, Outcome.result, TaskState.isError]

theorem reports_cancelled : Reports ⟨some .cancelled, none, c⟩ .cancelled := by
  constructor <;> cases c <;> simp [Outcome.awaited, Entry.await, Entry.join, Entry.getResult,
    Entry.getState, Entry.isCompleted, Entry.hasError, Outcome.state, Outcome.result,
    TaskState.isError]

end

/-! ## One step -/

namespace Table

variable {s s' : Table} {handle : Handle} {o : Outcome}

theorem consistentAt_congr (hfirst : s'.first handle = s.first handle)
    (hentry : s'.entry handle = s.entry handle) :
    s'.ConsistentAt handle ↔ s.ConsistentAt handle := by
  have hfn : s'.fnTasks handle = s.fnTasks handle := congrArg Entry.fn hentry
  have hpoll : s'.pollTasks handle = s.pollTasks handle := congrArg Entry.poll hentry
  unfold ConsistentAt
  rw [hfirst, hentry, hfn, hpoll]

theorem consistent_iff_at (h : s.Consistent) (handle : Handle)
    (hframe : ∀ x ≠ handle, s'.first x = s.first x ∧ s'.entry x = s.entry x) :
    s'.Consistent ↔ s'.ConsistentAt handle := by
  refine ⟨fun h' => h' handle, fun h' x => ?_⟩
  by_cases hx : x = handle
  · subst hx
    exact h'
  · exact (consistentAt_congr (hframe x hx).1 (hframe x hx).2).2 (h x)

theorem poll_none (h : s.Consistent) (hfn : (s.fnTasks handle).isSome) :
    s.pollTasks handle = none := by
  have hnot := (h handle).2
  rw [hfn] at hnot
  simpa using hnot

theorem fn_none (h : s.Consistent) (hpoll : (s.pollTasks handle).isSome) :
    s.fnTasks handle = none := by
  have hnot := (h handle).2
  rw [hpoll] at hnot
  simpa using hnot

theorem entry_fn (h : s.Consistent) {state : TaskState} (hfn : s.fnTasks handle = some state) :
    s.entry handle = ⟨some state, none, s.cancelMap handle⟩ := by
  have hpoll : s.pollTasks handle = none := poll_none h (by rw [hfn]; rfl)
  simp [entry, hfn, hpoll]

theorem no_first_of_poll (h : s.Consistent) (hfn : s.fnTasks handle = none) :
    s.first handle = none := by
  cases hfirst : s.first handle with
  | none => rfl
  | some o =>
    have hr := (h handle).1 o hfirst
    rw [entry, hfn] at hr
    exact absurd hr not_reports_poll

theorem finishFn_consistent (hk : s.Kept) (h : s.Consistent)
    (ho : ∀ exception, o ≠ .error exception) :
    (s.finishFn handle o).Consistent ↔ s.Agrees handle o := by
  unfold finishFn Agrees
  split_ifs with hfn
  · simp only [hfn, forall_const]
    have hpoll := poll_none h hfn
    rw [consistent_iff_at h handle fun x hx => by
      simp [record, setFn, entry, update_of_ne hx]]
    have hentry : ((s.setFn handle o.state).record handle o).entry handle =
        ⟨some o.state, none, s.cancelMap handle⟩ := by
      simp [entry, record, setFn, hpoll]
    have hdisjoint : ¬ ((((s.setFn handle o.state).record handle o).fnTasks handle).isSome ∧
        (((s.setFn handle o.state).record handle o).pollTasks handle).isSome) := by
      simp [record, setFn, hpoll]
    rw [ConsistentAt, hentry, and_iff_left hdisjoint]
    cases hfirst : s.first handle with
    | none =>
      have hcancel := hk.cancel handle hfirst hfn
      simp only [record, setFn, update_self, hfirst, hcancel]
      simpa using reports_state ho
    | some o₁ =>
      obtain ⟨state, hstate⟩ := isSome_iff_exists.1 hfn
      have hr := (h handle).1 o₁ hfirst
      rw [entry_fn h hstate] at hr
      have hsame := hr.state_eq
      have hiff : Reports ⟨some o.state, none, s.cancelMap handle⟩ o₁ ↔ o₁ = o := by
        constructor
        · intro hr'
          exact Outcome.state_inj hr'.state_eq.symm
        · rintro rfl
          rwa [← hsame]
      simpa [record, setFn, hfirst] using hiff
  · simp [hfn, h]

theorem setFn_open (h : s.Consistent) {state : TaskState} (hfn : (s.fnTasks handle).isSome)
    (hopen : ∀ poll c, (Entry.mk (some state) poll c).isCompleted = false) :
    (s.setFn handle state).Consistent ↔ s.first handle = none := by
  rw [consistent_iff_at h handle fun x hx => by simp [setFn, entry, update_of_ne hx]]
  have hpoll := poll_none h hfn
  have hentry : (s.setFn handle state).entry handle = ⟨some state, none, s.cancelMap handle⟩ := by
    simp [entry, setFn, hpoll]
  rw [ConsistentAt, hentry, and_iff_left (by simp [setFn, hpoll])]
  cases hfirst : s.first handle with
  | none => simp [setFn, hfirst]
  | some o =>
    have hnot := not_reports_of_open (o := o) (hopen none (s.cancelMap handle))
    simpa [setFn, hfirst] using hnot

theorem record_poll (hfn : s.fnTasks handle = none) : ¬ (s.record handle o).Consistent := by
  intro h
  have hsome : ∃ o', (s.record handle o).first handle = some o' := by
    cases hfirst : s.first handle <;> simp [record, hfirst]
  obtain ⟨o', ho'⟩ := hsome
  have hr := (h handle).1 o' ho'
  rw [entry, show (s.record handle o).fnTasks handle = none from hfn] at hr
  exact not_reports_poll hr

/-- **Which steps are consistent.** -/
theorem consistent_step {op : Op} (hk : s.Kept) (h : s.Consistent) (hstep : next s op = some s') :
    s'.Consistent ↔ s.Allowed op := by
  cases op with
  | spawnFn =>
    cases hstep
    rw [consistent_iff_at h s.nextHandle fun x hx => by
      simp [setFn, setCancel, entry, update_of_ne hx]]
    -- The number is new, so no outcome was recorded under it.
    have hfresh := hk.fresh s.nextHandle le_rfl
    have hfirst := no_first_of_poll h hfresh
    simp [ConsistentAt, Allowed, setFn, setCancel, hfirst]
  | spawnWithPoll =>
    cases hstep
    rw [consistent_iff_at h s.nextPollHandle fun x hx => by
      simp [setPoll, setCancel, entry, update_of_ne hx]]
    cases hfn : s.fnTasks s.nextPollHandle with
    | none =>
      have hfirst := no_first_of_poll h hfn
      simp [ConsistentAt, Allowed, setPoll, setCancel, hfirst, hfn]
    | some state => simp [ConsistentAt, Allowed, setPoll, setCancel, hfn]
  | markRunning handle =>
    cases hstep
    unfold updateFn Allowed
    split_ifs with hfn
    · rw [setFn_open h hfn fun _ _ => rfl]
      simp [hfn]
    · simp [hfn, h]
  | markPending handle =>
    cases hstep
    -- A pending mark touches the poll table only.
    refine iff_of_true ?_ trivial
    cases hpoll : s.pollTasks handle with
    | none => exact h
    | some info =>
      have hfn := fn_none h (by rw [hpoll]; rfl)
      have hfirst := no_first_of_poll h hfn
      rw [consistent_iff_at h handle fun x hx => by
        simp [setPoll, entry, update_of_ne hx]]
      simp [ConsistentAt, setPoll, hfirst, hfn]
  | complete | setPanicked =>
    cases hstep
    exact finishFn_consistent hk h fun _ => by simp
  | setResult handle result =>
    cases hstep
    unfold Allowed
    cases hpoll : s.pollTasks handle with
    | none => simp [h, hpoll]
    | some info =>
      have hfn := fn_none h (by rw [hpoll]; rfl)
      exact iff_of_false (record_poll hfn) (by simp [hpoll])
  | setError handle exception =>
    cases hstep
    unfold Allowed
    cases hpoll : s.pollTasks handle with
    | some info =>
      have hfn := fn_none h (by rw [hpoll]; rfl)
      exact iff_of_false (record_poll hfn) (by simp [hpoll])
    | none =>
      cases hfn : s.fnTasks handle with
      | none => simp [finishFn, hfn, h, hpoll]
      | some state =>
        refine iff_of_false (fun h' => ?_) (by simp [hfn])
        simp only [finishFn, hfn, isSome_some, if_true] at h'
        -- Some outcome is recorded first, and the function table holds none that reports it.
        have hsome : ∃ o', ((s.setFn handle (Outcome.error exception).state).record handle
            (.error exception)).first handle = some o' := by
          cases hfirst : s.first handle <;> simp [record, setFn, hfirst]
        obtain ⟨o', ho'⟩ := hsome
        have hr := (h' handle).1 o' ho'
        rw [show ((s.setFn handle (Outcome.error exception).state).record handle
          (.error exception)).entry handle = ⟨some (.error exception), none, s.cancelMap handle⟩
          by simp [entry, record, setFn, hpoll, Outcome.state]] at hr
        exact not_reports_of_open rfl hr
  | cancel handle =>
    cases hstep
    unfold Allowed Agrees
    cases hfn : s.fnTasks handle with
    | some state =>
      have hpoll : s.pollTasks handle = none := poll_none h (by rw [hfn]; rfl)
      simp only [isSome_some, if_true, hpoll, true_and]
      rw [consistent_iff_at h handle fun x hx => by
        simp [record, setFn, setCancel, entry, update_of_ne hx]]
      have hentry : (((s.setCancel handle true).setFn handle .cancelled).record handle
          .cancelled).entry handle = ⟨some .cancelled, none, true⟩ := by
        simp [entry, record, setFn, setCancel, hpoll]
      rw [ConsistentAt, hentry, and_iff_left (by simp [record, setFn, setCancel, hpoll])]
      cases hfirst : s.first handle with
      | none => simpa [record, setFn, setCancel, hfirst] using reports_cancelled
      | some o =>
        -- The table says cancelled, which reports a cancellation and nothing else.
        have hiff : Reports ⟨some .cancelled, none, true⟩ o ↔ o = .cancelled := by
          constructor
          · intro hr
            exact Outcome.state_inj hr.state_eq.symm
          · rintro rfl
            exact reports_cancelled
        simpa [record, setFn, setCancel, hfirst, hfn] using hiff
    | none =>
      cases hpoll : s.pollTasks handle with
      | some info =>
        refine iff_of_false ?_ (by simp [hpoll])
        -- The poll table is not told of the cancellation.
        exact record_poll (s := s.setCancel handle true) hfn
      | none =>
        refine iff_of_true ?_ (by simp [hpoll, hfn])
        have hfirst := no_first_of_poll h hfn
        rw [consistent_iff_at h handle fun x hx => by
          simp [setCancel, entry, update_of_ne hx]]
        simp [ConsistentAt, setCancel, hfirst, hfn]

/-! ## Runs -/

theorem Kept.of_same (hk : s.Kept) (hnext : s'.nextHandle = s.nextHandle)
    (hnextPoll : s'.nextPollHandle = s.nextPollHandle)
    (hfn : ∀ x, (s'.fnTasks x).isSome = (s.fnTasks x).isSome)
    (hpoll : ∀ x, (s'.pollTasks x).isSome = (s.pollTasks x).isSome)
    (htask : ∀ x, s'.first x ≠ none →
      s.first x ≠ none ∨ (s.fnTasks x).isSome ∨ (s.pollTasks x).isSome)
    (hcancel : ∀ x, s'.first x = none → (s.fnTasks x).isSome →
      s.first x = none ∧ s'.cancelMap x = s.cancelMap x) : s'.Kept where
  fresh := by
    intro x hx
    have hnone := hk.fresh x (hnext ▸ hx)
    have h := hfn x
    rw [hnone] at h
    simpa using h
  freshPoll := by
    intro x hx
    have hnone := hk.freshPoll x (hnextPoll ▸ hx)
    have h := hpoll x
    rw [hnone] at h
    simpa using h
  task := by
    intro x hx
    rw [hfn x, hpoll x]
    rcases htask x hx with hfirst | h
    · exact hk.task x hfirst
    · exact h
  cancel := by
    intro x hx hsome
    rw [hfn x] at hsome
    obtain ⟨hfirst, hsame⟩ := hcancel x hx hsome
    rw [hsame]
    exact hk.cancel x hfirst hsome

theorem isSome_update {α : Type} {f : Handle → Option α} {a : α} (h : (f handle).isSome)
    (x : Handle) : (update f handle (some a) x).isSome = (f x).isSome := by
  by_cases hx : x = handle
  · subst hx
    simp [h]
  · rw [update_of_ne hx]

theorem first_record (x : Handle) : (s.record handle o).first x =
    if x = handle then (s.first handle).or (some o) else s.first x := by
  by_cases hx : x = handle
  · subst hx
    simp [record]
  · simp [record, hx]

theorem Kept.record (hk : s.Kept)
    (htask : (s.fnTasks handle).isSome ∨ (s.pollTasks handle).isSome) :
    (s.record handle o).Kept := by
  refine hk.of_same rfl rfl (fun _ => rfl) (fun _ => rfl) (fun x hx => ?_) fun x hx _ => ?_
  · rw [first_record] at hx
    split_ifs at hx with hsame
    · subst hsame
      exact .inr htask
    · exact .inl hx
  · rw [first_record] at hx
    split_ifs at hx with hsame
    · cases hfirst : s.first handle <;> simp at hx
    · exact ⟨hx, rfl⟩

theorem Kept.setFn (hk : s.Kept) (hfn : (s.fnTasks handle).isSome) {state : TaskState} :
    (s.setFn handle state).Kept :=
  hk.of_same rfl rfl (isSome_update hfn) (fun _ => rfl) (fun _ h => .inl h) fun _ h _ => ⟨h, rfl⟩

theorem Kept.setPoll (hk : s.Kept) (hpoll : (s.pollTasks handle).isSome) {info : PollTaskInfo} :
    (s.setPoll handle info).Kept :=
  hk.of_same rfl rfl (fun _ => rfl) (isSome_update hpoll) (fun _ h => .inl h) fun _ h _ => ⟨h, rfl⟩

theorem Kept.finishFn (hk : s.Kept) : (s.finishFn handle o).Kept := by
  unfold Table.finishFn
  split_ifs with hfn
  · have hset : (s.setFn handle o.state).Kept := hk.setFn hfn
    exact hset.record (.inl (by simp [Table.setFn]))
  · assumption

theorem Kept.setCancel (hk : s.Kept) {b : Bool}
    (h : s.first handle = none → s.fnTasks handle = none) : (s.setCancel handle b).Kept := by
  refine hk.of_same rfl rfl (fun _ => rfl) (fun _ => rfl) (fun _ h => .inl h) fun x hx hsome => ?_
  refine ⟨hx, update_of_ne ?_ _ _⟩
  rintro rfl
  rw [h hx] at hsome
  cases hsome

theorem Kept.next {op : Op} (hk : s.Kept) (hstep : next s op = some s') : s'.Kept := by
  cases op with
  | spawnFn =>
    cases hstep
    constructor
    · intro x hx
      have hlt : s.nextHandle < x := Int.lt_of_add_one_le hx
      simpa [Table.setFn, Table.setCancel, update_of_ne hlt.ne'] using hk.fresh x hlt.le
    · exact hk.freshPoll
    · intro x hx
      have hsome := hk.task x hx
      by_cases hnew : x = s.nextHandle
      · simp [Table.setFn, Table.setCancel, hnew]
      · simpa [Table.setFn, Table.setCancel, update_of_ne hnew] using hsome
    · intro x hx hsome
      by_cases hnew : x = s.nextHandle
      · simp [Table.setFn, Table.setCancel, hnew]
      · simp only [Table.setFn, Table.setCancel, update_of_ne hnew] at hsome ⊢
        exact hk.cancel x hx hsome
  | spawnWithPoll =>
    cases hstep
    constructor
    · exact hk.fresh
    · intro x hx
      have hlt : s.nextPollHandle < x := Int.lt_of_add_one_le hx
      simpa [Table.setPoll, Table.setCancel, update_of_ne hlt.ne'] using hk.freshPoll x hlt.le
    · intro x hx
      have hsome := hk.task x hx
      by_cases hnew : x = s.nextPollHandle
      · simp [Table.setPoll, Table.setCancel, hnew]
      · simpa [Table.setPoll, Table.setCancel, update_of_ne hnew] using hsome
    · intro x hx hsome
      by_cases hnew : x = s.nextPollHandle
      · simp [Table.setPoll, Table.setCancel, hnew]
      · simp only [Table.setPoll, Table.setCancel, update_of_ne hnew]
        exact hk.cancel x hx hsome
  | markRunning handle =>
    cases hstep
    unfold updateFn
    split_ifs with hfn
    · exact hk.setFn hfn
    · assumption
  | markPending handle =>
    cases hstep
    cases hpoll : s.pollTasks handle with
    | none => exact hk
    | some info => exact hk.setPoll (by rw [hpoll]; rfl)
  | complete | setPanicked =>
    cases hstep
    exact hk.finishFn
  | setResult handle result =>
    cases hstep
    cases hpoll : s.pollTasks handle with
    | none => exact hk
    | some info =>
      have hset : (s.setPoll handle ⟨.completed result, some result⟩).Kept :=
        hk.setPoll (by rw [hpoll]; rfl)
      exact hset.record (.inr (by simp [Table.setPoll]))
  | setError handle exception =>
    cases hstep
    cases hpoll : s.pollTasks handle with
    | none => exact hk.finishFn
    | some info =>
      have hset : (s.setPoll handle { info with state := .error exception }).Kept :=
        hk.setPoll (by rw [hpoll]; rfl)
      exact hset.record (.inr (by simp [Table.setPoll]))
  | cancel handle =>
    cases hstep
    -- the flag is set after the outcome is recorded, which is the same table
    by_cases hfn : (s.fnTasks handle).isSome
    · rw [if_pos hfn]
      have hset : (s.setFn handle .cancelled).Kept := hk.setFn hfn
      have hrecord : ((s.setFn handle .cancelled).record handle .cancelled).Kept :=
        hset.record (.inl (by simp [Table.setFn]))
      refine hrecord.setCancel (b := true) fun h => ?_
      cases hfirst : s.first handle <;> simp [Table.record, Table.setFn, hfirst] at h
    · rw [if_neg hfn]
      have hnone : s.fnTasks handle = none := by simpa using hfn
      have hset := hk.setCancel (b := true) fun _ => hnone
      split_ifs with hpoll
      · exact hset.record (.inr hpoll)
      · assumption

/-- **When the lifecycle is consistent.** In a run all queries report the first outcome of every
task, just when no step records an outcome of a poll task, an exception, a second outcome, or
reopens a finished task, or gives a task the handle of another. -/
theorem lifecycle_iff (ops : List Op) :
    Always next Consistent start ops ↔ Along next Allowed start ops := by
  refine always_iff_along (I := Kept) (fun _ _ _ hk hn => hk.next hn)
    (fun _ _ _ hk h hn => consistent_step hk h hn) (fun s op hn => ?_) kept_start
    consistent_start
  cases op <;> cases hn

/-- A poll task that has returned its value. -/
def polled : List Op :=
  [.spawnWithPoll, .setResult 100000 7]

/-- **A poll task is never completed.** -/
theorem not_consistent : ¬ ∀ ops, Always next Consistent start ops := by
  intro h
  obtain ⟨-, hrest⟩ := (lifecycle_iff polled).1 (h polled)
  obtain ⟨hnone, -⟩ := hrest _ rfl
  have hsome : (((next start .spawnWithPoll).get rfl).pollTasks 100000).isSome := by decide
  rw [show ((next start .spawnWithPoll).get rfl).pollTasks 100000 = none from hnone] at hsome
  cases hsome

end Table

end Arth.Runtime.TaskTable
