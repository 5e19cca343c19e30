import Arth.Runtime.Executor

/-!
# Tasks that wait for a channel

* `Waiting` — the states of the tasks and the waiter lists of the channels.
* `Waiting.next` — one operation: block a task on a channel, cancel one, wake one waiter or all
  waiters of a channel, or what the rest of the executor does to a task.
* `Listed` — every task that is blocked on a channel is in its list, in the order of blocking.
* `wakesRight_iff` — which wakeups serve the task that is blocked longest.
-/

namespace Arth.Runtime.ChannelWaiters

open Runs List

inductive Direction where
  | recv | send
  deriving DecidableEq

/-- What a task blocked on a channel waits for. -/
def Direction.reason : Direction → Handle → MTBlockReason
  | .recv, chan => .awaitingChannelRecv chan
  | .send, chan => .awaitingChannelSend chan

/-- The states of the tasks and the waiter lists, which grow at the end. The code keeps the
handles only: `since` numbers the last `block_task` of a task, and the lists have that number
beside the handle. -/
structure Waiting where
  tasks : Handle → Option MTTaskState
  waiters : Direction → Handle → List (Handle × ℕ)
  since : Handle → ℕ
  now : ℕ

namespace Waiting

variable (s : Waiting)

def setState (handle : Handle) (state : MTTaskState) : Waiting :=
  { s with tasks := Function.update s.tasks handle ((s.tasks handle).map fun _ => state) }

/-- `block_task` on a channel. The handle is listed whether it has a task or not. -/
def blockTask (handle : Handle) (d : Direction) (chan : Handle) : Waiting :=
  { s.setState handle (.blocked (d.reason chan)) with
    waiters := Function.update s.waiters d
      (Function.update (s.waiters d) chan (s.waiters d chan ++ [(handle, s.now)]))
    since := Function.update s.since handle s.now
    now := s.now + 1 }

/-- `wake_task`. -/
def wakeTask (handle : Handle) : Waiting :=
  if (s.tasks handle).any (·.isBlocked) then s.setState handle .pending else s

/-- `cancel_task`; the tasks that await it are woken by steps of their own. -/
def cancelTask (handle : Handle) : Waiting :=
  if (s.tasks handle).any (·.isCompleted) then s else s.setState handle .cancelled

def setWaiters (d : Direction) (chan : Handle) (l : List (Handle × ℕ)) : Waiting :=
  { s with waiters := Function.update s.waiters d (Function.update (s.waiters d) chan l) }

/-- `wake_channel_recv_waiter` and `wake_channel_send_waiter`: the newest waiter is popped. -/
def wakeChannelWaiter (d : Direction) (chan : Handle) : Waiting × Bool :=
  match (s.waiters d chan).getLast? with
  | some e => ((s.setWaiters d chan (s.waiters d chan).dropLast).wakeTask e.1, true)
  | none => (s, false)

/-- `wake_all_channel_waiters`. -/
def wakeAllChannelWaiters (chan : Handle) : Waiting :=
  ((s.waiters .recv chan ++ s.waiters .send chan).map (·.1)).foldl wakeTask
    ((s.setWaiters .recv chan []).setWaiters .send chan [])

/-- The operations. The last stands for what the rest of the executor does to a task: to spawn,
run, complete or wake it, or to block it on something that is no channel. -/
inductive Op where
  | block (handle : Handle) (d : Direction) (chan : Handle)
  | cancel (handle : Handle)
  | wake (d : Direction) (chan : Handle)
  | wakeAll (chan : Handle)
  | other (handle : Handle) (state : MTTaskState)
      (h : ∀ (d : Direction) (chan : Handle), state ≠ .blocked (d.reason chan))

def next : Waiting → Op → Option Waiting
  | s, .block handle d chan => some (s.blockTask handle d chan)
  | s, .cancel handle => some (s.cancelTask handle)
  | s, .wake d chan => some (s.wakeChannelWaiter d chan).1
  | s, .wakeAll chan => some (s.wakeAllChannelWaiters chan)
  | s, .other handle state _ =>
    some { s with tasks := Function.update s.tasks handle (some state) }

/-- Tasks none of which is blocked on a channel; every list is empty. -/
structure Start where
  tasks : Handle → Option MTTaskState
  free : ∀ (handle : Handle) (d : Direction) (chan : Handle),
    tasks handle ≠ some (.blocked (d.reason chan))

def Start.waiting (start : Start) : Waiting where
  tasks := start.tasks
  waiters := fun _ _ => []
  since := fun _ => 0
  now := 0

/-- The task is blocked on the channel. -/
def Blocked (d : Direction) (chan handle : Handle) : Prop :=
  s.tasks handle = some (.blocked (d.reason chan))

instance (d : Direction) (chan handle : Handle) : Decidable (s.Blocked d chan handle) :=
  inferInstanceAs (Decidable (_ = _))

/-- No task has been blocked on the channel for a longer time. -/
def Longest (d : Direction) (chan handle : Handle) : Prop :=
  s.Blocked d chan handle ∧ ∀ other, s.Blocked d chan other → s.since handle ≤ s.since other

/-- A wakeup that returns true makes the task blocked longest runnable, and nothing else; one
that returns false finds no task blocked. -/
def WakesRight (s : Waiting) : Op → Prop
  | .wake d chan =>
    ((s.wakeChannelWaiter d chan).2 = true → ∃ handle, s.Longest d chan handle ∧
      (s.wakeChannelWaiter d chan).1.tasks = Function.update s.tasks handle (some .pending)) ∧
    ((s.wakeChannelWaiter d chan).2 = false → ∀ handle, ¬ s.Blocked d chan handle)
  | _ => True

/-- The newest entry of the channel's list is a task that is blocked on the channel, and no
other task is. -/
def OnlyWaiter (s : Waiting) : Op → Prop
  | .wake d chan => ∀ e, (s.waiters d chan).getLast? = some e →
      s.Blocked d chan e.1 ∧ ∀ other, s.Blocked d chan other → other = e.1
  | _ => True

/-- Every task that is blocked on a channel is in the channel's list since it was blocked, and
the lists are in the order of time. -/
structure Listed (s : Waiting) : Prop where
  sorted : ∀ d chan, (s.waiters d chan).Pairwise fun a b => a.2 < b.2
  past : ∀ d chan, ∀ e ∈ s.waiters d chan, e.2 < s.now
  listed : ∀ d chan handle, s.Blocked d chan handle →
    (handle, s.since handle) ∈ s.waiters d chan
  latest : ∀ d chan, ∀ e ∈ s.waiters d chan, e.2 ≤ s.since e.1

theorem Start.listed (start : Start) : Listed start.waiting where
  sorted := fun _ _ => List.Pairwise.nil
  past := fun _ _ _ he => by cases he
  listed := fun d chan handle h => absurd h (start.free handle d chan)
  latest := fun _ _ _ he => by cases he

theorem reason_inj {d d' : Direction} {chan chan' : Handle} (h : d.reason chan = d'.reason chan') :
    d = d' ∧ chan = chan' := by
  cases d <;> cases d' <;> simp_all [Direction.reason]

variable {s} {d d' : Direction} {chan chan' handle handle' : Handle}

theorem setWaiters_waiters (l : List (Handle × ℕ)) : (s.setWaiters d chan l).waiters d' chan' =
      if d' = d ∧ chan' = chan then l else s.waiters d' chan' := by
  by_cases hd : d' = d
  · subst hd
    by_cases hc : chan' = chan
    · subst hc
      simp [setWaiters]
    · simp [setWaiters, hc]
  · simp [setWaiters, hd]

theorem wakeTask_eq (s : Waiting) (handle : Handle) : (s.wakeTask handle).waiters = s.waiters ∧
    (s.wakeTask handle).since = s.since ∧ (s.wakeTask handle).now = s.now := by
  unfold wakeTask
  split <;> exact ⟨rfl, rfl, rfl⟩

theorem wakeTask_tasks : (s.wakeTask handle).tasks handle' =
    if handle' = handle ∧ (s.tasks handle).any (·.isBlocked) then some .pending
    else s.tasks handle' := by
  unfold wakeTask
  cases hk : s.tasks handle with
  | none => simp
  | some state =>
    by_cases hb : state.isBlocked = true
    · by_cases hh : handle' = handle
      · subst hh
        simp [setState, hk, hb]
      · simp [setState, hb, hh]
    · simp [hb]

theorem Blocked.isBlocked (h : s.Blocked d chan handle) :
    (s.tasks handle).any (·.isBlocked) = true := by
  rw [show s.tasks handle = _ from h]
  rfl

theorem blocked_wakeTask : (s.wakeTask handle).Blocked d chan handle' ↔
    s.Blocked d chan handle' ∧ handle' ≠ handle := by
  unfold Blocked
  rw [wakeTask_tasks]
  split_ifs with h
  · simp [h.1]
  · refine ⟨fun hb => ⟨hb, ?_⟩, fun hb => hb.1⟩
    rintro rfl
    exact h ⟨rfl, Blocked.isBlocked hb⟩

theorem blocked_foldl_wakeTask (l : List Handle) :
    (l.foldl wakeTask s).Blocked d chan handle ↔ s.Blocked d chan handle ∧ handle ∉ l := by
  induction l generalizing s with
  | nil => simp
  | cons a l ih =>
    rw [foldl_cons, ih, blocked_wakeTask, mem_cons, not_or, and_assoc]

theorem foldl_wakeTask_eq (l : List Handle) : (l.foldl wakeTask s).waiters = s.waiters ∧
    (l.foldl wakeTask s).since = s.since ∧ (l.foldl wakeTask s).now = s.now := by
  induction l generalizing s with
  | nil => exact ⟨rfl, rfl, rfl⟩
  | cons a l ih =>
    obtain ⟨hwaiters, hsince, hnow⟩ := ih (s := s.wakeTask a)
    obtain ⟨hwaiters', hsince', hnow'⟩ := wakeTask_eq s a
    exact ⟨hwaiters.trans hwaiters', hsince.trans hsince', hnow.trans hnow'⟩

/-! ## Every operation keeps the lists -/

variable {s' : Waiting}

theorem Listed.of_tasks (h : Listed s) (hwaiters : s'.waiters = s.waiters)
    (hsince : s'.since = s.since) (hnow : s'.now = s.now)
    (hblocked : ∀ d chan handle, s'.Blocked d chan handle → s.Blocked d chan handle) :
    Listed s' where
  sorted := by rw [hwaiters]; exact h.sorted
  past := by rw [hwaiters, hnow]; exact h.past
  listed := fun d chan handle hb => by
    rw [hwaiters, hsince]
    exact h.listed d chan handle (hblocked d chan handle hb)
  latest := by rw [hwaiters, hsince]; exact h.latest

theorem Listed.of_sublist (h : Listed s)
    (hsub : ∀ d chan, (s'.waiters d chan).Sublist (s.waiters d chan))
    (hsince : s'.since = s.since) (hnow : s'.now = s.now)
    (hblocked : ∀ d chan handle, s'.Blocked d chan handle →
      (handle, s.since handle) ∈ s'.waiters d chan) : Listed s' where
  sorted := fun d chan => (h.sorted d chan).sublist (hsub d chan)
  past := fun d chan e he => by
    rw [hnow]
    exact h.past d chan e ((hsub d chan).subset he)
  listed := fun d chan handle hb => by
    rw [hsince]
    exact hblocked d chan handle hb
  latest := fun d chan e he => by
    rw [hsince]
    exact h.latest d chan e ((hsub d chan).subset he)

theorem Listed.blockTask (h : Listed s) (handle : Handle) (d : Direction) (chan : Handle) :
    Listed (s.blockTask handle d chan) := by
  have hwaiters : ∀ d' chan', (s.blockTask handle d chan).waiters d' chan' =
      if d' = d ∧ chan' = chan then s.waiters d chan ++ [(handle, s.now)]
      else s.waiters d' chan' := fun d' chan' => setWaiters_waiters (s := s) _
  have hsince : ∀ x, (s.blockTask handle d chan).since x =
      if x = handle then s.now else s.since x := fun x => Function.update_apply ..
  -- an entry is an old one, or the new one at the end of its list
  have hmem : ∀ d' chan' e, e ∈ (s.blockTask handle d chan).waiters d' chan' ↔
      e ∈ s.waiters d' chan' ∨ (d' = d ∧ chan' = chan ∧ e = (handle, s.now)) := by
    intro d' chan' e
    rw [hwaiters]
    split_ifs with hd
    · obtain ⟨rfl, rfl⟩ := hd
      simp
    · refine ⟨.inl, ?_⟩
      rintro (he | ⟨rfl, rfl, -⟩)
      · exact he
      · exact absurd ⟨rfl, rfl⟩ hd
  refine ⟨fun d' chan' => ?_, fun d' chan' e he => ?_, fun d' chan' x hb => ?_,
    fun d' chan' e he => ?_⟩
  · rw [hwaiters]
    split
    · refine pairwise_append.2 ⟨h.sorted d chan, pairwise_singleton _ _, ?_⟩
      intro a ha b hb
      obtain rfl := mem_singleton.1 hb
      exact h.past d chan a ha
    · exact h.sorted d' chan'
  · change e.2 < s.now + 1
    rcases (hmem d' chan' e).1 he with he | ⟨-, -, rfl⟩
    · have := h.past d' chan' e he
      omega
    · exact Nat.lt_succ_self _
  · rw [hmem, hsince]
    by_cases hx : x = handle
    · subst hx
      right
      have hstate : (s.tasks x).map (fun _ => MTTaskState.blocked (d.reason chan)) =
          some (.blocked (d'.reason chan')) := by
        simpa [Blocked, Waiting.blockTask, setState] using hb
      obtain ⟨k, -, hk⟩ := Option.map_eq_some_iff.1 hstate
      obtain ⟨rfl, rfl⟩ := reason_inj (MTTaskState.blocked.inj hk)
      exact ⟨rfl, rfl, by simp⟩
    · left
      rw [if_neg hx]
      refine h.listed d' chan' x ?_
      simpa [Blocked, Waiting.blockTask, setState, hx] using hb
  · rw [hsince]
    rcases (hmem d' chan' e).1 he with he | ⟨-, -, rfl⟩
    · split
      · exact (h.past d' chan' e he).le
      · exact h.latest d' chan' e he
    · simp

theorem Listed.wakeChannelWaiter (h : Listed s) (d : Direction) (chan : Handle) :
    Listed (s.wakeChannelWaiter d chan).1 := by
  unfold Waiting.wakeChannelWaiter
  split
  · rename_i e he
    obtain ⟨hwaiters, hsince, hnow⟩ := wakeTask_eq
      (s.setWaiters d chan (s.waiters d chan).dropLast) e.1
    refine h.of_sublist (fun d' chan' => ?_) hsince hnow fun d' chan' x hb => ?_
    · rw [hwaiters, setWaiters_waiters]
      split_ifs with hd
      · obtain ⟨rfl, rfl⟩ := hd
        exact dropLast_sublist _
      · exact Sublist.refl _
    · obtain ⟨hold, hne⟩ := blocked_wakeTask.1 hb
      have hx := h.listed d' chan' x hold
      rw [hwaiters, setWaiters_waiters]
      split_ifs with hd
      · obtain ⟨rfl, rfl⟩ := hd
        -- the last entry is that of another task
        rw [← dropLast_append_getLast? e he] at hx
        rcases mem_append.1 hx with hx | hx
        · exact hx
        · exact absurd (congrArg Prod.fst (mem_singleton.1 hx)) hne
      · exact hx
  · exact h

theorem Listed.wakeAllChannelWaiters (h : Listed s) (chan : Handle) :
    Listed (s.wakeAllChannelWaiters chan) := by
  unfold Waiting.wakeAllChannelWaiters
  set l := (s.waiters .recv chan ++ s.waiters .send chan).map (·.1)
  set s₀ := (s.setWaiters .recv chan []).setWaiters .send chan []
  obtain ⟨hwaiters, hsince, hnow⟩ := foldl_wakeTask_eq (s := s₀) l
  have hlist : ∀ d' chan', s₀.waiters d' chan' =
      if chan' = chan then [] else s.waiters d' chan' := by
    intro d' chan'
    rw [setWaiters_waiters, setWaiters_waiters]
    cases d' <;> by_cases hc : chan' = chan <;> simp
  refine h.of_sublist (fun d' chan' => ?_) hsince hnow fun d' chan' x hb => ?_
  · rw [hwaiters, hlist]
    split
    · exact nil_sublist _
    · exact Sublist.refl _
  · obtain ⟨hold, hnot⟩ := (blocked_foldl_wakeTask l).1 hb
    have hx := h.listed d' chan' x hold
    rw [hwaiters, hlist]
    split_ifs with hc
    · subst hc
      have hmem : (x, s.since x) ∈ s.waiters .recv chan' ++ s.waiters .send chan' := by
        cases d'
        · exact mem_append_left _ hx
        · exact mem_append_right _ hx
      exact absurd (mem_map.2 ⟨_, hmem, rfl⟩) hnot
    · exact hx

theorem Listed.next {op : Op} (h : Listed s) (hstep : next s op = some s') : Listed s' := by
  cases op with
  | block handle d chan =>
    cases hstep
    exact h.blockTask handle d chan
  | cancel handle =>
    cases hstep
    unfold cancelTask
    split
    · exact h
    · refine h.of_tasks rfl rfl rfl fun d chan x hb => ?_
      by_cases hx : x = handle
      · subst hx
        simp [Blocked, setState] at hb
      · simpa [Blocked, setState, hx] using hb
  | wake d chan =>
    cases hstep
    exact h.wakeChannelWaiter d chan
  | wakeAll chan =>
    cases hstep
    exact h.wakeAllChannelWaiters chan
  | other handle state hfree =>
    cases hstep
    refine h.of_tasks rfl rfl rfl fun d chan x hb => ?_
    by_cases hx : x = handle
    · subst hx
      simp [Blocked] at hb
      exact absurd hb (hfree d chan)
    · simpa [Blocked, hx] using hb

/-! ## Which wakeups are right -/

theorem wakeChannelWaiter_of_some {e : Handle × ℕ} (he : (s.waiters d chan).getLast? = some e) :
    s.wakeChannelWaiter d chan =
      ((s.setWaiters d chan (s.waiters d chan).dropLast).wakeTask e.1, true) := by
  rw [Waiting.wakeChannelWaiter, he]

theorem wakeChannelWaiter_of_none (he : (s.waiters d chan).getLast? = none) :
    s.wakeChannelWaiter d chan = (s, false) := by
  rw [Waiting.wakeChannelWaiter, he]

/-- Where the lists are as they should be, a wakeup is right just when it finds the only task
that is blocked, or nobody at all. -/
theorem wakesRight_step (h : Listed s) (op : Op) : WakesRight s op ↔ OnlyWaiter s op := by
  cases op with
  | wake d chan =>
    simp only [WakesRight, OnlyWaiter]
    cases he : (s.waiters d chan).getLast? with
    | none =>
      have hnil : s.waiters d chan = [] := getLast?_eq_none_iff.1 he
      have hnobody : ∀ x, ¬ s.Blocked d chan x := by
        intro x hb
        have hx := h.listed d chan x hb
        rw [hnil] at hx
        cases hx
      simp [wakeChannelWaiter_of_none he, hnobody]
    | some e =>
      rw [wakeChannelWaiter_of_some he]
      have htasks : ∀ x, ((s.setWaiters d chan (s.waiters d chan).dropLast).wakeTask e.1).tasks x =
          if x = e.1 ∧ (s.tasks e.1).any (·.isBlocked) then some .pending else s.tasks x :=
        fun x => wakeTask_tasks
      have hsplit := dropLast_append_getLast? e he
      constructor
      · intro hright e' heq
        obtain rfl : e = e' := Option.some.inj heq
        obtain ⟨x, ⟨hx, hlongest⟩, hupdate⟩ := hright.1 rfl
        obtain rfl : x = e.1 := by
          by_contra hne
          have hpending := congrFun hupdate x
          rw [htasks, if_neg fun hx => hne hx.1] at hpending
          rw [show s.tasks x = _ from hx] at hpending
          simp at hpending
        refine ⟨hx, fun y hy => ?_⟩
        by_contra hne
        -- the entry of another task is in front of the last, so it is older
        have hlast : e.2 ≤ s.since e.1 := h.latest d chan e (by rw [← hsplit]; simp)
        have hmem := h.listed d chan y hy
        have hsorted := h.sorted d chan
        rw [← hsplit] at hmem hsorted
        have hbefore : (y, s.since y) ∈ (s.waiters d chan).dropLast := by
          rcases mem_append.1 hmem with hmem | hmem
          · exact hmem
          · exact absurd (congrArg Prod.fst (mem_singleton.1 hmem)) hne
        have hlt := (pairwise_append.1 hsorted).2.2 _ hbefore e (by simp)
        have := hlongest y hy
        omega
      · intro honly
        obtain ⟨hblocked, hother⟩ := honly e rfl
        refine ⟨fun _ => ⟨e.1, ⟨hblocked, fun y hy => by rw [hother y hy]⟩, ?_⟩, by simp⟩
        funext x
        rw [htasks]
        by_cases hx : x = e.1
        · subst hx
          simp [Blocked.isBlocked hblocked]
        · simp [hx]
  | _ => exact Iff.rfl

/-- **Which runs serve every waiter in turn.** From a start without blocked tasks, all wakeups
of a run are right just when each finds the only task that is blocked, at the end of the list. -/
theorem wakesRight_iff (start : Start) (ops : List Op) :
    Along next WakesRight start.waiting ops ↔ Along next OnlyWaiter start.waiting ops :=
  along_iff_along (I := Listed) (fun _ _ _ hI _ hn => hI.next hn)
    (fun _ op hI => wakesRight_step hI op) start.listed

/-- Tasks 1 and 2 are pending. -/
def twoTasks : Start where
  tasks := fun handle => if handle = 1 ∨ handle = 2 then some .pending else none
  free := fun handle d chan => by split <;> simp

/-- Both wait for a message of channel 7, task 1 first; then one is woken. -/
def lastServed : List Op :=
  [.block 1 .recv 7, .block 2 .recv 7, .wake .recv 7]

/-- **The longest waiter is not served.** -/
theorem not_fair : ¬ ∀ (start : Start) (ops : List Op), Along next WakesRight start.waiting ops := by
  intro h
  obtain ⟨-, hrest⟩ := (wakesRight_iff _ _).1 (h twoTasks lastServed)
  obtain ⟨-, hrest⟩ := hrest _ rfl
  obtain ⟨honly, -⟩ := hrest _ rfl
  have hfirst := (honly (2, 1) (by decide)).2 1 (by decide)
  cases hfirst

end Waiting

end Arth.Runtime.ChannelWaiters
