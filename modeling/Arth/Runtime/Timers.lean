import Arth.Lib.Runs

/-!
# The async timer registry

* `Registry` — the timers by handle, the next handle and the clock, in nanoseconds.
* `Registry.call` — one call of the runtime; `pollExpired` looks through the registry in the
  order of its hash map, which is whatever the call is given.
* `History` — what the polls returned and which cancels succeeded so far.
* `rightly_of_untaken` — a run in which no query takes a due timer from the polls wakes every
  task exactly once.
-/

namespace Arth.Runtime.Timers

open Runs Function

inductive TimerState where
  | pending
  | expired
  | cancelled
  deriving DecidableEq

structure AsyncTimer where
  deadline : ℕ
  taskId : Int64
  state : TimerState

structure Registry where
  timers : ℤ → Option AsyncTimer
  nextAsyncTimer : ℤ
  now : ℕ

inductive Op where
  | sleepAsync (ms : Int64) (taskId : Int64)
  | checkExpired (timerId : ℤ)
  | remaining (timerId : ℤ)
  | cancel (timerId : ℤ)
  | pollExpired (order : List ℤ)
  | remove (timerId : ℤ)
  | advance (nanos : ℕ)

namespace Registry

variable (s : Registry)

def start : Registry := ⟨fun _ => none, 70000, 0⟩

def setState (id : ℤ) (t : AsyncTimer) (state : TimerState) : Registry :=
  { s with timers := update s.timers id (some { t with state }) }

/-- A pending timer whose deadline has passed. -/
def due (id : ℤ) : Bool :=
  (s.timers id).any fun t => t.state = .pending ∧ t.deadline ≤ s.now

def sleepAsync (ms taskId : Int64) : Registry × ℤ :=
  if ms < 0 then (s, -1)
  else
    ({ s with
      timers := update s.timers s.nextAsyncTimer
        (some ⟨s.now + ms.toInt.toNat * 1000000, taskId, .pending⟩)
      nextAsyncTimer := s.nextAsyncTimer + 1 }, s.nextAsyncTimer)

def checkExpired (id : ℤ) : Registry × ℤ :=
  match s.timers id with
  | some t =>
    match t.state with
    | .cancelled => (s, -1)
    | .expired => (s, 1)
    | .pending => if t.deadline ≤ s.now then (s.setState id t .expired, 1) else (s, 0)
  | none => (s, -1)

def remaining (id : ℤ) : ℤ :=
  match s.timers id with
  | some t => if t.state ≠ .pending then 0 else (t.deadline - s.now : ℕ) / 1000000
  | none => -1

def cancel (id : ℤ) : Registry × ℤ :=
  match s.timers id with
  | some t => if t.state = .pending then (s.setState id t .cancelled, 0) else (s, -1)
  | none => (s, -1)

def pollExpired (order : List ℤ) : Registry × ℤ :=
  match order.find? s.due with
  | some id =>
    match s.timers id with
    | some t => (s.setState id t .expired, id)
    | none => (s, -1)
  | none => (s, -1)

def remove (id : ℤ) : Registry × ℤ :=
  if (s.timers id).isSome then ({ s with timers := update s.timers id none }, 0) else (s, -1)

/-- The state after a call, and its answer. -/
def call : Op → Registry × ℤ
  | .sleepAsync ms taskId => s.sleepAsync ms taskId
  | .checkExpired id => s.checkExpired id
  | .remaining id => (s, s.remaining id)
  | .cancel id => s.cancel id
  | .pollExpired order => s.pollExpired order
  | .remove id => s.remove id
  | .advance nanos => ({ s with now := s.now + nanos }, 0)

/-- The iteration of a poll visits every timer of the registry. -/
def Admits : Op → Prop
  | .pollExpired order =>
    ∀ id, 70000 ≤ id → id < s.nextAsyncTimer → (s.timers id).isSome → id ∈ order
  | _ => True

instance : DecidablePred s.Admits
  | .pollExpired order => Int.decidableLELT (fun id => (s.timers id).isSome → id ∈ order) _ _
  | .sleepAsync .. | .checkExpired _ | .remaining _ | .cancel _ | .remove _ | .advance _ =>
    .isTrue trivial

end Registry

/-! ## What should hold -/

/-- The handles that polls have returned, and those whose cancel returned 0. -/
structure History where
  returned : List ℤ
  cancelled : List ℤ

def History.record (h : History) : Op → ℤ → History
  | .pollExpired _, r => if r = -1 then h else { h with returned := r :: h.returned }
  | .cancel id, r => if r = 0 then { h with cancelled := id :: h.cancelled } else h
  | _, _ => h

abbrev State := Registry × History

def start : State := ⟨Registry.start, [], []⟩

def next (s : State) (op : Op) : Option State :=
  if s.1.Admits op then some ((s.1.call op).1, s.2.record op (s.1.call op).2) else none

/-- The timer an operation is about. -/
def Op.subject : Op → ℤ → Option ℤ
  | .sleepAsync _ _, r => some r
  | .checkExpired id, _ => some id
  | .cancel id, _ => some id
  | .pollExpired _, r => some r
  | .remove id, _ => some id
  | .remaining _, _ => none
  | .advance _, _ => none

/-- The operation reports the timer as expired. -/
def Op.Reports : Op → ℤ → ℤ → Prop
  | .checkExpired id, r, id' => id = id' ∧ r = 1
  | .pollExpired _, r, id' => r ≠ -1 ∧ r = id'
  | _, _, _ => False

/-- **A call that wakes tasks rightly**: it returns a timer at most once, returns -1 only when
every due timer has been returned, reports no cancelled timer and keeps the other timers. -/
structure Rightly (s : State) (op : Op) (r : ℤ) (s' : Registry) : Prop where
  once : ∀ order, op = .pollExpired order → r ≠ -1 → r ∉ s.2.returned
  woken : ∀ order, op = .pollExpired order → r = -1 → ∀ id t, s.1.timers id = some t →
    t.deadline ≤ s.1.now → id ∉ s.2.cancelled → id ∈ s.2.returned
  stopped : ∀ id, op.Reports r id → id ∉ s.2.cancelled
  others : ∀ id, op.subject r ≠ some id → s'.timers id = s.1.timers id

/-- Every possible call is right. -/
def WakesRightly (s : State) (op : Op) : Prop :=
  s.1.Admits op → Rightly s op (s.1.call op).2 (s.1.call op).1

/-- A query is not the first to see that a deadline has passed. -/
def Untaken (s : State) : Op → Prop
  | .checkExpired id => s.1.due id = false
  | _ => True

instance (s : State) : DecidablePred (Untaken s)
  | .checkExpired id => inferInstanceAs (Decidable (s.1.due id = false))
  | .sleepAsync .. | .remaining _ | .cancel _ | .pollExpired _ | .remove _ | .advance _ =>
    .isTrue trivial

/-- The state of a timer tells what happened to it. -/
structure Kept (s : State) : Prop where
  live : ∀ id t, s.1.timers id = some t → 70000 ≤ id ∧ id < s.1.nextAsyncTimer
  low : 70000 ≤ s.1.nextAsyncTimer
  past : ∀ id, id ∈ s.2.returned ∨ id ∈ s.2.cancelled → id < s.1.nextAsyncTimer
  state : ∀ id t, s.1.timers id = some t →
    (id ∈ s.2.returned ↔ t.state = .expired) ∧ (id ∈ s.2.cancelled ↔ t.state = .cancelled)

variable {s : State} {id : ℤ} {t : AsyncTimer}

theorem kept_start : Kept start where
  live := fun _ _ h => by cases h
  low := le_refl (70000 : ℤ)
  past := by simp [start]
  state := fun _ _ h => by cases h

theorem due_iff : s.1.due id ↔ ∃ t, s.1.timers id = some t ∧ t.state = .pending ∧
    t.deadline ≤ s.1.now := by
  simp [Registry.due, Option.any_eq_true]

/-- A timer that leaves its pending state, and the entry of the history that says so. -/
theorem Kept.setState (hk : Kept s) (ht : s.1.timers id = some t) (hp : t.state = .pending)
    {state : TimerState} {h : History}
    (hr : ∀ x, x ∈ h.returned ↔ x ∈ s.2.returned ∨ x = id ∧ state = .expired)
    (hc : ∀ x, x ∈ h.cancelled ↔ x ∈ s.2.cancelled ∨ x = id ∧ state = .cancelled) :
    Kept (s.1.setState id t state, h) := by
  have hlive := hk.live id t ht
  have hstate := hk.state id t ht
  rw [hp] at hstate
  refine ⟨fun x u hx => ?_, hk.low, fun x hx => ?_, fun x u hx => ?_⟩
  · by_cases hxid : x = id
    · exact hxid ▸ hlive
    · exact hk.live x u (by simpa [Registry.setState, update_of_ne hxid] using hx)
  · rw [hr, hc] at hx
    rcases hx with (hx | ⟨rfl, -⟩) | hx | ⟨rfl, -⟩
    · exact hk.past x (.inl hx)
    · exact hlive.2
    · exact hk.past x (.inr hx)
    · exact hlive.2
  · rw [hr, hc]
    by_cases hxid : x = id
    · subst hxid
      obtain rfl : { t with state } = u := by simpa [Registry.setState] using hx
      simp [(by simpa using hstate : x ∉ s.2.returned ∧ x ∉ s.2.cancelled)]
    · simpa [hxid] using hk.state x u (by simpa [Registry.setState, update_of_ne hxid] using hx)

/-- What a poll does. -/
theorem pollExpired_cases (s : Registry) (order : List ℤ) :
    (∃ id t, s.timers id = some t ∧ t.state = .pending ∧
        s.pollExpired order = (s.setState id t .expired, id)) ∨
      s.pollExpired order = (s, -1) ∧ ∀ id ∈ order, s.due id = false := by
  unfold Registry.pollExpired
  cases h : order.find? s.due with
  | none => exact .inr ⟨rfl, by simpa using h⟩
  | some id =>
    obtain ⟨t, ht, hp, -⟩ := due_iff (s := (s, ⟨[], []⟩)).1 (List.find?_some h)
    exact .inl ⟨id, t, ht, hp, by simp [show s.timers id = some t from ht]⟩

theorem Kept.call (hk : Kept s) {op : Op} (hop : Untaken s op) :
    Kept ((s.1.call op).1, s.2.record op (s.1.call op).2) := by
  cases op with
  | sleepAsync ms taskId =>
    change Kept ((s.1.sleepAsync ms taskId).1, s.2)
    unfold Registry.sleepAsync
    split
    · exact hk
    have hlow := hk.low
    refine ⟨fun x u hx => ?_, by dsimp only; omega, fun x hx => ?_, fun x u hx => ?_⟩
    · by_cases hxid : x = s.1.nextAsyncTimer
      · dsimp only; omega
      · have := hk.live x u (by simpa [update_of_ne hxid] using hx)
        dsimp only; omega
    · have := hk.past x hx
      dsimp only; omega
    · by_cases hxid : x = s.1.nextAsyncTimer
      · -- a new handle is not in the history
        subst hxid
        obtain rfl : (⟨_, taskId, .pending⟩ : AsyncTimer) = u := by simpa using hx
        have hnew := mt (hk.past s.1.nextAsyncTimer) (lt_irrefl _)
        simpa using hnew
      · exact hk.state x u (by simpa [update_of_ne hxid] using hx)
  | checkExpired id =>
    have hdue : ¬ s.1.due id := by simpa [Untaken] using hop
    rw [due_iff] at hdue
    suffices (s.1.checkExpired id).1 = s.1 by simpa [Registry.call, History.record, this] using hk
    unfold Registry.checkExpired
    split
    · rename_i t ht
      split
      · rfl
      · rfl
      · rw [if_neg fun h => hdue ⟨t, ht, ‹_›, h⟩]
    · rfl
  | remaining id => exact hk
  | cancel id =>
    simp only [Registry.call, Registry.cancel]
    split
    · split
      · exact hk.setState ‹_› ‹_› (by simp [History.record]) (by simp [History.record, or_comm])
      · exact hk
    · exact hk
  | pollExpired order =>
    rcases pollExpired_cases s.1 order with ⟨id, t, ht, hp, h⟩ | ⟨h, -⟩ <;>
      simp only [Registry.call, h, History.record]
    · have := hk.live id t ht
      rw [if_neg (by omega)]
      exact hk.setState ht hp (by simp [or_comm]) (by simp)
    · exact hk
  | remove id =>
    change Kept ((s.1.remove id).1, s.2)
    unfold Registry.remove
    split
    · have hlive : ∀ x u, update s.1.timers id none x = some u → s.1.timers x = some u := by
        intro x u hx
        by_cases hxid : x = id
        · simp [hxid] at hx
        · rwa [update_of_ne hxid] at hx
      exact ⟨fun x u hx => hk.live x u (hlive x u hx), hk.low, hk.past,
        fun x u hx => hk.state x u (hlive x u hx)⟩
    · exact hk
  | advance nanos => exact ⟨hk.live, hk.low, hk.past, hk.state⟩

theorem Kept.next {s' : State} {op : Op} (hk : Kept s) (hop : Untaken s op)
    (h : next s op = some s') : Kept s' := by
  unfold Timers.next at h
  split at h
  · cases h
    exact hk.call hop
  · cases h

theorem call_others (s : Registry) (op : Op) (id : ℤ) (h : op.subject (s.call op).2 ≠ some id) :
    (s.call op).1.timers id = s.timers id := by
  cases op with
  | sleepAsync ms taskId =>
    simp only [Registry.call, Registry.sleepAsync] at h ⊢
    split at h
    · rw [if_pos ‹_›]
    · rw [if_neg ‹_›]
      exact update_of_ne (fun heq => h (congrArg some heq.symm)) _ _
  | pollExpired order =>
    rcases pollExpired_cases s order with ⟨x, t, -, -, hx⟩ | ⟨hx, -⟩ <;>
      simp only [Registry.call, hx] at h ⊢
    exact update_of_ne (fun heq => h (congrArg some heq.symm)) _ _
  | remaining x => rfl
  | advance nanos => rfl
  | checkExpired x | cancel x | remove x =>
    have hne : id ≠ x := fun heq => h (congrArg some heq.symm)
    simp only [Registry.call, Registry.checkExpired, Registry.cancel, Registry.remove]
    repeat' split
    all_goals first | rfl | exact update_of_ne hne _ _

theorem Kept.rightly (hk : Kept s) (op : Op) : WakesRightly s op := by
  intro hadmits
  refine ⟨?_, ?_, fun id hid => ?_, call_others s.1 op⟩
  · rintro order rfl hr
    rcases pollExpired_cases s.1 order with ⟨id, t, ht, hp, h⟩ | ⟨h, -⟩ <;>
      simp only [Registry.call, h] at hr ⊢
    · rw [(hk.state id t ht).1, hp]
      nofun
    · exact absurd rfl hr
  · rintro order rfl hr id t ht hdeadline hcancelled
    have hlive := hk.live id t ht
    rcases pollExpired_cases s.1 order with ⟨x, u, hu, -, h⟩ | ⟨-, h⟩
    · simp only [Registry.call, h] at hr
      have := hk.live x u hu
      omega
    · have hdue := h id (hadmits id hlive.1 hlive.2 (by simp [ht]))
      obtain ⟨hreturned, hcancel⟩ := hk.state id t ht
      rw [hreturned]
      rw [hcancel] at hcancelled
      cases hstate : t.state with
      | pending => rw [due_iff.2 ⟨t, ht, hstate, hdeadline⟩] at hdue; cases hdue
      | expired => rfl
      | cancelled => exact absurd hstate hcancelled
  · cases op with
    | checkExpired x =>
      obtain ⟨rfl, hr⟩ := hid
      simp only [Registry.call, Registry.checkExpired] at hr
      split at hr
      · rename_i t ht
        rw [(hk.state x t ht).2]
        intro hstate
        simp [hstate] at hr
      · cases hr
    | pollExpired order =>
      obtain ⟨hr, rfl⟩ := hid
      rcases pollExpired_cases s.1 order with ⟨x, t, ht, hp, h⟩ | ⟨h, -⟩ <;>
        simp only [Registry.call, h] at hr ⊢
      · rw [(hk.state x t ht).2, hp]
        nofun
      · exact absurd rfl hr
    | _ => exact hid.elim

/-- **Timers that no query takes wake their tasks exactly once.** -/
theorem rightly_of_untaken (ops : List Op) (h : Along next Untaken start ops) :
    Along next WakesRightly start ops := by
  have hboth : Along next (fun s op => WakesRightly s op ∧ Untaken s op) start ops :=
    (along_iff_along (fun s op s' hk hop hs => Kept.next hk hop hs)
      (fun s op hk => and_iff_right (hk.rightly op)) kept_start).2 h
  exact hboth.mono fun s op h => h.1

theorem rightly_two_timers : Along next WakesRightly start
    [.sleepAsync 5 1, .sleepAsync 0 2, .pollExpired [70000, 70001], .cancel 70000,
      .checkExpired 70001, .pollExpired [70001, 70000]] :=
  rightly_of_untaken _ (by decide +kernel)

/-- The query takes the timer, and the poll finds none. -/
theorem not_rightly_checked : ¬ Along next WakesRightly start
    [.sleepAsync 0 7, .checkExpired 70000, .pollExpired [70000]] := by
  intro h
  have hpoll := ((h.2 _ rfl).2 _ rfl).1 (by decide +kernel)
  exact absurd (hpoll.woken _ rfl rfl 70000 _ rfl (by decide)
    (List.not_mem_nil)) (List.not_mem_nil)

end Arth.Runtime.Timers
