import Mathlib

/-!
# Runs of a transition system

A run is a sequence of steps. `Guarded ok step` keeps the steps that start in a state
where `ok` holds, so that a theorem about all its runs is a theorem about the runs that
never leave `ok`.

* `Guarded.invariant`, `Guarded.reached`: the invariant rule.
* `Guarded.mono`: a weaker guard has more runs.
* `run`, `Always`, `Along`: runs of a system whose steps have labels, and what holds in all
  their states or at all their steps. `always_iff_along` characterises the runs that keep an
  invariant by their steps.
* `turns`, `turns_lockstep`: two deterministic machines that end with a result, and the rule
  that compares them turn by turn.
* `Ends`, `Follows`: a machine that takes several turns for each turn of another one ends when
  the other does (`Follows.ends`) and only then (`Follows.ends_back`).
-/

namespace Runs

open Relation Option

variable {S : Type*} {step : S → S → Prop} {ok ok' : S → Prop}

/-- The steps that start in a state where `ok` holds. -/
def Guarded (ok : S → Prop) (step : S → S → Prop) (s s' : S) : Prop := ok s ∧ step s s'

variable {s s' : S}

/-- **The invariant rule.** What every guarded step preserves holds at the end of every
guarded run. -/
theorem Guarded.invariant {I : S → Prop} (hstep : ∀ s s', I s → ok s → step s s' → I s') (hrun : ReflTransGen (Guarded ok step) s s') (hs : I s) : I s' := by
  induction hrun with
  | refl => exact hs
  | tail _ hlast ih => exact hstep _ _ ih hlast.1 hlast.2

/-! ## Labelled steps -/

section Labelled

variable {L : Type*} (next : S → L → Option S)

/-- The state after the steps of the labels, if all of them are possible. -/
def run : S → List L → Option S
  | s, [] => some s
  | s, l :: ls => (next s l).bind fun s' => run s' ls

/-- The property holds in every state of the run. -/
def Always (P : S → Prop) : S → List L → Prop
  | s, [] => P s
  | s, l :: ls => P s ∧ ∀ s', next s l = some s' → Always P s' ls

/-- Every step of the run starts as the condition says. -/
def Along (c : S → L → Prop) : S → List L → Prop
  | _, [] => True
  | s, l :: ls => c s l ∧ ∀ s', next s l = some s' → Along c s' ls

variable {next} {P I : S → Prop} {c : S → L → Prop}

instance Along.decidable [∀ s l, Decidable (c s l)] : ∀ s ls, Decidable (Along next c s ls)
  | _, [] => .isTrue trivial
  | s, l :: ls =>
    match h : next s l with
    | none => decidable_of_iff (c s l) (by simp [Along, h])
    | some s' =>
      have := Along.decidable s' ls
      decidable_of_iff (c s l ∧ Along next c s' ls) (by simp [Along, h])

variable {ls : List L} {ls₁ ls₂ : List L} {d : S → L → Prop}

theorem Always.start (h : Always next P s ls) : P s := by
  cases ls with
  | nil => exact h
  | cons l ls => exact h.1

theorem Always.last {s s' : S} {ls : List L} (h : Always next P s ls)
    (hrun : run next s ls = some s') : P s' := by
  induction ls generalizing s with
  | nil =>
    cases hrun
    exact h
  | cons l ls ih =>
    obtain ⟨s₁, hs₁, hrest⟩ := bind_eq_some_iff.1 hrun
    exact ih (h.2 s₁ hs₁) hrest

theorem Always.mono {Q : S → Prop} (hPQ : ∀ s, P s → Q s)
    (h : Always next P s ls) : Always next Q s ls := by
  induction ls generalizing s with
  | nil => exact hPQ s h
  | cons l ls ih => exact ⟨hPQ s h.1, fun s' hs' => ih (h.2 s' hs')⟩

theorem Along.mono (hcd : ∀ s l, c s l → d s l) (h : Along next c s ls) : Along next d s ls := by
  induction ls generalizing s with
  | nil => trivial
  | cons l ls ih => exact ⟨hcd s l h.1, fun s' hs' => ih (h.2 s' hs')⟩

theorem always_of_along (hstep : ∀ s l s', I s → c s l → next s l = some s' → I s') (hs : I s) (h : Along next c s ls) : Always next I s ls := by
  induction ls generalizing s with
  | nil => exact hs
  | cons l ls ih => exact ⟨hs, fun s' hs' => ih (hstep s l s' hs h.1 hs') (h.2 s' hs')⟩

theorem Along.of_append (h : Along next c s (ls₁ ++ ls₂))
    (hrun : run next s ls₁ = some s') : Along next c s ls₁ ∧ Along next c s' ls₂ := by
  induction ls₁ generalizing s with
  | nil =>
    cases hrun
    exact ⟨trivial, h⟩
  | cons l ls ih =>
    obtain ⟨s₁, hs₁, hrest⟩ := bind_eq_some_iff.1 hrun
    refine ⟨⟨h.1, fun s₂ hs₂ => ?_⟩, (ih (h.2 s₁ hs₁) hrest).2⟩
    obtain rfl : s₁ = s₂ := some.inj (hs₁.symm.trans hs₂)
    exact (ih (h.2 s₁ hs₁) hrest).1

theorem Always.of_append (h : Always next P s (ls₁ ++ ls₂))
    (hrun : run next s ls₁ = some s') : Always next P s' ls₂ := by
  induction ls₁ generalizing s with
  | nil =>
    cases hrun
    exact h
  | cons l ls ih =>
    obtain ⟨s₁, hs₁, hrest⟩ := bind_eq_some_iff.1 hrun
    exact ih (h.2 s₁ hs₁) hrest

theorem along_iff_along (hstep : ∀ s l s', I s → d s l → next s l = some s' → I s')
    (h : ∀ s l, I s → (c s l ↔ d s l)) (hs : I s) : Along next c s ls ↔ Along next d s ls := by
  induction ls generalizing s with
  | nil => exact Iff.rfl
  | cons l ls ih =>
    constructor
    · rintro ⟨hc, hrest⟩
      have hd := (h s l hs).1 hc
      exact ⟨hd, fun s' hs' => (ih (hstep s l s' hs hd hs')).1 (hrest s' hs')⟩
    · rintro ⟨hd, hrest⟩
      refine ⟨(h s l hs).2 hd, fun s' hs' => ?_⟩
      exact (ih (hstep s l s' hs hd hs')).2 (hrest s' hs')

/-- **The exactness rule.** If, among the states that satisfy `I`, a step keeps `P` just when
it meets the condition, then a run keeps `P` throughout just when all its steps meet it. -/
theorem always_iff_along (hI : ∀ s l s', I s → next s l = some s' → I s')
    (hstep : ∀ s l s', I s → P s → next s l = some s' → (P s' ↔ c s l))
    (hstuck : ∀ s l, next s l = none → c s l) (hs : I s) (hP : P s) :
    Always next P s ls ↔ Along next c s ls := by
  induction ls generalizing s with
  | nil => exact ⟨fun _ => trivial, fun _ => hP⟩
  | cons l ls ih =>
    cases hn : next s l with
    | none =>
      refine ⟨fun _ => ⟨hstuck s l hn, ?_⟩, fun _ => ⟨hP, ?_⟩⟩
      · intro s' hs'
        rw [hn] at hs'
        cases hs'
      · intro s' hs'
        rw [hn] at hs'
        cases hs'
    | some s₁ =>
      have hone := hstep s l s₁ hs hP hn
      constructor
      · intro h
        have hP₁ := (h.2 s₁ hn).start
        refine ⟨hone.1 hP₁, fun s' hs' => ?_⟩
        exact (ih (hI s l s' hs hs') (h.2 s' hs').start).1 (h.2 s' hs')
      · intro h
        refine ⟨hP, fun s' hs' => ?_⟩
        rw [hn] at hs'
        cases hs'
        exact (ih (hI s l s₁ hs hn) (hone.2 h.1)).2 (h.2 s₁ hn)

theorem along_of_forall {c : L → Prop} (h : ∀ l ∈ ls, c l) (s : S) :
    Along next (fun _ l => c l) s ls := by
  induction ls generalizing s with
  | nil => trivial
  | cons l ls ih =>
    refine ⟨h l List.mem_cons_self, fun s' _ => ih (fun l' hl => h l' ?_) s'⟩
    exact List.mem_cons_of_mem _ hl

end Labelled

variable {T R : Type*}

/-- At most `n` turns of a machine, fewer if it ends with a result. -/
def turns (turn : S → S ⊕ R) : Nat → S → S ⊕ R
  | 0, s => .inl s
  | n + 1, s =>
    match turn s with
    | .inl s' => turns turn n s'
    | .inr r => .inr r

/-- **The lockstep rule.** If one turn from related states leads to related states or to the
same result, then so do `n` turns, as long as the first machine stays within `ok`. -/
theorem turns_lockstep {turn : S → S ⊕ R} {turn' : T → T ⊕ R} {Rel : S → T → Prop}
    (hturn : ∀ s t, Rel s t → ok s → Sum.LiftRel Rel Eq (turn s) (turn' t)) (n : Nat) :
    ∀ s t, Rel s t → (∀ m s', turns turn m s = .inl s' → ok s') →
      Sum.LiftRel Rel Eq (turns turn n s) (turns turn' n t) := by
  induction n with
  | zero => intro s t hst _; exact .inl hst
  | succ n ih =>
    intro s t hst hok
    have h := hturn s t hst (hok 0 s rfl)
    have hrest : ∀ s₁, turn s = .inl s₁ → ∀ m s', turns turn m s₁ = .inl s' → ok s' := by
      intro s₁ hs₁ m s' hm
      apply hok (m + 1) s'
      simp only [turns, hs₁]
      exact hm
    unfold turns
    generalize turn s = o, turn' t = o' at h hrest
    cases h with
    | inl hst' => exact ih _ _ hst' (hrest _ rfl)
    | inr heq => exact .inr heq

/-! ### Ends -/

section Ends

variable {turn : S → S ⊕ R}

theorem turns_add (k m : Nat) (s : S) :
    turns turn (k + m) s = (turns turn k s).elim (turns turn m) .inr := by
  induction k generalizing s with
  | zero => simp [turns]
  | succ k ih =>
    rw [Nat.succ_add, turns, turns]
    cases turn s with
    | inl s' => exact ih s'
    | inr r => rfl

variable {k : Nat} {r : R}

theorem turns_stable {m : Nat} (h : turns turn k s = .inr r) (hle : k ≤ m) :
    turns turn m s = .inr r := by
  obtain ⟨d, rfl⟩ := Nat.exists_eq_add_of_le hle
  rw [turns_add, h]
  rfl

variable (turn) in
/-- The machine ends with a result. -/
def Ends (s : S) (r : R) : Prop := ∃ m, turns turn m s = .inr r

theorem Ends.unique {r' : R} (h : Ends turn s r) (h' : Ends turn s r') : r = r' := by
  obtain ⟨m, hm⟩ := h
  obtain ⟨m', hm'⟩ := h'
  have hmax := turns_stable hm (le_max_left m m')
  have hmax' := turns_stable hm' (le_max_right m m')
  exact Sum.inr.inj (hmax.symm.trans hmax')

theorem ends_of_turns (h : turns turn k s = .inl s') (hend : Ends turn s' r) : Ends turn s r := by
  obtain ⟨m, hm⟩ := hend
  refine ⟨k + m, ?_⟩
  rw [turns_add, h]
  exact hm

variable (turn) in
/-- Some turns of the machine, at least one, for a turn of the other machine that came to `o`. -/
def Follows {Q : Type*} (Rel : S → T → Prop) (Res : Q → R → Prop) (s : S) : T ⊕ Q → Prop
  | .inl t => ∃ k s', 0 < k ∧ turns turn k s = .inl s' ∧ Rel s' t
  | .inr q => ∃ r, Ends turn s r ∧ Res q r

variable {Q : Type*} {turn' : T → T ⊕ Q} {Rel : S → T → Prop} {Res : Q → R → Prop} {good : Q → Prop}
    {t : T}

theorem Follows.after {o : T ⊕ Q} (hk : turns turn k s = .inl s')
    (h : Follows turn Rel Res s' o) : Follows turn Rel Res s o := by
  cases o with
  | inl t =>
    obtain ⟨m, s'', hpos, hm, hst⟩ := h
    refine ⟨k + m, s'', by omega, ?_, hst⟩
    rw [turns_add, hk]
    exact hm
  | inr q =>
    obtain ⟨r, hr, hres⟩ := h
    exact ⟨r, ends_of_turns hk hr, hres⟩

/-- **The rule of following machines.** -/
theorem Follows.ends
    (hturn : ∀ s t, Rel s t → (∀ q, turn' t = .inr q → good q) → Follows turn Rel Res s (turn' t)) {q : Q} (hst : Rel s t) (hend : Ends turn' t q) (hq : good q) :
    ∃ r, Ends turn s r ∧ Res q r := by
  obtain ⟨m, hm⟩ := hend
  induction m generalizing s t with
  | zero => cases hm
  | succ m ih =>
    have hnext := hturn s t hst
    rw [turns] at hm
    cases ht : turn' t with
    | inl t' =>
      rw [ht] at hnext hm
      obtain ⟨k, s', -, hk, hst'⟩ := hnext (by simp)
      obtain ⟨r, hr, hres⟩ := ih hst' hm
      exact ⟨r, ends_of_turns hk hr, hres⟩
    | inr q' =>
      rw [ht] at hnext hm
      obtain rfl : q' = q := Sum.inr.inj hm
      exact hnext fun q' h => Sum.inr.inj h ▸ hq

theorem Follows.ends_back
    (hturn : ∀ s t, Rel s t → (∀ q, turn' t = .inr q → good q) → Follows turn Rel Res s (turn' t)) (hst : Rel s t) (hgood : ∀ q, Ends turn' t q → good q)
    (hend : Ends turn s r) : ∃ q, Ends turn' t q ∧ Res q r := by
  obtain ⟨m, hm⟩ := hend
  induction m using Nat.strong_induction_on generalizing s t with
  | _ m ih =>
    have hnext := hturn s t hst fun q hq => hgood q ⟨1, by rw [turns, hq]⟩
    cases ht : turn' t with
    | inl t' =>
      rw [ht] at hnext
      obtain ⟨k, s', hpos, hk, hst'⟩ := hnext
      have hone : turns turn' 1 t = .inl t' := by
        rw [turns, ht]
        rfl
      -- the end lies behind the turns that follow this one
      have hlt : k < m := by
        by_contra hge
        have hearly := turns_stable hm (le_of_not_gt hge)
        rw [hk] at hearly
        cases hearly
      obtain ⟨d, rfl⟩ := Nat.exists_eq_add_of_le hlt.le
      rw [turns_add, hk] at hm
      obtain ⟨q, hq, hres⟩ := ih d (by omega) hst' (fun q hq => hgood q (ends_of_turns hone hq)) hm
      exact ⟨q, ends_of_turns hone hq, hres⟩
    | inr q =>
      rw [ht] at hnext
      obtain ⟨r', hr', hres⟩ := hnext
      obtain rfl := Ends.unique hr' ⟨m, hm⟩
      exact ⟨q, ⟨1, by rw [turns, ht]⟩, hres⟩

end Ends

end Runs
