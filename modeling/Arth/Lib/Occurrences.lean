import Mathlib

/-!
# Occurrences of one list in another

* `firstAt_eq_some_iff`, `firstAt_eq_none_iff` — where a list first occurs in another.
* `intercalate_splitAll` — the parts between the occurrences, joined again.
* `replaceAll_eq` — replacing every occurrence joins the parts with the replacement.
* `replaceAll_cons_of_starts`, `replaceAll_cons_of_not_starts` — replacing from the front, item
  by item; `replaceAll_eq_self_iff` — when a replacement that is shorter changes nothing.
-/

namespace Occurrences

open List Option

variable {α : Type*} [DecidableEq α]

def occursAt (t s : List α) (k : Nat) : Bool := t.isPrefixOf (s.drop k)

/-- The least index at which `t` occurs in `s`. -/
def firstAt (t s : List α) : Option Nat := (List.range (s.length + 1)).find? (occursAt t s)

variable {t s u : List α} {k : Nat} {a : α}

theorem occursAt_iff : occursAt t s k ↔ (s.drop k).take t.length = t := by
  rw [occursAt, isPrefixOf_iff_prefix, prefix_iff_eq_take]
  exact eq_comm

theorem firstAt_eq_some_iff :
    firstAt t s = some k ↔ k ≤ s.length ∧ occursAt t s k ∧ ∀ j < k, ¬ occursAt t s j := by
  rw [firstAt, find?_range_eq_some]
  simp only [mem_range, Nat.lt_succ_iff, Bool.not_eq_true, Bool.not_eq_true']
  tauto

theorem firstAt_eq_none_iff : firstAt t s = none ↔ ¬ t <:+: s := by
  rw [firstAt, find?_range_eq_none]
  constructor
  · rintro h ⟨pre, post, rfl⟩
    have hat := h pre.length (by simp)
    rw [Bool.not_eq_true', ← Bool.not_eq_true, occursAt_iff] at hat
    exact hat (by simp)
  · intro h k _
    rw [Bool.not_eq_true', ← Bool.not_eq_true, occursAt_iff]
    intro ht
    refine h ⟨s.take k, s.drop (k + t.length), ?_⟩
    calc s.take k ++ t ++ s.drop (k + t.length)
        = s.take k ++ ((s.drop k).take t.length ++ (s.drop k).drop t.length) := by
          rw [ht, drop_drop, append_assoc]
      _ = s := by rw [take_append_drop, take_append_drop]

theorem firstAt_split (h : firstAt t s = some k) : s = s.take k ++ t ++ s.drop (k + t.length) := by
  obtain ⟨-, hat, -⟩ := firstAt_eq_some_iff.1 h
  rw [occursAt_iff] at hat
  calc s = s.take k ++ ((s.drop k).take t.length ++ (s.drop k).drop t.length) := by
        rw [take_append_drop, take_append_drop]
    _ = s.take k ++ t ++ s.drop (k + t.length) := by
        rw [hat, drop_drop, append_assoc]

theorem firstAt_le (h : firstAt t s = some k) : k + t.length ≤ s.length := by
  have hlen := congrArg length (firstAt_split h)
  have hk := (firstAt_eq_some_iff.1 h).1
  simp only [length_append, length_take, length_drop] at hlen
  omega

/-- The parts of `s` before, between and after the occurrences of a `t` that is not empty,
taken from the left. -/
def splitAll (t s : List α) : List (List α) :=
  match h : firstAt t s with
  | none => [s]
  | some k => if ht : t = [] then [s] else s.take k :: splitAll t (s.drop (k + t.length))
termination_by s.length
decreasing_by
  have := firstAt_le h
  have := length_pos_of_ne_nil ht
  simp only [length_drop]
  omega

/-- Every occurrence of a `t` that is not empty replaced by `u`, from the left. -/
def replaceAll (t u s : List α) : List α :=
  match h : firstAt t s with
  | none => s
  | some k => if ht : t = [] then s else s.take k ++ u ++ replaceAll t u (s.drop (k + t.length))
termination_by s.length
decreasing_by
  have := firstAt_le h
  have := length_pos_of_ne_nil ht
  simp only [length_drop]
  omega

theorem splitAll_of_none (h : firstAt t s = none) : splitAll t s = [s] := by
  rw [splitAll, h]

theorem splitAll_of_some (h : firstAt t s = some k) (ht : t ≠ []) :
    splitAll t s = s.take k :: splitAll t (s.drop (k + t.length)) := by
  rw [splitAll, h]
  exact dif_neg ht

theorem splitAll_ne_nil (t s : List α) : splitAll t s ≠ [] := by
  rw [splitAll]
  split
  · simp
  · split <;> simp

theorem intercalate_splitAll (t s : List α) : t.intercalate (splitAll t s) = s := by
  fun_induction splitAll t s with
  | case1 | case2 => rw [intercalate_singleton]
  | case3 s k hf ht ih =>
    rw [intercalate_cons_of_ne_nil (splitAll_ne_nil _ _), ih]
    exact (firstAt_split hf).symm

theorem replaceAll_eq (ht : t ≠ []) (u s : List α) :
    replaceAll t u s = u.intercalate (splitAll t s) := by
  fun_induction replaceAll t u s with
  | case1 s hf => rw [splitAll_of_none hf, intercalate_singleton]
  | case2 s k hf hempty => exact absurd hempty ht
  | case3 s k hf ht ih =>
    rw [splitAll_of_some hf ht, intercalate_cons_of_ne_nil (splitAll_ne_nil _ _), ih]

/-! ## From the front -/

theorem firstAt_of_starts (h : t <+: s) : firstAt t s = some 0 := by
  rw [firstAt_eq_some_iff]
  refine ⟨Nat.zero_le _, ?_, fun j hj => absurd hj (Nat.not_lt_zero j)⟩
  exact isPrefixOf_iff_prefix.2 h

theorem firstAt_cons_of_not_starts (h : ¬ t <+: a :: s) :
    firstAt t (a :: s) = (firstAt t s).map (· + 1) := by
  have hzero : ¬ occursAt t (a :: s) 0 := by
    rw [occursAt, drop_zero, isPrefixOf_iff_prefix]
    exact h
  cases hf : firstAt t s with
  | none =>
    rw [firstAt_eq_none_iff] at hf
    rw [map_none, firstAt_eq_none_iff, infix_cons_iff]
    exact fun hor => hor.elim h hf
  | some k =>
    obtain ⟨hk, hat, hfirst⟩ := firstAt_eq_some_iff.1 hf
    rw [map_some, firstAt_eq_some_iff]
    refine ⟨by rw [length_cons]; omega, hat, fun j hj => ?_⟩
    cases j with
    | zero => exact hzero
    | succ j => exact hfirst j (by omega)

theorem replaceAll_of_none (h : firstAt t s = none) : replaceAll t u s = s := by
  rw [replaceAll, h]

theorem replaceAll_of_some (h : firstAt t s = some k) (ht : t ≠ []) :
    replaceAll t u s = s.take k ++ u ++ replaceAll t u (s.drop (k + t.length)) := by
  rw [replaceAll, h]
  exact dif_neg ht

theorem replaceAll_append_self (ht : t ≠ []) (s : List α) :
    replaceAll t u (t ++ s) = u ++ replaceAll t u s := by
  rw [replaceAll_of_some (firstAt_of_starts (prefix_append t s)) ht, zero_add, drop_left]
  rfl

theorem replaceAll_nil (ht : t ≠ []) : replaceAll t u [] = [] := by
  refine replaceAll_of_none (firstAt_eq_none_iff.2 fun h => ht ?_)
  exact infix_nil.1 h

theorem replaceAll_cons_of_not_starts (ht : t ≠ []) (h : ¬ t <+: a :: s) :
    replaceAll t u (a :: s) = a :: replaceAll t u s := by
  have hcons := firstAt_cons_of_not_starts h
  cases hf : firstAt t s with
  | none =>
    rw [hf] at hcons
    rw [replaceAll_of_none hcons, replaceAll_of_none hf]
  | some k =>
    rw [hf] at hcons
    have hadd : k + 1 + t.length = k + t.length + 1 := by omega
    rw [replaceAll_of_some hcons ht, replaceAll_of_some hf ht, hadd]
    rfl

theorem replaceAll_append_of_not_starts (ht : t ≠ []) {p : List α}
    (h : ∀ q r, p = q ++ r → r ≠ [] → ¬ t <+: r ++ s) :
    replaceAll t u (p ++ s) = p ++ replaceAll t u s := by
  induction p with
  | nil => rfl
  | cons a p ih =>
    have hrest : ∀ q r, p = q ++ r → r ≠ [] → ¬ t <+: r ++ s := by
      rintro q r rfl hr
      exact h (a :: q) r rfl hr
    have hhere : ¬ t <+: a :: (p ++ s) := h [] (a :: p) rfl (cons_ne_nil a p)
    rw [cons_append, replaceAll_cons_of_not_starts ht hhere, ih hrest, cons_append]

theorem length_replaceAll (hu : u.length < t.length) (s : List α) :
    (replaceAll t u s).length ≤ s.length ∧ (t <:+: s → (replaceAll t u s).length < s.length) := by
  have ht : t ≠ [] := by
    rintro rfl
    exact Nat.not_lt_zero _ hu
  fun_induction replaceAll t u s with
  | case1 s hf => exact ⟨le_rfl, fun h => absurd h (firstAt_eq_none_iff.1 hf)⟩
  | case2 s k hf hempty => exact absurd hempty ht
  | case3 s k hf _ ih =>
    have hle := firstAt_le hf
    have hrest := ih.1
    have hlt : (s.take k ++ u ++ replaceAll t u (s.drop (k + t.length))).length < s.length := by
      simp only [length_append, length_take, length_drop] at hrest ⊢
      omega
    exact ⟨hlt.le, fun _ => hlt⟩

theorem replaceAll_eq_self_iff (hu : u.length < t.length) : replaceAll t u s = s ↔ ¬ t <:+: s := by
  constructor
  · intro heq h
    have hlt := (length_replaceAll hu s).2 h
    rw [heq] at hlt
    exact lt_irrefl _ hlt
  · intro h
    exact replaceAll_of_none (firstAt_eq_none_iff.2 h)

end Occurrences
