import Mathlib

/-!
# Texts with separators

* `split` — the parts between the separators; there is one more than there are separators.
* `split_of_not_mem`, `split_append` — a text is split where its first separator stands.
-/

namespace Separated

open List

/-- The parts between the separators. -/
def split (c : Char) : List Char → List (List Char)
  | [] => [[]]
  | x :: s =>
    if x = c then [] :: split c s
    else
      match split c s with
      | [] => [[x]]
      | part :: parts => (x :: part) :: parts

variable {s : List Char} {c : Char}

theorem split_of_not_mem (h : c ∉ s) : split c s = [s] := by
  induction s with
  | nil => rfl
  | cons x s ih =>
    have hx : x ≠ c := fun heq => h (heq ▸ mem_cons_self)
    rw [split, if_neg hx, ih fun hc => h (mem_cons_of_mem _ hc)]

theorem split_append (h : c ∉ s) (t : List Char) : split c (s ++ c :: t) = s :: split c t := by
  induction s with
  | nil => rw [nil_append, split, if_pos rfl]
  | cons x s ih =>
    have hx : x ≠ c := fun heq => h (heq ▸ mem_cons_self)
    rw [cons_append, split, if_neg hx, ih fun hc => h (mem_cons_of_mem _ hc)]

theorem length_split_pos (c : Char) (s : List Char) : 0 < (split c s).length := by
  cases s with
  | nil => simp [split]
  | cons x s =>
    rw [split]
    split_ifs
    · simp
    · split <;> simp

end Separated
