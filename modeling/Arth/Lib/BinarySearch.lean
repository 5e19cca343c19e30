import Mathlib

/-!
# Binary search

The binary search of a standard library: the window is halved, whatever the comparison says,
until one element is left. An element of the list compares with what is sought.

* `binarySearchBy_eq` — in a list split at `n`, the search answers from the element before `n`.
-/

namespace BinarySearch

open List

variable {α : Type*}

/-- The window of `size` elements from `base` on; what is left of it is the answer's index. -/
def shrink (cmp : Nat → Ordering) (base size : Nat) : Nat :=
  if size ≤ 1 then base
  else
    let half := size / 2
    let mid := base + half
    shrink cmp (if cmp mid = .gt then base else mid) (size - half)
termination_by size

/-- The index of a match, or the index at which one could be inserted. -/
def binarySearchBy (l : List α) (f : α → Ordering) : Except Nat Nat :=
  let cmp i := ((l[i]?).map f).getD .gt
  if l.length = 0 then .error 0
  else
    let base := shrink cmp 0 l.length
    match cmp base with
    | .eq => .ok base
    | .lt => .error (base + 1)
    | .gt => .error base

/-- The first `n` elements do not compare as greater, the others do. -/
def SplitAt (l : List α) (f : α → Ordering) (n : Nat) : Prop :=
  n ≤ l.length ∧ ∀ i (hi : i < l.length), f l[i] ≠ .gt ↔ i < n

theorem shrink_spec {cmp : Nat → Ordering} {n len : Nat} (hcmp : ∀ i < len, cmp i ≠ .gt ↔ i < n)
    (base size : Nat) (hpos : 0 < size) (hlen : base + size ≤ len) (hlow : base < n ∨ base = 0)
    (hhigh : n ≤ base + size) :
    (shrink cmp base size < n ∨ shrink cmp base size = 0) ∧ n ≤ shrink cmp base size + 1 ∧
      shrink cmp base size < len := by
  induction size using Nat.strong_induction_on generalizing base with
  | _ size ih =>
    rw [shrink]
    split
    · exact ⟨hlow, by omega, by omega⟩
    · dsimp only
      have hmid := hcmp (base + size / 2) (by omega)
      split_ifs with hgt
      · have hle : ¬ base + size / 2 < n := fun h => hmid.2 h hgt
        exact ih _ (by omega) base (by omega) (by omega) hlow (by omega)
      · exact ih _ (by omega) _ (by omega) (by omega) (.inl (hmid.1 hgt)) (by omega)

variable {l : List α} {f : α → Ordering} {n : Nat}

theorem exists_splitAt (h : l.Pairwise fun a b => f b ≠ .gt → f a ≠ .gt) : ∃ n, SplitAt l f n := by
  by_cases hall : ∃ i, ∃ hi : i < l.length, f l[i] = .gt
  · obtain ⟨n, ⟨hn, hgt⟩, hmin⟩ := exists_minimal_of_wellFoundedLT
      (fun i => ∃ hi : i < l.length, f l[i] = .gt) hall
    refine ⟨n, hn.le, fun i hi => ⟨fun hne => ?_, fun hlt heq => ?_⟩⟩
    · rcases Nat.lt_trichotomy i n with hlt | rfl | hlt
      · exact hlt
      · exact absurd hgt hne
      · exact absurd hgt (pairwise_iff_getElem.1 h n i hn hi hlt hne)
    · exact absurd (hmin ⟨hi, heq⟩ hlt.le) (by omega)
  · refine ⟨l.length, le_rfl, fun i hi => iff_of_true (fun heq => hall ⟨i, hi, heq⟩) hi⟩

/-- **The answer** in a list that is split at `n`: of several matches the last one. -/
theorem binarySearchBy_eq (h : SplitAt l f n) : binarySearchBy l f = match n with
    | 0 => .error 0
    | m + 1 => if (l[m]?).map f = some .eq then .ok m else .error (m + 1) := by
  have hcmp : ∀ i < l.length, ((l[i]?).map f).getD .gt ≠ .gt ↔ i < n := by
    intro i hi
    rw [getElem?_eq_getElem hi]
    exact h.2 i hi
  unfold binarySearchBy
  dsimp only
  split
  · obtain rfl : n = 0 := by have := h.1; omega
    rfl
  · obtain ⟨hlow, hhigh, hlt⟩ := shrink_spec hcmp 0 l.length (by omega) (by omega) (.inr rfl)
      (by have := h.1; omega)
    set base := shrink _ 0 l.length
    cases n with
    | zero =>
      obtain hbase : base = 0 := by omega
      have hgt : ((l[base]?).map f).getD .gt = .gt := by
        by_contra hne
        exact absurd ((hcmp base hlt).1 hne) (by omega)
      rw [hgt, hbase]
    | succ m =>
      obtain hbase : base = m := by omega
      have hle := (hcmp m (by omega)).2 (Nat.lt_succ_self m)
      have hget : l[m]? = some l[m] := getElem?_eq_getElem (by omega)
      rw [hbase]
      simp only [hget, Option.map_some, Option.getD_some] at hle ⊢
      cases hf : f l[m] with
      | lt => rfl
      | eq => rfl
      | gt => exact absurd hf hle

end BinarySearch
