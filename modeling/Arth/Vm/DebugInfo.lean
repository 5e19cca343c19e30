import Arth.Lib.BinarySearch
import Arth.Vm.Linker

/-!
# Debug entries

A code offset is looked up among the debug entries of a program by binary search.

* `lookup_greatest`, `lookup_eq_none_iff` — in sorted entries, the last one at or before the
  offset.
* `Covers` — an entry stands for a range of offsets: no other entry starts inside.
* `sorted_link`, `Covers.left`, `Covers.right` — what linking keeps.
-/

namespace Arth

open BinarySearch List

/-- `lookup_function`: the entry of the function that contains the offset. -/
def Program.lookupFunction (p : Program) (ip : UInt32) : Option DebugEntry :=
  if p.debugEntries = [] then none
  else
    match binarySearchBy p.debugEntries fun e => compare e.offset ip with
    | .ok idx => p.debugEntries[idx]?
    | .error idx => if idx > 0 then p.debugEntries[idx - 1]? else none

namespace DebugEntry

/-- Entries in the order of their offsets. -/
def Sorted (entries : List DebugEntry) : Prop :=
  entries.Pairwise fun a b => a.offset ≤ b.offset

/-- The entry stands for the offsets from `start` up to `stop`. -/
def Covers (entries : List DebugEntry) (start stop : Nat) (e : DebugEntry) : Prop :=
  ∃ before after, entries = before ++ e :: after ∧ e.offset.toNat = start ∧
    ∀ x ∈ after, stop ≤ x.offset.toNat

variable {entries more : List DebugEntry} {start stop base : Nat} {e : DebugEntry} {ip : UInt32}
  {p : Program}

theorem compare_ne_gt (a b : UInt32) : compare a b ≠ .gt ↔ a ≤ b := by
  rw [Ne, ← Ordering.isLE_iff_ne_gt, Std.isLE_compare]

theorem lookup_of_splitAt {n : Nat} (h : SplitAt p.debugEntries (fun e => compare e.offset ip) n) :
    p.lookupFunction ip = if n = 0 then none else p.debugEntries[n - 1]? := by
  unfold Program.lookupFunction
  by_cases hempty : p.debugEntries = []
  · rw [if_pos hempty, hempty]
    split <;> rfl
  rw [if_neg hempty, binarySearchBy_eq h]
  -- found or not, the answer is the entry before the split
  cases n with
  | zero => rfl
  | succ m =>
    dsimp only
    split
    · rename_i idx heq
      split at heq
      · cases heq
        rfl
      · cases heq
    · rename_i idx heq
      split at heq
      · cases heq
      · cases heq
        exact if_pos (Nat.succ_pos m)

theorem Sorted.exists_splitAt (h : Sorted p.debugEntries) (ip : UInt32) :
    ∃ n, SplitAt p.debugEntries (fun e => compare e.offset ip) n := by
  refine BinarySearch.exists_splitAt (h.imp fun {a b} hab => ?_)
  simp only [compare_ne_gt]
  exact UInt32.le_trans hab

theorem lookup_greatest (h : Sorted p.debugEntries) (hfound : p.lookupFunction ip = some e) :
    e ∈ p.debugEntries ∧ e.offset ≤ ip ∧
      ∀ x ∈ p.debugEntries, x.offset ≤ ip → x.offset ≤ e.offset := by
  obtain ⟨n, hn⟩ := h.exists_splitAt ip
  rw [lookup_of_splitAt hn] at hfound
  split at hfound
  · cases hfound
  obtain ⟨hlt, rfl⟩ := List.getElem?_eq_some_iff.1 hfound
  refine ⟨getElem_mem hlt, ?_, fun x hx hle => ?_⟩
  · exact (compare_ne_gt _ _).1 ((hn.2 _ hlt).2 (by omega))
  · obtain ⟨i, hi, rfl⟩ := getElem_of_mem hx
    have hin := (hn.2 i hi).1 ((compare_ne_gt _ _).2 hle)
    -- the entry found is the last one at or before `ip`
    rcases Nat.lt_or_eq_of_le (show i ≤ n - 1 by omega) with hlt' | heq
    · exact pairwise_iff_getElem.1 h i (n - 1) hi hlt hlt'
    · simp only [heq]
      exact UInt32.le_refl _

theorem lookup_eq_none_iff (h : Sorted p.debugEntries) :
    p.lookupFunction ip = none ↔ ∀ x ∈ p.debugEntries, ¬ x.offset ≤ ip := by
  obtain ⟨n, hn⟩ := h.exists_splitAt ip
  rw [lookup_of_splitAt hn]
  constructor
  · intro hnone x hx hle
    obtain ⟨i, hi, rfl⟩ := getElem_of_mem hx
    have hin := (hn.2 i hi).1 ((compare_ne_gt _ _).2 hle)
    have := hn.1
    rw [if_neg (by omega), getElem?_eq_getElem (by omega)] at hnone
    cases hnone
  · intro hall
    split
    · rfl
    · have hlt : n - 1 < p.debugEntries.length := by
        have := hn.1
        omega
      have hle := (compare_ne_gt _ _).1 ((hn.2 _ hlt).2 (by omega))
      exact absurd hle (hall _ (getElem_mem hlt))

/-- **An offset that an entry stands for is attributed to it.** -/
theorem Covers.lookup (h : Covers p.debugEntries start stop e) (hsorted : Sorted p.debugEntries)
    (hstart : start ≤ ip.toNat) (hstop : ip.toNat < stop) : p.lookupFunction ip = some e := by
  obtain ⟨before, after, heq, hoffset, hafter⟩ := h
  have hsplit : SplitAt p.debugEntries (fun e => compare e.offset ip) (before.length + 1) := by
    rw [heq] at hsorted ⊢
    refine ⟨by simp, fun i hi => ?_⟩
    rw [compare_ne_gt, UInt32.le_iff_toNat_le]
    -- entries before `e` start no later than it does, those after it beyond `ip`
    rcases Nat.lt_trichotomy i before.length with hlt | hieq | hgt
    · have hle := (pairwise_append.1 hsorted).2.2 before[i] (getElem_mem hlt) e mem_cons_self
      rw [UInt32.le_iff_toNat_le] at hle
      rw [getElem_append_left hlt]
      exact iff_of_true (by omega) (by omega)
    · subst hieq
      rw [getElem_append_right le_rfl]
      simp only [Nat.sub_self, getElem_cons_zero]
      exact iff_of_true (by omega) (by omega)
    · rw [getElem_append_right hgt.le]
      have hlt : i - before.length < (e :: after).length := by
        simp at hi ⊢
        omega
      have hmem : (e :: after)[i - before.length] ∈ after := by
        obtain ⟨k, hk⟩ : ∃ k, i - before.length = k + 1 := ⟨i - before.length - 1, by omega⟩
        simp only [hk, getElem_cons_succ]
        exact getElem_mem _
      have := hafter _ hmem
      exact iff_of_false (by omega) (by omega)
  rw [lookup_of_splitAt hsplit, if_neg (Nat.succ_ne_zero _), Nat.add_sub_cancel, heq]
  simp

theorem shift_offset (h : base + e.offset.toNat < 2 ^ 32) :
    (e.shift (UInt32.ofNat base)).offset.toNat = base + e.offset.toNat := by
  rw [shift, UInt32.toNat_add, UInt32.toNat_ofNat']
  omega

theorem Covers.left (h : Covers entries start stop e) (hmore : ∀ x ∈ more, stop ≤ x.offset.toNat) :
    Covers (entries ++ more) start stop e := by
  obtain ⟨before, after, rfl, hoffset, hafter⟩ := h
  refine ⟨before, after ++ more, by simp, hoffset, fun x hx => ?_⟩
  rcases mem_append.1 hx with hx | hx
  · exact hafter x hx
  · exact hmore x hx

theorem Covers.right (h : Covers more start stop e)
    (hfit : ∀ x ∈ more, base + x.offset.toNat < 2 ^ 32) :
    Covers (entries ++ more.map (shift (UInt32.ofNat base))) (base + start) (base + stop)
      (e.shift (UInt32.ofNat base)) := by
  obtain ⟨before, after, rfl, hoffset, hafter⟩ := h
  refine ⟨entries ++ before.map (shift (UInt32.ofNat base)),
    after.map (shift (UInt32.ofNat base)), by simp, ?_, fun x hx => ?_⟩
  · rw [shift_offset (hfit e (by simp)), hoffset]
  · obtain ⟨y, hy, rfl⟩ := mem_map.1 hx
    have := hafter y hy
    rw [shift_offset (hfit y (by simp [hy]))]
    omega

theorem sorted_append (h : Sorted entries) (hmore : Sorted more)
    (hle : ∀ x ∈ entries, x.offset.toNat ≤ base)
    (hfit : ∀ x ∈ more, base + x.offset.toNat < 2 ^ 32) :
    Sorted (entries ++ more.map (shift (UInt32.ofNat base))) := by
  refine pairwise_append.2 ⟨h, pairwise_map.2 ?_, fun a ha b hb => ?_⟩
  · refine hmore.imp_of_mem fun {a b} ha hb hab => ?_
    rw [UInt32.le_iff_toNat_le] at hab ⊢
    rw [shift_offset (hfit a ha), shift_offset (hfit b hb)]
    omega
  · obtain ⟨c, hc, rfl⟩ := mem_map.1 hb
    have := hle a ha
    rw [UInt32.le_iff_toNat_le, shift_offset (hfit c hc)]
    omega

theorem mergeSort_of_sorted (h : Sorted entries) :
    (entries.mergeSort fun a b => a.offset ≤ b.offset) = entries :=
  mergeSort_of_pairwise (h.imp fun {a b} hab => by simpa using hab)

end DebugEntry

end Arth
