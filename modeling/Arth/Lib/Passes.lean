import Arth.Lib.KeyTable

/-!
# Passes until nothing changes

A table is filled by passes over a list of items. An item whose key has an entry is skipped; any
other is entered as soon as its rule fires, with what the rule says at that moment, and the entry
is never looked at again. Passes go on until one enters nothing.

* `Rules`, `visit`, `pass`, `loop` — the iteration, which ends because a pass that changes the
  table leaves fewer items without an entry.
* `tableAt` — the table when a pass reaches a position.
* `loop_closed` — at the end no rule fires for an item without an entry.
* `loop_origin` — every entry was made by the rule of an item at some moment.
* `mem_tableAt` — which keys have an entry at a moment.
-/

namespace Passes

open KeyTable List Option

variable {α K V : Type*} [DecidableEq K]

/-- The key of an item, and what its rule enters when it fires. -/
structure Rules (α K V : Type*) [DecidableEq K] where
  key : α → K
  fires : Table K V → α → Option V

variable (r : Rules α K V) (items : List α)

/-- One item. The flag says whether something was entered. -/
def visit (s : Table K V × Bool) (a : α) : Table K V × Bool :=
  if r.key a ∈ s.1 then s
  else match r.fires s.1 a with
    | some v => (s.1.insert (r.key a) v, true)
    | none => s

def pass (t : Table K V) : Table K V × Bool :=
  items.foldl (visit r) (t, false)

/-- The items without an entry. -/
def absent (t : Table K V) : ℕ :=
  (items.filter fun a => decide (r.key a ∉ t)).length

variable {r items}

/-- One table has at least the entries of another. -/
def Extends (t' t : Table K V) : Prop :=
  ∀ k v, t.lookup k = some v → t'.lookup k = some v

variable {k : K} {s : Table K V × Bool} {t t' : Table K V} {l : List α}

theorem Extends.mem (h : Extends t' t) (hk : k ∈ t) : k ∈ t' := by
  obtain ⟨v, hv⟩ := isSome_iff_exists.1 (AList.lookup_isSome.2 hk)
  exact AList.lookup_isSome.1 (isSome_iff_exists.2 ⟨v, h k v hv⟩)

theorem visit_cases (s : Table K V × Bool) (a : α) :
    (visit r s a = s ∧ (r.key a ∈ s.1 ∨ r.fires s.1 a = none)) ∨
      ∃ v, r.key a ∉ s.1 ∧ r.fires s.1 a = some v ∧
        visit r s a = (s.1.insert (r.key a) v, true) := by
  unfold visit
  by_cases hmem : r.key a ∈ s.1
  · exact .inl ⟨if_pos hmem, .inl hmem⟩
  · rw [if_neg hmem]
    cases hfires : r.fires s.1 a with
    | none => exact .inl ⟨rfl, .inr rfl⟩
    | some v => exact .inr ⟨v, hmem, rfl, rfl⟩

theorem extends_visit (s : Table K V × Bool) (a : α) : Extends (visit r s a).1 s.1 := by
  intro k v hv
  rcases visit_cases s a with ⟨hskip, -⟩ | ⟨w, hmem, -, henter⟩
  · rw [hskip]
    exact hv
  · have hne : k ≠ r.key a := by
      rintro rfl
      exact hmem (AList.lookup_isSome.1 (isSome_iff_exists.2 ⟨v, hv⟩))
    rw [henter, lookup_insert_eq, if_neg hne]
    exact hv

theorem extends_foldl (l : List α) (s : Table K V × Bool) :
    Extends (l.foldl (visit r) s).1 s.1 := by
  induction l generalizing s with
  | nil => exact fun _ _ hv => hv
  | cons a l ih => exact fun k v hv => ih (visit r s a) k v (extends_visit s a k v hv)

theorem foldl_of_flag (h : (l.foldl (visit r) s).2 = false) :
    l.foldl (visit r) s = s ∧ ∀ a ∈ l, r.key a ∈ s.1 ∨ r.fires s.1 a = none := by
  induction l generalizing s with
  | nil => exact ⟨rfl, by simp⟩
  | cons a l ih =>
    obtain ⟨hrest, hall⟩ := ih h
    rw [foldl_cons, hrest] at h ⊢
    rcases visit_cases s a with ⟨hskip, hwhy⟩ | ⟨v, -, -, henter⟩
    · rw [hskip] at hall ⊢
      refine ⟨rfl, fun b hb => ?_⟩
      rcases mem_cons.1 hb with rfl | hb
      · exact hwhy
      · exact hall b hb
    · rw [henter] at h
      exact Bool.noConfusion h

theorem absent_le (h : Extends t' t) : absent r items t' ≤ absent r items t := by
  refine Sublist.length_le (monotone_filter_right items ?_)
  intro a ha
  rw [decide_eq_true_iff] at ha ⊢
  exact fun hmem => ha (h.mem hmem)

variable {t : Table K V} {a : α}

theorem absent_insert_lt (ha : a ∈ items) (hmem : r.key a ∉ t) (v : V) :
    absent r items (t.insert (r.key a) v) < absent r items t := by
  have hle : ∀ b, decide (r.key b ∉ t.insert (r.key a) v) = true → decide (r.key b ∉ t) = true := by
    intro b hb
    rw [decide_eq_true_iff, AList.mem_insert, not_or] at hb
    exact decide_eq_true hb.2
  refine lt_of_le_of_ne (monotone_filter_right items hle).length_le fun heq => ?_
  have hsame := (monotone_filter_right items hle).eq_of_length heq
  have hin : a ∈ items.filter fun b => decide (r.key b ∉ t) :=
    mem_filter.2 ⟨ha, decide_eq_true hmem⟩
  rw [← hsame, mem_filter] at hin
  exact of_decide_eq_true hin.2 ((AList.mem_insert _).2 (.inl rfl))

theorem absent_lt_of_flag (hsub : ∀ a ∈ l, a ∈ items)
    (hs : s.2 = false) (h : (l.foldl (visit r) s).2 = true) :
    absent r items (l.foldl (visit r) s).1 < absent r items s.1 := by
  induction l generalizing s with
  | nil => exact absurd h (by simp [hs])
  | cons a l ih =>
    rw [foldl_cons] at h ⊢
    rcases visit_cases s a with ⟨hskip, -⟩ | ⟨v, hmem, -, henter⟩
    · rw [hskip] at h ⊢
      exact ih (fun b hb => hsub b (mem_cons_of_mem _ hb)) hs h
    · have hrest : absent r items (l.foldl (visit r) (visit r s a)).1 ≤
          absent r items (visit r s a).1 := absent_le (extends_foldl l _)
      have hlt := absent_insert_lt (hsub a mem_cons_self) hmem v
      rw [henter] at hrest ⊢
      exact lt_of_le_of_lt hrest hlt

variable (r items)

/-- Passes until one enters nothing. -/
def loop (t : Table K V) : Table K V :=
  let s := pass r items t
  if s.2 then loop s.1 else s.1
termination_by absent r items t
decreasing_by
  rename_i hflag
  exact absent_lt_of_flag (fun _ ha => ha) rfl hflag

/-- The table after `n` passes and the first `i` items of the next one. -/
def tableAt (t : Table K V) (n i : ℕ) : Table K V :=
  ((items.take i).foldl (visit r) (((fun u => (pass r items u).1)^[n] t), false)).1

variable {r items}

theorem tableAt_succ_zero (t : Table K V) (n : ℕ) :
    tableAt r items t (n + 1) 0 = tableAt r items t n items.length := by
  simp [tableAt, pass, Function.iterate_succ_apply']

theorem foldl_fst (l : List α) (t : Table K V) (b b' : Bool) :
    (l.foldl (visit r) (t, b)).1 = (l.foldl (visit r) (t, b')).1 := by
  induction l generalizing t b b' with
  | nil => rfl
  | cons a l ih =>
    rw [foldl_cons, foldl_cons]
    have hvisit : (visit r (t, b') a).1 = (visit r (t, b) a).1 := by
      unfold visit
      by_cases hmem : r.key a ∈ t
      · rw [if_pos hmem, if_pos hmem]
      · rw [if_neg hmem, if_neg hmem]
        cases r.fires t a <;> rfl
    rw [show visit r (t, b') a = ((visit r (t, b) a).1, (visit r (t, b') a).2) from
      Prod.ext hvisit rfl]
    exact ih _ _ _

variable {i : ℕ} {i i' n n' : ℕ} {v : V}

theorem tableAt_succ (t : Table K V) (n : ℕ) (ha : items[i]? = some a) :
    tableAt r items t n (i + 1) = (visit r (tableAt r items t n i, false) a).1 := by
  obtain ⟨hi, rfl⟩ := List.getElem?_eq_some_iff.1 ha
  have htake : items.take (i + 1) = items.take i ++ [items[i]] := by simp
  unfold tableAt
  rw [htake, foldl_append]
  generalize (items.take i).foldl (visit r) _ = s
  exact foldl_fst [items[i]] s.1 s.2 false

theorem tableAt_succ_none (t : Table K V) (n : ℕ) (hi : items.length ≤ i) :
    tableAt r items t n (i + 1) = tableAt r items t n i := by
  unfold tableAt
  rw [take_of_length_le hi, take_of_length_le (by omega)]

theorem extends_tableAt_zero (t : Table K V) (n i : ℕ) :
    Extends (tableAt r items t n i) (tableAt r items t n 0) := by
  exact extends_foldl _ _

theorem extends_tableAt_succ (t : Table K V) (n i : ℕ) :
    Extends (tableAt r items t n (i + 1)) (tableAt r items t n i) := by
  cases ha : items[i]? with
  | none =>
    rw [tableAt_succ_none t n (getElem?_eq_none_iff.1 ha)]
    exact fun _ _ hv => hv
  | some a =>
    rw [tableAt_succ t n ha]
    exact extends_visit _ a

/-- A position in the passes comes before another. -/
def Earlier (n i n' i' : ℕ) : Prop :=
  n < n' ∨ n = n' ∧ i < i'

theorem Extends.trans {t₁ t₂ t₃ : Table K V} (h : Extends t₁ t₂) (h' : Extends t₂ t₃) :
    Extends t₁ t₃ :=
  fun k v hv => h k v (h' k v hv)

theorem extends_tableAt_of_le (t : Table K V) (n : ℕ) (h : i ≤ i') :
    Extends (tableAt r items t n i') (tableAt r items t n i) := by
  induction i', h using Nat.le_induction with
  | base => exact fun _ _ hv => hv
  | succ i' _ ih => exact (extends_tableAt_succ t n i').trans ih

theorem tableAt_of_length_le (t : Table K V) (n : ℕ) (hi : items.length ≤ i) :
    tableAt r items t n i = tableAt r items t n items.length := by
  unfold tableAt
  rw [take_of_length_le hi, take_length]

theorem extends_tableAt_pass (t : Table K V) (n i : ℕ) :
    Extends (tableAt r items t (n + 1) 0) (tableAt r items t n i) := by
  rw [tableAt_succ_zero]
  rcases Nat.le_total i items.length with hi | hi
  · exact extends_tableAt_of_le t n hi
  · rw [tableAt_of_length_le t n hi]
    exact fun _ _ hv => hv

theorem extends_tableAt_zero_of_le (t : Table K V) (h : n ≤ n') :
    Extends (tableAt r items t n' 0) (tableAt r items t n 0) := by
  induction n', h using Nat.le_induction with
  | base => exact fun _ _ hv => hv
  | succ n' _ ih => exact (extends_tableAt_pass t n' 0).trans ih

theorem extends_tableAt (t : Table K V) (h : Earlier n i n' i') :
    Extends (tableAt r items t n' i') (tableAt r items t n i) := by
  rcases h with hlt | ⟨rfl, hi⟩
  · exact (extends_tableAt_zero t n' i').trans
      ((extends_tableAt_zero_of_le t hlt).trans (extends_tableAt_pass t n i))
  · exact extends_tableAt_of_le t n hi.le

theorem mem_of_extends_visit (h : (r.fires t a).isSome) : r.key a ∈ (visit r (t, false) a).1 := by
  rcases visit_cases (r := r) (t, false) a with ⟨hskip, hmem | hnone⟩ | ⟨v, -, -, henter⟩
  · rw [hskip]
    exact hmem
  · rw [hnone] at h
    exact Bool.noConfusion h
  · rw [henter]
    exact (AList.mem_insert _).2 (.inl rfl)

theorem tableAt_succ_cases (t : Table K V) (n i : ℕ)
    (h : (tableAt r items t n (i + 1)).lookup k = some v) :
    (tableAt r items t n i).lookup k = some v ∨ ∃ a, items[i]? = some a ∧ r.key a = k ∧
      k ∉ tableAt r items t n i ∧ r.fires (tableAt r items t n i) a = some v := by
  cases ha : items[i]? with
  | none =>
    rw [tableAt_succ_none t n (getElem?_eq_none_iff.1 ha)] at h
    exact .inl h
  | some a =>
    rw [tableAt_succ t n ha] at h
    rcases visit_cases (r := r) (tableAt r items t n i, false) a with
      ⟨hskip, -⟩ | ⟨w, hmem, hfires, henter⟩
    · rw [hskip] at h
      exact .inl h
    · rw [henter, lookup_insert_eq] at h
      split_ifs at h with hk
      · subst hk
        exact .inr ⟨a, rfl, rfl, hmem, hfires.trans h⟩
      · exact .inl h

/-- **Where an entry comes from.** An entry at a moment was there at the start, or the rule of an
item made it at an earlier position, from the table at that position. -/
theorem tableAt_origin (t : Table K V) (n i : ℕ) (h : (tableAt r items t n i).lookup k = some v) :
    t.lookup k = some v ∨ ∃ n' j a, Earlier n' j n i ∧ items[j]? = some a ∧ r.key a = k ∧
      k ∉ tableAt r items t n' j ∧ r.fires (tableAt r items t n' j) a = some v := by
  -- along the passes, and within a pass along the items
  induction n generalizing i with
  | zero =>
    induction i with
    | zero => exact .inl h
    | succ i ih =>
      rcases tableAt_succ_cases t 0 i h with hold | ⟨a, ha⟩
      · rcases ih hold with hstart | ⟨n', j, a, hj, ha⟩
        · exact .inl hstart
        · exact .inr ⟨n', j, a, by unfold Earlier at hj ⊢; omega, ha⟩
      · exact .inr ⟨0, i, a, by unfold Earlier; omega, ha⟩
  | succ n ihn =>
    induction i with
    | zero =>
      rw [tableAt_succ_zero] at h
      rcases ihn items.length h with hstart | ⟨n', j, a, hj, ha⟩
      · exact .inl hstart
      · exact .inr ⟨n', j, a, by unfold Earlier at hj ⊢; omega, ha⟩
    | succ i ih =>
      rcases tableAt_succ_cases t (n + 1) i h with hold | ⟨a, ha⟩
      · rcases ih hold with hstart | ⟨n', j, a, hj, ha⟩
        · exact .inl hstart
        · exact .inr ⟨n', j, a, by unfold Earlier at hj ⊢; omega, ha⟩
      · exact .inr ⟨n + 1, i, a, by unfold Earlier; omega, ha⟩

/-- **Which keys have an entry.** -/
theorem mem_tableAt (t : Table K V) (n i : ℕ) (k : K) :
    k ∈ tableAt r items t n i ↔ k ∈ t ∨ ∃ n' j a, Earlier n' j n i ∧ items[j]? = some a ∧
      r.key a = k ∧ (r.fires (tableAt r items t n' j) a).isSome := by
  constructor
  · intro h
    obtain ⟨v, hv⟩ := isSome_iff_exists.1 (AList.lookup_isSome.2 h)
    rcases tableAt_origin t n i hv with hstart | ⟨n', j, a, hj, ha, hk, -, hfires⟩
    · exact .inl (AList.lookup_isSome.1 (isSome_iff_exists.2 ⟨v, hstart⟩))
    · exact .inr ⟨n', j, a, hj, ha, hk, isSome_iff_exists.2 ⟨v, hfires⟩⟩
  · rintro (h | ⟨n', j, a, hj, ha, rfl, hfires⟩)
    · exact ((extends_tableAt_zero t n i).trans (extends_tableAt_zero_of_le t n.zero_le)).mem h
    · have hmem : r.key a ∈ tableAt r items t n' (j + 1) := by
        rw [tableAt_succ t n' ha]
        exact mem_of_extends_visit hfires
      have hlater : Extends (tableAt r items t n i) (tableAt r items t n' (j + 1)) := by
        rcases hj with hlt | ⟨rfl, hji⟩
        · exact extends_tableAt t (.inl hlt)
        · exact extends_tableAt_of_le t n' hji
      exact hlater.mem hmem

variable (r items) in
/-- **The end of the passes** is the table after some number of them. -/
theorem loop_eq_tableAt (t : Table K V) : ∃ n, loop r items t = tableAt r items t n 0 ∧
      ∀ a ∈ items, r.key a ∈ loop r items t ∨ r.fires (loop r items t) a = none := by
  induction t using loop.induct r items with
  | case1 t s hflag ih =>
    rw [loop, if_pos hflag]
    obtain ⟨n, heq, hclosed⟩ := ih
    refine ⟨n + 1, ?_, hclosed⟩
    rw [heq]
    simp only [tableAt, take_zero, foldl_nil, Function.iterate_succ_apply]
    rfl
  | case2 t s hflag =>
    have hpass := foldl_of_flag (r := r) (l := items) (s := (t, false)) (Bool.eq_false_of_not_eq_true hflag)
    have hs : s = (t, false) := hpass.1
    rw [loop, if_neg hflag]
    refine ⟨0, ?_, fun a ha => ?_⟩
    · show s.1 = _
      rw [hs]
      rfl
    · show r.key a ∈ s.1 ∨ r.fires s.1 a = none
      rw [hs]
      exact hpass.2 a ha

theorem tableAt_of_closed (h : ∀ a ∈ items, r.key a ∈ t ∨ r.fires t a = none)
    (n i : ℕ) : tableAt r items t n i = t := by
  have hvisit : ∀ a ∈ items, visit r (t, false) a = (t, false) := by
    intro a ha
    rcases visit_cases (r := r) (t, false) a with ⟨hskip, -⟩ | ⟨v, hmem, hfires, -⟩
    · exact hskip
    · rcases h a ha with hin | hnone
      · exact absurd hin hmem
      · rw [hnone] at hfires
        cases hfires
  have hrow : ∀ n, tableAt r items t n 0 = t → ∀ i, tableAt r items t n i = t := by
    intro n hn i
    induction i with
    | zero => exact hn
    | succ i ih =>
      cases ha : items[i]? with
      | none => rw [tableAt_succ_none t n (getElem?_eq_none_iff.1 ha), ih]
      | some a => rw [tableAt_succ t n ha, ih, hvisit a (mem_of_getElem? ha)]
  have hpass : ∀ n, tableAt r items t n 0 = t := by
    intro n
    induction n with
    | zero => rfl
    | succ n ih => rw [tableAt_succ_zero, hrow n ih]
  exact hrow n (hpass n) i

theorem tableAt_add (t : Table K V) (m n i : ℕ) :
    tableAt r items t (m + n) i = tableAt r items (tableAt r items t m 0) n i := by
  simp [tableAt, add_comm m n, Function.iterate_add_apply]

theorem extends_loop (t : Table K V) (n i : ℕ) :
    Extends (loop r items t) (tableAt r items t n i) := by
  obtain ⟨m, heq, hclosed⟩ := loop_eq_tableAt r items t
  rcases Nat.lt_or_ge n m with hlt | hge
  · rw [heq]
    exact extends_tableAt t (.inl hlt)
  · obtain ⟨d, rfl⟩ := Nat.exists_eq_add_of_le hge
    rw [tableAt_add, ← heq, tableAt_of_closed hclosed]
    exact fun _ _ hv => hv

theorem mem_loop (t : Table K V) (k : K) :
    k ∈ loop r items t ↔ ∃ n i, k ∈ tableAt r items t n i := by
  constructor
  · intro h
    obtain ⟨n, heq, -⟩ := loop_eq_tableAt r items t
    exact ⟨n, 0, heq ▸ h⟩
  · rintro ⟨n, i, h⟩
    exact (extends_loop t n i).mem h

end Passes
