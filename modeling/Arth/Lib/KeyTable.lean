import Mathlib

/-!
# Tables with one entry for each key

What the association lists of the library lack for a map that a program updates in place.

* `tabulate` — the table of a function on a list of keys.
* `update`, `modifyAt` — every entry, or the entry of one key, replaced by a function of itself.
* `enter` — an entry for each item of a list that has one, the last of a key winning.
* `merge` — the entries of two tables, with a rule for the keys that both have.
* `lookup_insert_eq`, `lookup_erase_eq` and the lemmas beside the definitions say what one key
  finds after each.
-/

namespace KeyTable

open List

variable {K V : Type*} [DecidableEq K]

/-- A finite map. -/
abbrev Table (K V : Type*) := AList fun _ : K => V

theorem lookup_insert_eq (t : Table K V) (k k' : K) (v : V) :
    (t.insert k v).lookup k' = if k' = k then some v else t.lookup k' := by
  split_ifs with heq
  · subst heq
    exact AList.lookup_insert t
  · exact AList.lookup_insert_ne heq

theorem lookup_erase_eq (t : Table K V) (k k' : K) :
    (t.erase k).lookup k' = if k' = k then none else t.lookup k' := by
  split_ifs with heq
  · subst heq
    exact AList.lookup_erase k' t
  · exact AList.lookup_erase_ne heq

theorem lookup_foldl_erase {L : Type*} (g : L → K) (l : List L) (t : Table K V) (k : K) :
    (l.foldl (fun t x => t.erase (g x)) t).lookup k = if k ∈ l.map g then none else t.lookup k := by
  induction l generalizing t with
  | nil => rfl
  | cons x l ih =>
    rw [foldl_cons, ih, lookup_erase_eq]
    by_cases hk : k = g x <;> by_cases hl : k ∈ l.map g <;> simp [hk, hl]

theorem mem_entries_iff (t : Table K V) (k : K) (v : V) :
    (⟨k, v⟩ : Sigma fun _ : K => V) ∈ t.entries ↔ t.lookup k = some v :=
  AList.mem_lookup_iff.symm

theorem forall_entries (t : Table K V) (P : K → V → Prop) :
    (∀ e ∈ t.entries, P e.1 e.2) ↔ ∀ k v, t.lookup k = some v → P k v := by
  constructor
  · intro h k v hv
    exact h ⟨k, v⟩ ((mem_entries_iff t k v).2 hv)
  · rintro h ⟨k, v⟩ he
    exact h k v ((mem_entries_iff t k v).1 he)

/-- The table of a function on a list of keys. -/
def tabulate (l : List K) (f : K → V) : Table K V where
  entries := l.dedup.map fun k => ⟨k, f k⟩
  nodupKeys := by
    rw [List.NodupKeys, List.keys, List.map_map]
    simpa [Function.comp_def] using l.nodup_dedup

theorem lookup_tabulate (l : List K) (f : K → V) (k : K) :
    (tabulate l f).lookup k = if k ∈ l then some (f k) else none := by
  split_ifs with hk
  · refine (mem_entries_iff _ _ _).1 (mem_map.2 ⟨k, mem_dedup.2 hk, rfl⟩)
  · refine AList.lookup_eq_none.2 fun hmem => hk ?_
    obtain ⟨e, he, heq⟩ := mem_map.1 hmem
    obtain ⟨k', hk', rfl⟩ := mem_map.1 he
    exact heq ▸ mem_dedup.1 hk'

/-- Every entry replaced by a function of it. -/
def update (f : K → V → V) (t : Table K V) : Table K V where
  entries := t.entries.map fun e => ⟨e.1, f e.1 e.2⟩
  nodupKeys := t.nodupKeys.map₂ f

theorem lookup_update (f : K → V → V) (t : Table K V) (k : K) :
    (update f t).lookup k = (t.lookup k).map (f k) :=
  dlookup_map₂ k

/-- The entry of one key replaced by a function of it. -/
def modifyAt (k : K) (f : V → V) (t : Table K V) : Table K V :=
  update (fun k' v => if k' = k then f v else v) t

theorem lookup_modifyAt (k k' : K) (f : V → V) (t : Table K V) :
    (modifyAt k f t).lookup k' = if k' = k then (t.lookup k').map f else t.lookup k' := by
  rw [modifyAt, lookup_update]
  split
  · rfl
  · exact Option.map_id'

/-- The entries of both tables; `f` joins what both have under one key. -/
def merge (f : V → V → V) (s t : Table K V) : Table K V :=
  update (fun k v => ((t.lookup k).map (f v)).getD v) s ∪ t

theorem lookup_merge (f : V → V → V) (s t : Table K V) (k : K) : (merge f s t).lookup k =
      match s.lookup k with
      | some v => some (((t.lookup k).map (f v)).getD v)
      | none => t.lookup k := by
  cases hs : s.lookup k with
  | none =>
    have hmem : k ∉ update (fun k v => ((t.lookup k).map (f v)).getD v) s := by
      rw [← AList.lookup_eq_none, lookup_update, hs]
      rfl
    exact AList.lookup_union_right hmem
  | some v =>
    have hlook : (update (fun k v => ((t.lookup k).map (f v)).getD v) s).lookup k =
        some (((t.lookup k).map (f v)).getD v) := by
      rw [lookup_update, hs]
      rfl
    have hmem : k ∈ update (fun k v => ((t.lookup k).map (f v)).getD v) s := by
      rw [← AList.lookup_isSome, hlook]
      rfl
    exact (AList.lookup_union_left hmem).trans hlook

/-- One item of a list from which a table is filled. -/
def enter {α : Type*} (f : α → Option (K × V)) (t : Table K V) (a : α) : Table K V :=
  match f a with
  | some (k, v) => t.insert k v
  | none => t

section Enter

variable {α : Type*} {f : α → Option (K × V)}

theorem lookup_enter (t : Table K V) (a : α) (k : K) : (enter f t a).lookup k =
      if (f a).map Prod.fst = some k then (f a).map Prod.snd else t.lookup k := by
  unfold enter
  cases f a with
  | none => rfl
  | some p =>
    simp only [Option.map_some, Option.some.injEq, lookup_insert_eq, eq_comm]

variable {l : List α} {k : K} {t : Table K V} {v : V}

theorem lookup_foldl_enter_free
    (h : ∀ a ∈ l, (f a).map Prod.fst ≠ some k) : (l.foldl (enter f) t).lookup k = t.lookup k := by
  induction l generalizing t with
  | nil => rfl
  | cons a l ih =>
    rw [foldl_cons, ih fun b hb => h b (mem_cons_of_mem _ hb), lookup_enter,
      if_neg (h a mem_cons_self)]

theorem lookup_foldl_enter (t : Table K V)
    (hl : (l.filterMap fun a => (f a).map Prod.fst).Nodup) {a : α} (ha : a ∈ l)
    (hf : f a = some (k, v)) : (l.foldl (enter f) t).lookup k = some v := by
  induction l generalizing t with
  | nil => cases ha
  | cons b l ih =>
    rw [foldl_cons]
    rw [filterMap_cons] at hl
    rcases mem_cons.1 ha with rfl | ha
    · rw [hf] at hl
      rw [lookup_foldl_enter_free, lookup_enter, hf]
      · exact if_pos rfl
      · intro c hc hck
        exact (nodup_cons.1 hl).1 (mem_filterMap.2 ⟨c, hc, hck⟩)
    · refine ih _ ?_ ha
      split at hl
      · exact hl
      · exact (nodup_cons.1 hl).2

theorem lookup_foldl_enter_origin (h : (l.foldl (enter f) t).lookup k = some v) :
    t.lookup k = some v ∨ ∃ a ∈ l, f a = some (k, v) := by
  induction l generalizing t with
  | nil => exact .inl h
  | cons a l ih =>
    rcases ih h with hold | ⟨b, hb, hf⟩
    · rw [lookup_enter] at hold
      cases hfa : f a with
      | none =>
        rw [hfa] at hold
        exact .inl (by simpa using hold)
      | some p =>
        obtain ⟨k', v'⟩ := p
        rw [hfa] at hold
        by_cases hk : k' = k
        · subst hk
          have hv : v' = v := by simpa using hold
          exact .inr ⟨a, mem_cons_self, hv ▸ hfa⟩
        · exact .inl (by simpa [hk] using hold)
    · exact .inr ⟨b, mem_cons_of_mem _ hb, hf⟩

theorem mem_iff_lookup (t : Table K V) (k : K) : k ∈ t ↔ ∃ v, t.lookup k = some v := by
  rw [← AList.lookup_isSome, Option.isSome_iff_exists]

theorem mem_enter (t : Table K V) (a : α) (k : K) :
    k ∈ enter f t a ↔ k ∈ t ∨ ∃ v, f a = some (k, v) := by
  unfold enter
  cases f a with
  | none => simp
  | some p =>
    obtain ⟨k', v⟩ := p
    simp only [AList.mem_insert, Option.some.injEq, Prod.mk.injEq]
    constructor
    · rintro (rfl | h)
      · exact .inr ⟨v, rfl, rfl⟩
      · exact .inl h
    · rintro (h | ⟨_, rfl, -⟩)
      · exact .inr h
      · exact .inl rfl

theorem mem_foldl_enter (l : List α) (t : Table K V) (k : K) :
    k ∈ l.foldl (enter f) t ↔ k ∈ t ∨ ∃ a ∈ l, ∃ v, f a = some (k, v) := by
  induction l generalizing t with
  | nil => simp
  | cons a l ih =>
    rw [foldl_cons, ih, mem_enter, or_assoc]
    simp

end Enter

end KeyTable
