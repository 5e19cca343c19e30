import Mathlib

/-!
# Hash tables

A table finds an entry by the hash of its key and then by the equality of the keys. Which entries
it finds among keys that are equal but have different hashes is not specified.

* `Search` — what a search may find.
* `get`, `insert`, `remove`, `insertAll` — the operations on the entries.
* `Exact` — keys on which the equality is the identity.
* `Valid`, `get_eq_some_iff`, `mem_insert`, `mem_remove` — over such keys a table has one entry
  for each key.
* `Denotes` — the function that a table stands for, and the operations as those of functions.
-/

namespace HashTable

open List Function

variable {K V W : Type*}

/-- Which entries a search takes for a key: only equal ones, and all of these that have the hash
of the key. -/
structure Search (eq : K → K → Bool) (hash : K → W) where
  finds : K → K → Bool
  sound : ∀ e k, finds e k = true → eq k e = true
  complete : ∀ e k, eq k e = true → hash k = hash e → finds e k = true

section
variable {eq : K → K → Bool} {hash : K → W} (f : Search eq hash)

def get (m : List (K × V)) (k : K) : Option V :=
  (m.find? fun e => f.finds e.1 k).map (·.2)

def contains (m : List (K × V)) (k : K) : Bool := m.any fun e => f.finds e.1 k

/-- A new value for the entry that is found, which keeps its key, or a new entry. -/
def insert (k : K) (v : V) : List (K × V) → List (K × V)
  | [] => [(k, v)]
  | e :: m => if f.finds e.1 k then (e.1, v) :: m else e :: insert k v m

def remove (m : List (K × V)) (k : K) : List (K × V) := m.eraseP fun e => f.finds e.1 k

/-- Every entry in turn, each with a search of its own. -/
def insertAll (f : K → Search eq hash) (m entries : List (K × V)) : List (K × V) :=
  entries.foldl (fun m e => insert (f e.1) e.1 e.2 m) m

end

/-! ## Keys on which the equality is the identity -/

def Exact (eq : K → K → Bool) (S : Set K) : Prop :=
  ∀ a ∈ S, ∀ b ∈ S, eq a b = true ↔ a = b

/-- One entry for each key, and all keys from `S`. -/
structure Valid (S : Set K) (m : List (K × V)) : Prop where
  nodup : (m.map Prod.fst).Nodup
  keys : ∀ e ∈ m, e.1 ∈ S

theorem valid_nil {S : Set K} : Valid S ([] : List (K × V)) where
  nodup := nodup_nil
  keys := by simp

section
variable {eq : K → K → Bool} {hash : K → W} {f : Search eq hash} {S : Set K} {m : List (K × V)}
  {a k : K} {v : V} {e : K × V}

theorem finds_iff (hS : Exact eq S) (ha : a ∈ S) (hk : k ∈ S) : f.finds a k = true ↔ a = k := by
  constructor
  · intro h
    exact ((hS k hk a ha).1 (f.sound a k h)).symm
  · rintro rfl
    exact f.complete a a ((hS a ha a ha).2 rfl) rfl

theorem Valid.tail (h : Valid S (e :: m)) : Valid S m where
  nodup := (nodup_cons.1 h.nodup).2
  keys := fun e' he => h.keys e' (mem_cons_of_mem _ he)

theorem Valid.head_ne (h : Valid S (e :: m)) {e' : K × V} (he : e' ∈ m) : e'.1 ≠ e.1 := by
  intro heq
  have hnot := (nodup_cons.1 h.nodup).1
  exact hnot (heq ▸ mem_map_of_mem he)

theorem get_cons : get f (e :: m) k = if f.finds e.1 k then some e.2 else get f m k := by
  unfold get
  rw [find?_cons]
  cases f.finds e.1 k <;> rfl

theorem get_eq_some_iff (hS : Exact eq S) (h : Valid S m) (hk : k ∈ S) :
    get f m k = some v ↔ (k, v) ∈ m := by
  induction m with
  | nil => simp [get]
  | cons e m ih =>
    have hfinds := finds_iff (f := f) hS (h.keys e mem_cons_self) hk
    rw [get_cons]
    by_cases he : e.1 = k
    · rw [if_pos (hfinds.2 he)]
      have hnot : (k, v) ∉ m := fun hmem => h.head_ne hmem he.symm
      subst he
      simp [hnot, Prod.ext_iff, eq_comm]
    · rw [if_neg (mt hfinds.1 he), ih h.tail]
      have hne : (k, v) ≠ e := fun heq => he (congrArg Prod.fst heq).symm
      simp [hne]

theorem contains_iff (hS : Exact eq S) (h : Valid S m) (hk : k ∈ S) :
    contains f m k = true ↔ k ∈ m.map Prod.fst := by
  rw [contains, any_eq_true, mem_map]
  constructor
  · rintro ⟨e, he, hfinds⟩
    exact ⟨e, he, (finds_iff hS (h.keys e he) hk).1 hfinds⟩
  · rintro ⟨e, he, rfl⟩
    exact ⟨e, he, (finds_iff hS (h.keys e he) hk).2 rfl⟩

theorem mem_insert (hS : Exact eq S) (h : Valid S m) (hk : k ∈ S) :
    e ∈ insert f k v m ↔ e = (k, v) ∨ e ∈ m ∧ e.1 ≠ k := by
  induction m with
  | nil => simp [insert]
  | cons e₀ m ih =>
    have hfinds := finds_iff (f := f) hS (h.keys e₀ mem_cons_self) hk
    unfold insert
    by_cases he : e₀.1 = k
    · rw [if_pos (hfinds.2 he)]
      subst he
      constructor
      · intro hmem
        rcases mem_cons.1 hmem with rfl | hmem
        · exact .inl rfl
        · exact .inr ⟨mem_cons_of_mem _ hmem, h.head_ne hmem⟩
      · rintro (rfl | ⟨hmem, hne⟩)
        · exact mem_cons_self
        · rcases mem_cons.1 hmem with rfl | hmem
          · exact absurd rfl hne
          · exact mem_cons_of_mem _ hmem
    · rw [if_neg (mt hfinds.1 he), mem_cons, ih h.tail, mem_cons]
      constructor
      · rintro (rfl | rfl | ⟨hmem, hne⟩)
        · exact .inr ⟨.inl rfl, he⟩
        · exact .inl rfl
        · exact .inr ⟨.inr hmem, hne⟩
      · rintro (rfl | ⟨rfl | hmem, hne⟩)
        · exact .inr (.inl rfl)
        · exact .inl rfl
        · exact .inr (.inr ⟨hmem, hne⟩)

theorem Valid.insert (hS : Exact eq S) (h : Valid S m) (hk : k ∈ S) : Valid S (insert f k v m) where
  nodup := by
    induction m with
    | nil => simp [HashTable.insert]
    | cons e₀ m ih =>
      have hfinds := finds_iff (f := f) hS (h.keys e₀ mem_cons_self) hk
      unfold HashTable.insert
      by_cases he : e₀.1 = k
      · rw [if_pos (hfinds.2 he)]
        exact h.nodup
      · rw [if_neg (mt hfinds.1 he), map_cons, nodup_cons]
        refine ⟨fun hmem => ?_, ih h.tail⟩
        obtain ⟨e, hmem, heq⟩ := mem_map.1 hmem
        rcases (mem_insert hS h.tail hk).1 hmem with rfl | ⟨hmem, -⟩
        · exact he heq.symm
        · exact h.head_ne hmem heq
  keys := by
    intro e he
    rcases (mem_insert hS h hk).1 he with rfl | ⟨he, -⟩
    · exact hk
    · exact h.keys e he

theorem Valid.remove (h : Valid S m) : Valid S (remove f m k) where
  nodup := h.nodup.sublist (eraseP_sublist.map _)
  keys := fun e he => h.keys e (mem_of_mem_eraseP he)

theorem Valid.insertAll {f : K → Search eq hash} (hS : Exact eq S) {entries : List (K × V)}
    (h : Valid S m) (hentries : ∀ e ∈ entries, e.1 ∈ S) : Valid S (insertAll f m entries) := by
  induction entries generalizing m with
  | nil => exact h
  | cons e entries ih =>
    have hinsert := h.insert (f := f e.1) (v := e.2) hS (hentries e mem_cons_self)
    exact ih hinsert fun e' he => hentries e' (mem_cons_of_mem _ he)

theorem get_insert (hS : Exact eq S) (h : Valid S m) (hk : k ∈ S) (g : Search eq hash) :
    get g (insert f k v m) k = some v := by
  rw [get_eq_some_iff hS (h.insert hS hk) hk, mem_insert hS h hk]
  exact .inl rfl

theorem get_insert_of_ne (hS : Exact eq S) (h : Valid S m) (hk : k ∈ S) (ha : a ∈ S)
    (hne : a ≠ k) (g : Search eq hash) : get g (insert f k v m) a = get g m a := by
  ext w
  rw [get_eq_some_iff hS (h.insert hS hk) ha, get_eq_some_iff hS h ha, mem_insert hS h hk]
  simp [hne]

/-- The entries are those of the function. -/
structure Denotes (S : Set K) (m : List (K × V)) (φ : K → Option V) : Prop extends Valid S m where
  mem : ∀ k v, (k, v) ∈ m ↔ φ k = some v

theorem mem_remove (hS : Exact eq S) (h : Valid S m) (hk : k ∈ S) :
    e ∈ remove f m k ↔ e ∈ m ∧ e.1 ≠ k := by
  induction m with
  | nil => simp [remove]
  | cons e₀ m ih =>
    have hfinds := finds_iff (f := f) hS (h.keys e₀ mem_cons_self) hk
    unfold remove at ih ⊢
    by_cases he : e₀.1 = k
    · rw [eraseP_cons, cond_eq_ite, if_pos (hfinds.2 he), mem_cons, or_and_right]
      subst he
      rw [or_iff_right fun hmem => hmem.2 (congrArg _ hmem.1), iff_self_and]
      exact h.head_ne
    · rw [eraseP_cons, cond_eq_ite, if_neg (mt hfinds.1 he), mem_cons, ih h.tail, mem_cons,
        or_and_right]
      exact or_congr_left (iff_self_and.2 fun heq => heq ▸ he)

variable {φ ψ : K → Option V}

theorem denotes_nil : Denotes S ([] : List (K × V)) fun _ => none := ⟨valid_nil, by simp⟩

theorem Denotes.get (h : Denotes S m φ) (hS : Exact eq S) (hk : k ∈ S) : get f m k = φ k := by
  ext v
  rw [get_eq_some_iff hS h.toValid hk, h.mem]

theorem Denotes.mem_keys (h : Denotes S m φ) : k ∈ m.map Prod.fst ↔ φ k ≠ none := by
  simp [Option.ne_none_iff_exists', ← h.mem]

theorem Denotes.length (h : Denotes S m φ) : m.length = {k | φ k ≠ none}.ncard := by
  classical
  have hset : {k | φ k ≠ none} = ((m.map Prod.fst).toFinset : Set K) := by
    ext k
    simp [h.mem_keys]
  rw [hset, Set.ncard_coe_finset, toFinset_card_of_nodup h.nodup, length_map]

theorem Denotes.perm {l : List (K × V)} (h : Denotes S m φ) (hl : l.Perm m) : Denotes S l φ where
  nodup := (hl.map Prod.fst).nodup_iff.2 h.nodup
  keys e he := h.keys e (hl.mem_iff.1 he)
  mem k v := hl.mem_iff.trans (h.mem k v)

variable [DecidableEq K]

theorem Denotes.insert (h : Denotes S m φ) (hS : Exact eq S) (hk : k ∈ S) :
    Denotes S (insert f k v m) (update φ k (some v)) where
  toValid := h.toValid.insert hS hk
  mem a w := by
    rw [mem_insert hS h.toValid hk, h.mem]
    by_cases ha : a = k
    · simp [ha, eq_comm]
    · simp [ha]

theorem Denotes.tail (h : Denotes S (e :: m) φ) : Denotes S m (update φ e.1 none) where
  toValid := h.toValid.tail
  mem a w := by
    by_cases ha : a = e.1
    · simpa [ha] using fun hmem : (e.1, w) ∈ m => h.head_ne hmem rfl
    · rw [update_of_ne ha, ← h.mem]
      simp [Prod.ext_iff, ha]

theorem Denotes.remove (h : Denotes S m φ) (hS : Exact eq S) (hk : k ∈ S) :
    Denotes S (remove f m k) (update φ k none) where
  toValid := h.toValid.remove
  mem a w := by
    rw [mem_remove hS h.toValid hk, h.mem]
    by_cases ha : a = k <;> simp [ha]

theorem Denotes.insertAll {f : K → Search eq hash} {es : List (K × V)} (h : Denotes S m φ)
    (hS : Exact eq S) (hes : Denotes S es ψ) :
    Denotes S (insertAll f m es) fun k => (ψ k).or (φ k) := by
  induction es generalizing m φ ψ with
  | nil =>
    have hnone : ∀ k, ψ k = none := fun k =>
      Option.eq_none_iff_forall_ne_some.2 fun v hv => not_mem_nil ((hes.mem k v).2 hv)
    simpa [hnone, HashTable.insertAll] using h
  | cons e es ih =>
    have hnext := ih (h.insert (f := f e.1) (v := e.2) hS (hes.keys e mem_cons_self)) hes.tail
    have hsame : (fun k => (update ψ e.1 none k).or (update φ e.1 (some e.2) k)) =
        fun k => (ψ k).or (φ k) := by
      funext k
      by_cases hk : k = e.1
      · subst hk
        rw [update_self, update_self, (hes.mem _ _).1 mem_cons_self]
        rfl
      · rw [update_of_ne hk, update_of_ne hk]
    exact hsame ▸ hnext

end

end HashTable
