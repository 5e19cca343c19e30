import Arth.Lib.HashTable
import Arth.Lib.Runs
import Arth.Lower.Optionals

/-!
# Maps keyed by values

* `valuesEqual`, `hash` — the equality of keys and what they write into a hasher.
* `mapPut`, `mapGet`, `mapLen`, `mapMerge` — the maps of the runtime, for any search that the
  hash table may make.
* `Contract` — what a hash table asks of its keys; `Laws` — what a map promises.
* `contract_iff` — the sets of keys over which both hold.
* `maps_shown` — over such keys the maps are functions, whatever the searches and orders.
-/

namespace Arth.ValueMap

open HashTable Runs Function

/-- `values_equal`: values of two kinds are never equal. -/
def valuesEqual : Value → Value → Bool
  | .i64 x, .i64 y => x = y
  | .f64 x, .f64 y => Optionals.F64.eq x y
  | .bool x, .bool y => x = y
  | .str x, .str y => x = y
  | _, _ => false

/-- One write into a hasher. -/
inductive Write where
  | u8 (n : UInt8)
  | i64 (n : Int64)
  | u64 (n : UInt64)
  | str (s : String)
  deriving DecidableEq

/-- What a key feeds to the hasher: a tag for the kind, and the bits of a float. -/
def hash : Value → List Write
  | .i64 n => [.u8 0, .i64 n]
  | .f64 x => [.u8 1, .u64 x.bits]
  | .bool b => [.u8 2, .u8 (if b then 1 else 0)]
  | .str s => [.u8 3, .str s]

abbrev Find := Search valuesEqual hash

theorem hash_injective : Function.Injective hash := by
  intro a b h
  cases a <;> cases b <;> simp [hash] at h ⊢
  case f64 x y =>
    cases x
    cases y
    simpa using h
  case bool x y => cases x <;> cases y <;> simp_all
  all_goals exact h

/-! ## Maps -/

abbrev Maps := HandleStore Int64 (List (Value × Value))

/-- The order in which a map lists its entries is not specified. -/
structure Order where
  order : List (Value × Value) → List (Value × Value)
  perm : ∀ l, (order l).Perm l

namespace Maps

def start : Maps := HandleStore.empty 60000

variable (s : Maps)

def mapNew : Maps := s.alloc []

/-- `map_put`; a full map takes no new key. -/
def mapPut (maxLen : Nat) (f : Find) (h : Int64) (k v : Value) : Maps × Bool :=
  match s.cells h with
  | some m =>
    if maxLen ≤ m.length ∧ contains f m k = false then (s, false)
    else (s.insert h (insert f k v m), true)
  | none => (s, false)

def mapGet (f : Find) (h : Int64) (k : Value) : Option Value :=
  (s.cells h).bind fun m => get f m k

def mapLen (h : Int64) : Nat := ((s.cells h).map (·.length)).getD 0

def mapContainsKey (f : Find) (h : Int64) (k : Value) : Bool :=
  (s.cells h).any fun m => contains f m k

def mapRemove (f : Find) (h : Int64) (k : Value) : Maps × Option Value :=
  match s.cells h with
  | some m => (s.insert h (remove f m k), get f m k)
  | none => (s, none)

/-- `map_merge`, which has no limit. -/
def mapMerge (f : Value → Find) (o : Order) (dest src : Int64) : Maps :=
  s.modify dest fun m => insertAll f m (o.order ((s.cells src).getD []))

end Maps

inductive Op where
  | new
  | put (f : Find) (h : Int64) (k v : Value)
  | remove (f : Find) (h : Int64) (k : Value)
  | merge (f : Value → Find) (o : Order) (dest src : Int64)

def next (maxLen : Nat) (s : Maps) : Op → Option Maps
  | .new => some s.mapNew
  | .put f h k v => some (s.mapPut maxLen f h k v).1
  | .remove f h k => some (s.mapRemove f h k).1
  | .merge f o dest src => some (s.mapMerge f o dest src)

/-- The keys of the operation come from `K`. -/
def Op.Over (K : Set Value) : Op → Prop
  | .put _ _ k _ => k ∈ K
  | .remove _ _ k => k ∈ K
  | .new | .merge .. => True

/-- Equality is an equivalence relation, and equal keys have equal hashes. -/
def Contract (K : Set Value) : Prop :=
  ∀ a ∈ K, ∀ b ∈ K, ∀ c ∈ K, valuesEqual a a = true ∧
    (valuesEqual a b = true → valuesEqual b a = true) ∧
    (valuesEqual a b = true → valuesEqual b c = true → valuesEqual a c = true) ∧
    (valuesEqual a b = true → hash a = hash b)

/-- What the maps promise, whatever their searches do: a value that was put is there, no other
key changes, and the length is the number of distinct keys. -/
structure Laws (maxLen : Nat) (K : Set Value) (s : Maps) : Prop where
  get_put : ∀ (f g : Find) h k v, k ∈ K → (s.mapPut maxLen f h k v).2 = true →
    (s.mapPut maxLen f h k v).1.mapGet g h k = some v
  get_put_other : ∀ (f g : Find) h k v h' k', k ∈ K → k' ∈ K →
    h' ≠ h ∨ valuesEqual k' k = false →
    (s.mapPut maxLen f h k v).1.mapGet g h' k' = s.mapGet g h' k'
  len : ∀ h, ∃ keys : List Value, keys.length = s.mapLen h ∧ (∀ k ∈ keys, k ∈ K) ∧
    keys.Pairwise (fun a b => valuesEqual a b = false) ∧
    ∀ (f : Find), ∀ k ∈ K, s.mapContainsKey f h k = true ↔ ∃ k' ∈ keys, valuesEqual k k' = true

/-- **The hashing contract** over the keys `K`, and the laws in every state that operations on
such keys reach. -/
def Hashes (maxLen : Nat) (K : Set Value) : Prop :=
  Contract K ∧ ∀ ops : List Op, (∀ op ∈ ops, op.Over K) →
    Always (next maxLen) (Laws maxLen K) Maps.start ops

def isZero (x : F64) : Bool := x.bits &&& 0x7FFFFFFFFFFFFFFF = 0

/-- No key is NaN, and only one of the two zeros is a key. -/
def Lawful (K : Set Value) : Prop :=
  (∀ x, .f64 x ∈ K → Optionals.F64.isNaN x = false) ∧
    ∀ x y, .f64 x ∈ K → .f64 y ∈ K → isZero x = true → isZero y = true → x = y

theorem or_and_eq_zero (a b c : UInt64) : (a ||| b) &&& c = 0 ↔ a &&& c = 0 ∧ b &&& c = 0 := by
  rw [← UInt64.or_eq_zero_iff]
  have hdistrib : (a ||| b) &&& c = a &&& c ||| b &&& c := by
    rw [← UInt64.toBitVec_inj]
    simp [BitVec.and_comm, BitVec.and_or_distrib_left]
  rw [hdistrib]

theorem eq_iff (x y : F64) : Optionals.F64.eq x y = true ↔
    Optionals.F64.isNaN x = false ∧ Optionals.F64.isNaN y = false ∧
      (x = y ∨ isZero x = true ∧ isZero y = true) := by
  have hbits : x.bits = y.bits ↔ x = y := by
    cases x
    cases y
    simp
  simp [Optionals.F64.eq, isZero, hbits, or_and_eq_zero, and_assoc]

theorem exact_iff_lawful (K : Set Value) : Exact valuesEqual K ↔ Lawful K := by
  constructor
  · intro h
    refine ⟨fun x hx => ?_, fun x y hx hy hzx hzy => ?_⟩
    · have hrefl := (h _ hx _ hx).2 rfl
      exact ((eq_iff x x).1 hrefl).1
    · have hnan : ∀ z, .f64 z ∈ K → Optionals.F64.isNaN z = false := fun z hz =>
        ((eq_iff z z).1 ((h _ hz _ hz).2 rfl)).1
      have heq := (h _ hx _ hy).1 ((eq_iff x y).2 ⟨hnan x hx, hnan y hy, .inr ⟨hzx, hzy⟩⟩)
      exact Value.f64.inj heq
  · rintro ⟨hnan, hzero⟩ a ha b hb
    cases a <;> cases b <;> simp [valuesEqual]
    case f64 x y =>
      rw [eq_iff]
      constructor
      · rintro ⟨-, -, rfl | ⟨hzx, hzy⟩⟩
        · rfl
        · exact hzero x y ha hb hzx hzy
      · rintro rfl
        exact ⟨hnan x ha, hnan x ha, .inl rfl⟩

theorem contract_iff_exact (K : Set Value) : Contract K ↔ Exact valuesEqual K := by
  constructor
  · intro h a ha b hb
    constructor
    · intro heq
      exact hash_injective ((h a ha b hb a ha).2.2.2 heq)
    · rintro rfl
      exact (h a ha a ha a ha).1
  · intro h a ha b hb c hc
    rw [h a ha a ha, h a ha b hb, h b hb a ha, h b hb c hc, h a ha c hc]
    exact ⟨rfl, Eq.symm, Eq.trans, congrArg hash⟩

/-! ## The laws -/

namespace Maps

/-- Every map is a table of the keys. -/
def Over (K : Set Value) (s : Maps) : Prop := ∀ h m, s.cells h = some m → Valid K m

section
variable {K : Set Value} {s : Maps} {maxLen : Nat}

theorem over_start : Over K start := by
  intro h m hm
  cases hm

theorem Over.insert {h : Int64} {m : List (Value × Value)} (hs : Over K s) (hm : Valid K m) :
    Over K (s.insert h m) := by
  intro h' m' hcell
  by_cases hh : h' = h
  · simp only [HandleStore.insert, if_pos hh] at hcell
    cases hcell
    exact hm
  · simp only [HandleStore.insert, if_neg hh] at hcell
    exact hs h' m' hcell

theorem Over.next {op : Op} {s' : Maps} (hK : Exact valuesEqual K) (hs : Over K s)
    (hop : op.Over K) (hstep : ValueMap.next maxLen s op = some s') : Over K s' := by
  cases op with
  | new =>
    cases hstep
    exact hs.insert valid_nil
  | put f h k v =>
    cases hstep
    unfold mapPut
    split
    · rename_i m hm
      split
      · exact hs
      · exact hs.insert ((hs h m hm).insert hK hop)
    · exact hs
  | remove f h k =>
    cases hstep
    unfold mapRemove
    split
    · rename_i m hm
      exact hs.insert (hs h m hm).remove
    · exact hs
  | merge f o dest src =>
    cases hstep
    unfold mapMerge HandleStore.modify
    split
    · rename_i m hm
      refine hs.insert ((hs dest m hm).insertAll hK fun e he => ?_)
      rw [(o.perm _).mem_iff] at he
      cases hsrc : s.cells src with
      | none => simp [hsrc] at he
      | some entries =>
        rw [hsrc] at he
        exact (hs src entries hsrc).keys e he
    · exact hs

theorem Over.laws (hK : Exact valuesEqual K) (hs : Over K s) : Laws maxLen K s where
  get_put := by
    intro f g h k v hk hput
    unfold mapPut at hput ⊢
    cases hm : s.cells h with
    | none => simp [hm] at hput
    | some m =>
      simp only [hm] at hput ⊢
      split at hput
      · cases hput
      · rename_i hroom
        rw [if_neg hroom]
        simpa [mapGet, HandleStore.insert] using get_insert hK (hs h m hm) hk g
  get_put_other := by
    intro f g h k v h' k' hk hk' hother
    unfold mapPut
    cases hm : s.cells h with
    | none => rfl
    | some m =>
      simp only
      split
      · rfl
      · by_cases hh : h' = h
        · subst hh
          have hne : k' ≠ k := by
            intro heq
            have hequal := (hK k' hk' k hk).2 heq
            rcases hother with hother | hother
            · exact hother rfl
            · rw [hequal] at hother
              cases hother
          simpa [mapGet, HandleStore.insert, hm] using get_insert_of_ne hK (hs h' m hm) hk hk' hne g
        · simp [mapGet, HandleStore.insert, hh]
  len := by
    intro h
    cases hm : s.cells h with
    | none =>
      exact ⟨[], by simp [mapLen, hm], by simp, List.Pairwise.nil, by simp [mapContainsKey, hm]⟩
    | some m =>
      have hvalid := hs h m hm
      have hkeys : ∀ k ∈ m.map Prod.fst, k ∈ K := by
        intro k hk
        obtain ⟨e, he, rfl⟩ := List.mem_map.1 hk
        exact hvalid.keys e he
      refine ⟨m.map Prod.fst, by simp [mapLen, hm], hkeys, ?_, fun f k hk => ?_⟩
      · refine hvalid.nodup.imp_of_mem fun {a b} ha hb hne => ?_
        rw [← Bool.not_eq_true, hK a (hkeys a ha) b (hkeys b hb)]
        exact hne
      · have hcontains : s.mapContainsKey f h k = contains f m k := by simp [mapContainsKey, hm]
        rw [hcontains, contains_iff hK hvalid hk]
        constructor
        · intro hmem
          exact ⟨k, hmem, (hK k hk k hk).2 rfl⟩
        · rintro ⟨k', hmem, hequal⟩
          rwa [(hK k hk k' (hkeys k' hmem)).1 hequal]

end

end Maps

/-- **Which keys a map may have.** The contract and the laws hold over a set of keys just when
none of them is NaN and they are not both zeros. -/
theorem hashes_iff (maxLen : Nat) (K : Set Value) : Hashes maxLen K ↔ Lawful K := by
  rw [← exact_iff_lawful]
  constructor
  · intro h
    exact (contract_iff_exact K).1 h.1
  · intro hK
    refine ⟨(contract_iff_exact K).2 hK, fun ops hops => ?_⟩
    have hover : Always (next maxLen) (Maps.Over K) Maps.start ops := by
      refine always_of_along (c := fun _ op => op.Over K)
        (fun s op s' hs hop hstep => hs.next hK hop hstep) Maps.over_start ?_
      exact along_of_forall hops _
    exact hover.mono fun s hs => hs.laws hK

/-- The maps as functions from keys to values. -/
abbrev Functions := HandleStore Int64 (Value → Option Value)

open Classical in
/-- What an operation does to the functions: a full one takes no new key, and a merge prefers the
values of the source. -/
noncomputable def functionsNext (maxLen : Nat) (t : Functions) : Op → Functions
  | .new => t.alloc fun _ => none
  | .put _ h k v => t.modify h fun φ =>
    if maxLen ≤ {k | φ k ≠ none}.ncard ∧ φ k = none then φ else update φ k (some v)
  | .remove _ h k => t.modify h fun φ => update φ k none
  | .merge _ _ dest src => t.modify dest fun φ k => (((t.cells src).getD fun _ => none) k).or (φ k)

/-- The maps show the functions, to every search. -/
structure Maps.Shows (K : Set Value) (s : Maps) (t : Functions) : Prop where
  get : ∀ (g : Find) h, ∀ k ∈ K, s.mapGet g h k = (t.cells h).bind (· k)
  contains : ∀ (g : Find) h, ∀ k ∈ K, s.mapContainsKey g h k = ((t.cells h).bind (· k)).isSome
  len : ∀ h, s.mapLen h = ((t.cells h).map fun φ => {k | φ k ≠ none}.ncard).getD 0

/-- Handle by handle, a table for a function. -/
structure Maps.Implements (K : Set Value) (s : Maps) (t : Functions) : Prop where
  next : s.next = t.next
  cells : ∀ h, s.cells h = none ∧ t.cells h = none ∨
    ∃ m φ, s.cells h = some m ∧ t.cells h = some φ ∧ Denotes K m φ

namespace Maps

variable {K : Set Value} {s s' : Maps} {t : Functions} {maxLen : Nat} {op : Op}

theorem Implements.insert (hi : Implements K s t) {h : Int64} {m : List (Value × Value)}
    {φ : Value → Option Value} (hm : Denotes K m φ) : Implements K (s.insert h m) (t.insert h φ) where
  next := hi.next
  cells h' := by
    by_cases hh : h' = h
    · exact .inr ⟨m, φ, if_pos hh, if_pos hh, hm⟩
    · simpa [HandleStore.insert, hh] using hi.cells h'

theorem Implements.insert_right (hi : Implements K s t) {h : Int64} {φ : Value → Option Value}
    (hφ : t.cells h = some φ) : Implements K s (t.insert h φ) where
  next := hi.next
  cells h' := by
    by_cases hh : h' = h
    · subst hh
      simpa [HandleStore.insert, hφ] using hi.cells h'
    · simpa [HandleStore.insert, hh] using hi.cells h'

theorem Implements.shows (hK : Exact valuesEqual K) (hi : Implements K s t) : Shows K s t where
  get g h k hk := by
    unfold mapGet
    obtain ⟨hm, hφ⟩ | ⟨m, φ, hm, hφ, hd⟩ := hi.cells h <;> rw [hm, hφ]
    · rfl
    · exact hd.get hK hk
  contains g h k hk := by
    unfold mapContainsKey
    obtain ⟨hm, hφ⟩ | ⟨m, φ, hm, hφ, hd⟩ := hi.cells h <;> rw [hm, hφ]
    · rfl
    · rw [Bool.eq_iff_iff, Option.isSome_iff_ne_none, Option.any_some,
        contains_iff hK hd.toValid hk, hd.mem_keys]
      rfl
  len h := by
    unfold mapLen
    obtain ⟨hm, hφ⟩ | ⟨m, φ, hm, hφ, hd⟩ := hi.cells h <;> rw [hm, hφ]
    · rfl
    · exact hd.length

theorem implements_next (hK : Exact valuesEqual K) (hi : Implements K s t) (hop : op.Over K) :
    ∃ s', ValueMap.next maxLen s op = some s' ∧ Implements K s' (functionsNext maxLen t op) := by
  cases op with
  | new =>
    refine ⟨_, rfl, congrArg (· + 1) hi.next, ?_⟩
    rw [functionsNext, HandleStore.alloc, ← hi.next]
    exact (hi.insert denotes_nil).cells
  | put f h k v =>
    refine ⟨_, rfl, ?_⟩
    simp only [mapPut, functionsNext, HandleStore.modify]
    obtain ⟨hm, hφ⟩ | ⟨m, φ, hm, hφ, hd⟩ := hi.cells h <;> simp only [hm, hφ]
    · exact hi
    · have hfull : (maxLen ≤ m.length ∧ contains f m k = false) ↔
          maxLen ≤ {k | φ k ≠ none}.ncard ∧ φ k = none := by
        rw [hd.length, ← Bool.not_eq_true, contains_iff hK hd.toValid hop, hd.mem_keys, not_not]
      rw [if_congr hfull rfl rfl, apply_ite Prod.fst, apply_ite (t.insert h)]
      split_ifs
      · exact hi.insert_right hφ
      · exact hi.insert (hd.insert hK hop)
  | remove f h k =>
    refine ⟨_, rfl, ?_⟩
    simp only [mapRemove, functionsNext, HandleStore.modify]
    obtain ⟨hm, hφ⟩ | ⟨m, φ, hm, hφ, hd⟩ := hi.cells h <;> simp only [hm, hφ]
    · exact hi
    · exact hi.insert (hd.remove hK hop)
  | merge f o dest src =>
    refine ⟨_, rfl, ?_⟩
    simp only [mapMerge, functionsNext, HandleStore.modify]
    obtain ⟨hm, hφ⟩ | ⟨m, φ, hm, hφ, hd⟩ := hi.cells dest <;> simp only [hm, hφ]
    · exact hi
    · refine hi.insert (hd.insertAll hK (Denotes.perm ?_ (o.perm _)))
      obtain ⟨hm, hφ⟩ | ⟨m, φ, hm, hφ, hd⟩ := hi.cells src <;> rw [hm, hφ]
      · exact denotes_nil
      · exact hd

end Maps

/-- **A map is a finite function.** -/
theorem maps_shown {K : Set Value} (hK : Lawful K) (maxLen : Nat) {ops : List Op}
    (hops : ∀ op ∈ ops, op.Over K) : ∃ s, run (next maxLen) Maps.start ops = some s ∧
      Maps.Shows K s (ops.foldl (functionsNext maxLen) (HandleStore.empty 60000)) := by
  rw [← exact_iff_lawful] at hK
  have hrun : ∀ s t, Maps.Implements K s t → ∃ s', run (next maxLen) s ops = some s' ∧
      Maps.Implements K s' (ops.foldl (functionsNext maxLen) t) := by
    induction ops with
    | nil => exact fun s t hi => ⟨s, rfl, hi⟩
    | cons op ops ih =>
      intro s t hi
      obtain ⟨s', hs', hi'⟩ := Maps.implements_next hK hi (hops op List.mem_cons_self)
      rw [run, hs']
      exact ih (fun op' hmem => hops op' (List.mem_cons_of_mem _ hmem)) s' _ hi'
  obtain ⟨s, hs, hi⟩ := hrun Maps.start (HandleStore.empty 60000) ⟨rfl, fun _ => .inl ⟨rfl, rfl⟩⟩
  exact ⟨s, hs, hi.shows hK⟩

/-- The search that compares the key with every entry. -/
def linear : Find := ⟨fun e k => valuesEqual k e, fun _ _ h => h, fun _ _ h _ => h⟩

theorem maps_shown_put : ∃ s,
    run (next 10) Maps.start [.new, .put linear 60000 (.i64 1) (.bool true)] = some s ∧
      Maps.Shows {k | ∃ n, k = .i64 n} s
        ([.new, .put linear 60000 (.i64 1) (.bool true)].foldl (functionsNext 10) (.empty 60000)) :=
  maps_shown ⟨by simp, by simp⟩ 10 (by simp [Op.Over])

def nan : Value := .f64 ⟨0x7FF8000000000000⟩

def negZero : Value := .f64 ⟨0x8000000000000000⟩

/-- **A value put under NaN is lost**, and the two zeros are equal keys with unequal hashes. -/
theorem nan_lost : (∀ f g : Find, (Maps.start.mapNew.mapPut 1000000 f 60000 nan (.i64 1)).2 = true ∧
    (Maps.start.mapNew.mapPut 1000000 f 60000 nan (.i64 1)).1.mapGet g 60000 nan = none) ∧
    valuesEqual (.f64 ⟨0⟩) negZero = true ∧ hash (.f64 ⟨0⟩) ≠ hash negZero := by
  refine ⟨fun f g => ?_, by decide, by decide⟩
  have hcell : Maps.start.mapNew.cells 60000 = some [] := rfl
  have hlost : g.finds nan nan = false := by
    by_contra h
    have hequal := g.sound nan nan (by simpa using h)
    cases hequal
  simp [Maps.mapPut, Maps.mapGet, hcell, HandleStore.insert, HashTable.insert, HashTable.get, hlost]

end Arth.ValueMap
