import Mathlib

/-!
# Data layout

Sizes, alignments and offsets of the types of a module with named records, as LLVM lays them out
for x86-64.

* `alignTo`, `offsets`, `record` — records, each element at the next multiple of its alignment.
* `layoutIn`, `table` — the layout of a type, the named ones looked up in their definitions.
* `Assigns`, `AssignsAll` — a type has a layout, types have layouts.
-/

namespace DataLayout

open List Option

structure Layout where
  size : Nat
  align : Nat
  deriving DecidableEq

/-- The next multiple of the alignment. -/
def alignTo (n align : Nat) : Nat := (n + align - 1) / align * align

/-- Where the elements start, the first at `n` or after it. -/
def offsets : Nat → List Layout → List Nat
  | _, [] => []
  | n, l :: ls => alignTo n l.align :: offsets (alignTo n l.align + l.size) ls

/-- Where the last element ends. -/
def endAt : Nat → List Layout → Nat
  | n, [] => n
  | n, l :: ls => endAt (alignTo n l.align + l.size) ls

/-- The largest alignment of the elements, and of `align`. -/
def maxAlign (align : Nat) (ls : List Layout) : Nat := ls.foldl (fun a l => max a l.align) align

/-- A record is as aligned as its elements, and padded at the end. -/
def record (ls : List Layout) : Layout :=
  ⟨alignTo (endAt 0 ls) (maxAlign 1 ls), maxAlign 1 ls⟩

theorem dvd_alignTo (n align : Nat) : align ∣ alignTo n align := Nat.dvd_mul_left _ _

theorem le_maxAlign (align : Nat) (ls : List Layout) : align ≤ maxAlign align ls := by
  induction ls generalizing align with
  | nil => exact le_rfl
  | cons l ls ih => exact le_trans (le_max_left _ _) (ih _)

variable {ls : List Layout} {l : Layout}

theorem maxAlign_induction {P : Nat → Prop} {align : Nat} (h : P align)
    (hls : ∀ l ∈ ls, P l.align) : P (maxAlign align ls) := by
  induction ls generalizing align with
  | nil => exact h
  | cons l ls ih =>
    have hmax : P (max align l.align) := by
      rcases max_choice align l.align with he | he
      · rw [he]
        exact h
      · rw [he]
        exact hls l mem_cons_self
    exact ih hmax fun l' hl' => hls l' (mem_cons_of_mem l hl')

theorem le_maxAlign_of_mem (align : Nat) (hl : l ∈ ls) : l.align ≤ maxAlign align ls := by
  induction ls generalizing align with
  | nil => exact absurd hl not_mem_nil
  | cons l' ls ih =>
    rcases mem_cons.1 hl with rfl | hl
    · exact le_trans (le_max_right _ _) (le_maxAlign _ ls)
    · exact ih _ hl

theorem dvd_offsets {n : Nat} {i : Nat} {off : Nat}
    (hl : ls[i]? = some l) (hoff : (offsets n ls)[i]? = some off) : l.align ∣ off := by
  induction ls generalizing n i with
  | nil => simp at hl
  | cons l' ls ih =>
    cases i with
    | zero =>
      simp only [getElem?_cons_zero, some.injEq] at hl
      simp only [offsets, getElem?_cons_zero, some.injEq] at hoff
      rw [← hoff, ← hl]
      exact dvd_alignTo _ _
    | succ i =>
      exact ih hl hoff

/-! ## Types -/

/-- The types: scalars, what has no size, records by name, records of two, and byte arrays. -/
inductive LType where
  | i8 | i32 | i64 | double | ptr | void
  | named (name : String)
  | pair (fst snd : LType)
  | bytes (n : Nat)
  deriving DecidableEq

/-- The layout of a type, given those of the named ones. -/
def layoutIn (env : String → Option Layout) : LType → Option Layout
  | .i8 => some ⟨1, 1⟩
  | .i32 => some ⟨4, 4⟩
  | .i64 => some ⟨8, 8⟩
  | .double => some ⟨8, 8⟩
  | .ptr => some ⟨8, 8⟩
  | .void => none
  | .named name => env name
  | .pair fst snd =>
    (layoutIn env fst).bind fun a => (layoutIn env snd).map fun b => record [a, b]
  | .bytes n => some ⟨n, 1⟩

def layoutsIn (env : String → Option Layout) : List LType → Option (List Layout)
  | [] => some []
  | t :: ts => (layoutIn env t).bind fun l => (layoutsIn env ts).map (l :: ·)

/-- The layouts of the named types, as far as `fuel` steps from name to name find them. -/
def table (defs : String → Option (List LType)) : Nat → String → Option Layout
  | 0, _ => none
  | fuel + 1, name => (defs name).bind fun ts => (layoutsIn (table defs fuel) ts).map record

section
variable {env env' : String → Option Layout} {defs : String → Option (List LType)} {l : Layout}
    {t : LType}

theorem layoutIn_mono (h : ∀ name l, env name = some l → env' name = some l)
    (ht : layoutIn env t = some l) : layoutIn env' t = some l := by
  induction t generalizing l with
  | named name => exact h name l ht
  | pair a b iha ihb =>
    simp only [layoutIn, bind_eq_some_iff, map_eq_some_iff] at ht ⊢
    obtain ⟨la, ha, lb, hb, rfl⟩ := ht
    exact ⟨la, iha ha, lb, ihb hb, rfl⟩
  | _ => exact ht

variable {ts : List LType} {ls : List Layout}

theorem layoutsIn_mono (h : ∀ name l, env name = some l → env' name = some l)
    (ht : layoutsIn env ts = some ls) : layoutsIn env' ts = some ls := by
  induction ts generalizing ls with
  | nil => exact ht
  | cons t ts ih =>
    simp only [layoutsIn, bind_eq_some_iff, map_eq_some_iff] at ht ⊢
    obtain ⟨l, hl, ls, hls, rfl⟩ := ht
    exact ⟨l, layoutIn_mono h hl, ls, ih hls, rfl⟩

variable {name : String}

theorem table_succ (fuel : Nat)
    (h : table defs fuel name = some l) : table defs (fuel + 1) name = some l := by
  induction fuel generalizing name l with
  | zero => exact absurd h (by simp [table])
  | succ fuel ih =>
    rw [table, bind_eq_some_iff] at h ⊢
    obtain ⟨ts, hts, h⟩ := h
    obtain ⟨ls, hls, rfl⟩ := map_eq_some_iff.1 h
    exact ⟨ts, hts, by rw [layoutsIn_mono (fun _ _ => ih) hls]; rfl⟩

theorem table_mono {fuel fuel' : Nat} (hle : fuel ≤ fuel')
    (h : table defs fuel name = some l) : table defs fuel' name = some l := by
  induction hle with
  | refl => exact h
  | step _ ih => exact table_succ _ ih

/-- The type has the layout. -/
def Assigns (defs : String → Option (List LType)) (t : LType) (l : Layout) : Prop :=
  ∃ fuel, layoutIn (table defs fuel) t = some l

/-- The types have the layouts, one for each. -/
def AssignsAll (defs : String → Option (List LType)) (ts : List LType) (ls : List Layout) : Prop :=
  ∃ fuel, layoutsIn (table defs fuel) ts = some ls

theorem AssignsAll.nil : AssignsAll defs [] [] := ⟨0, rfl⟩

theorem AssignsAll.cons
    (h : Assigns defs t l) (hs : AssignsAll defs ts ls) : AssignsAll defs (t :: ts) (l :: ls) := by
  obtain ⟨fuel, h⟩ := h
  obtain ⟨fuel', hs⟩ := hs
  have hl := layoutIn_mono (fun _ _ => table_mono (le_max_left fuel fuel')) h
  have hls := layoutsIn_mono (fun _ _ => table_mono (le_max_right fuel fuel')) hs
  exact ⟨max fuel fuel', by simp [layoutsIn, hl, hls]⟩

theorem AssignsAll.map {ι : Type*} {t : ι → LType} {f : ι → Layout} {l : List ι}
    (h : ∀ i ∈ l, Assigns defs (t i) (f i)) : AssignsAll defs (l.map t) (l.map f) := by
  induction l with
  | nil => exact .nil
  | cons i l ih =>
    exact .cons (h i mem_cons_self) (ih fun j hj => h j (mem_cons_of_mem i hj))

theorem Assigns.pair {a b : LType} {la lb : Layout} (ha : Assigns defs a la)
    (hb : Assigns defs b lb) : Assigns defs (.pair a b) (record [la, lb]) := by
  obtain ⟨fuel, ha⟩ := ha
  obtain ⟨fuel', hb⟩ := hb
  have hla := layoutIn_mono (fun _ _ => table_mono (le_max_left fuel fuel')) ha
  have hlb := layoutIn_mono (fun _ _ => table_mono (le_max_right fuel fuel')) hb
  exact ⟨max fuel fuel', by simp [layoutIn, hla, hlb]⟩

theorem Assigns.named (hdef : defs name = some ts) (h : AssignsAll defs ts ls) :
    Assigns defs (.named name) (record ls) := by
  obtain ⟨fuel, h⟩ := h
  exact ⟨fuel + 1, by simp [layoutIn, table, hdef, h]⟩

end

end DataLayout
