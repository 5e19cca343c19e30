import Mathlib

/-!
# Stores with a handle counter

A store maps handles to cells and hands out the next handle of a counter.

* `alloc`, `insert`, `erase`, `modify` — the operations.
* `live_alloc`, `live_insert`, `live_erase`, `live_modify` — which handles are live after
  each of them.
-/

structure HandleStore (K α : Type*) where
  next : K
  cells : K → Option α

namespace HandleStore

variable {K α : Type*} [DecidableEq K] {s : HandleStore K α} {h h' : K} {a : α} {f : α → α}

/-- No cell, and the counter at `base`. -/
def empty (base : K) : HandleStore K α := ⟨base, fun _ => none⟩

def insert (s : HandleStore K α) (h : K) (a : α) : HandleStore K α :=
  { s with cells := fun i => if i = h then some a else s.cells i }

def erase (s : HandleStore K α) (h : K) : HandleStore K α :=
  { s with cells := fun i => if i = h then none else s.cells i }

/-- Change a cell, if there is one. -/
def modify (s : HandleStore K α) (h : K) (f : α → α) : HandleStore K α :=
  match s.cells h with
  | some a => s.insert h (f a)
  | none => s

/-- A new cell under the next handle. -/
def alloc [Add K] [One K] (s : HandleStore K α) (a : α) : HandleStore K α :=
  { s.insert s.next a with next := s.next + 1 }

def Live (s : HandleStore K α) (h : K) : Prop := (s.cells h).isSome

instance : Decidable (s.Live h) := inferInstanceAs (Decidable (_ = true))

omit [DecidableEq K] in
theorem live_empty (base : K) : ¬ (empty base : HandleStore K α).Live h := nofun

theorem live_insert : (s.insert h' a).Live h ↔ h = h' ∨ s.Live h := by
  unfold Live insert
  by_cases hh : h = h' <;> simp [hh]

theorem live_erase : (s.erase h').Live h ↔ s.Live h ∧ h ≠ h' := by
  unfold Live erase
  by_cases hh : h = h' <;> simp [hh]

theorem live_modify : (s.modify h' f).Live h ↔ s.Live h := by
  unfold modify
  split
  · rename_i a ha
    rw [live_insert]
    constructor
    · rintro (rfl | hl)
      · unfold Live
        rw [ha]
        rfl
      · exact hl
    · exact .inr
  · rfl

theorem next_modify : (s.modify h f).next = s.next := by
  unfold modify
  split <;> rfl

theorem live_alloc [Add K] [One K] : (s.alloc a).Live h ↔ h = s.next ∨ s.Live h :=
  live_insert

theorem cells_alloc [Add K] [One K] : (s.alloc a).cells s.next = some a := if_pos rfl

theorem cells_modify : (s.modify h f).cells h = (s.cells h).map f := by
  unfold modify
  split
  · rename_i a ha
    rw [ha]
    exact if_pos rfl
  · rename_i hnone
    rw [hnone]
    rfl

end HandleStore
