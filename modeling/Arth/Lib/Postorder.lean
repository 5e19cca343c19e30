import Mathlib

/-!
# Nodes in postorder

A depth-first walk with a stack of nodes and the number of the next edge of each. A node is listed
when its edges are used up.

* `postorder` — the loop, over the nodes that `keep` admits.
* `Walking` — what holds at every turn: the listed nodes, followed by the stack from the top, name
  every visited node once and each of them but the root has a predecessor further on.
* `postorder_spec` — with enough turns the list has exactly the nodes that are reached, the root
  last, and every other node before one of its predecessors.
-/

namespace Postorder

open Relation List

variable {α : Type*}

def postorder [DecidableEq α] (next : α → List α) (keep : α → Bool) :
    ℕ → List α → List (α × ℕ) → List α → Option (List α)
  | 0, _, _, _ => none
  | _ + 1, _, [], order => some order
  | n + 1, visited, (u, ei) :: stack, order =>
    match (next u)[ei]? with
    | some v =>
      if keep v = true ∧ v ∉ visited then
        postorder next keep n (v :: visited) ((v, 0) :: (u, ei + 1) :: stack) order
      else
        postorder next keep n visited ((u, ei + 1) :: stack) order
    | none => postorder next keep n visited stack (order ++ [u])

variable {next : α → List α} {keep : α → Bool} {root : α} {l₁ l₂ U : List α} {v : α}

/-- An edge to a node that is kept. -/
def Kept (next : α → List α) (keep : α → Bool) (a b : α) : Prop := b ∈ next a ∧ keep b = true

/-- Every node of the list but the root has a predecessor further on. -/
def Backed (next : α → List α) (root : α) : List α → Prop
  | [] => True
  | x :: l => (x = root ∨ ∃ p ∈ l, x ∈ next p) ∧ Backed next root l

theorem Backed.insert (h : Backed next root (l₁ ++ l₂))
    (hv : ∃ p ∈ l₂, v ∈ next p) : Backed next root (l₁ ++ v :: l₂) := by
  induction l₁ with
  | nil => exact ⟨.inr hv, h⟩
  | cons x l₁ ih =>
    obtain ⟨hx, h⟩ := h
    refine ⟨?_, ih h⟩
    rcases hx with hx | ⟨p, hp, hmem⟩
    · exact .inl hx
    · refine .inr ⟨p, ?_, hmem⟩
      rcases mem_append.1 hp with hp | hp
      · exact mem_append_left _ hp
      · exact mem_append_right _ (mem_cons_of_mem v hp)

theorem Backed.split {x : α} (h : Backed next root (l₁ ++ x :: l₂))
    (hx : x ≠ root) : ∃ p ∈ l₂, x ∈ next p := by
  induction l₁ with
  | nil => exact h.1.resolve_left hx
  | cons y l₁ ih => exact ih h.2

/-- The nodes that are listed or will be, in the order in which they will be listed. -/
def pending (stack : List (α × ℕ)) (order : List α) : List α := order ++ stack.map (·.1)

structure Walking (next : α → List α) (keep : α → Bool) (root : α) (visited : List α)
    (stack : List (α × ℕ)) (order : List α) : Prop where
  nodup : (pending stack order).Nodup
  mem (x : α) : x ∈ visited ↔ x ∈ pending stack order
  backed : Backed next root (pending stack order)
  last : ∃ l, pending stack order = l ++ [root]
  reached {x : α} : x ∈ visited → ReflTransGen (Kept next keep) root x
  closed {u v : α} : u ∈ order → Kept next keep u v → v ∈ visited
  explored {u v : α} {ei k : ℕ} : (u, ei) ∈ stack → k < ei → (next u)[k]? = some v →
    keep v = true → v ∈ visited

theorem Walking.start : Walking next keep root [root] [(root, 0)] [] where
  nodup := nodup_singleton root
  mem x := Iff.rfl
  backed := ⟨.inl rfl, trivial⟩
  last := ⟨[], rfl⟩
  reached hx := by
    rw [mem_singleton.1 hx]
  closed hu := absurd hu not_mem_nil
  explored hmem hk := by
    cases mem_singleton.1 hmem
    omega

variable {visited order : List α} {stack : List (α × ℕ)} {u v : α} {ei : ℕ}

section

variable (h : Walking next keep root visited ((u, ei) :: stack) order)
include h

theorem Walking.pass (hedge : (next u)[ei]? = some v) (hold : ¬ (keep v = true ∧ v ∉ visited)) :
    Walking next keep root visited ((u, ei + 1) :: stack) order where
  nodup := h.nodup
  mem := h.mem
  backed := h.backed
  last := h.last
  reached := h.reached
  closed := h.closed
  explored {w x ej k} hmem hk hx hkeep := by
    rcases mem_cons.1 hmem with heq | hmem
    · cases heq
      by_cases hkei : k = ei
      · subst hkei
        rw [hedge] at hx
        cases hx
        exact Classical.not_not.1 fun hnew => hold ⟨hkeep, hnew⟩
      · exact h.explored mem_cons_self (by omega) hx hkeep
    · exact h.explored (mem_cons_of_mem _ hmem) hk hx hkeep

theorem Walking.push (hedge : (next u)[ei]? = some v) (hkeep : keep v = true) (hnew : v ∉ visited) :
    Walking next keep root (v :: visited) ((v, 0) :: (u, ei + 1) :: stack) order := by
  have hmem : v ∈ next u := mem_of_getElem? hedge
  have hu : u ∈ visited := (h.mem u).2 (by simp [pending])
  have hv : v ∉ order ++ u :: stack.map (·.1) := fun hv => hnew ((h.mem v).2 hv)
  exact {
    nodup := by
      have hnodup : (order ++ u :: stack.map (·.1)).Nodup := h.nodup
      exact (nodup_middle.2 (nodup_cons.2 ⟨hv, hnodup⟩))
    mem := fun x => by
      have := h.mem x
      simp only [pending, map_cons, mem_append, mem_cons] at this ⊢
      tauto
    backed := h.backed.insert ⟨u, mem_cons_self, hmem⟩
    last := by
      obtain ⟨l, hl⟩ := h.last
      have hl : order ++ u :: stack.map (·.1) = l ++ [root] := hl
      rcases append_eq_append_iff.1 hl with ⟨m, hm, hrest⟩ | ⟨m, hm, hrest⟩
      · refine ⟨order ++ v :: m, ?_⟩
        simp [pending, hrest]
      · cases m with
        | nil =>
          refine ⟨order ++ [v], ?_⟩
          simp only [nil_append] at hrest
          simp [pending, ← hrest]
        | cons y m =>
          simp at hrest
    reached := by
      intro x hx
      rcases mem_cons.1 hx with rfl | hx
      · exact (h.reached hu).tail ⟨hmem, hkeep⟩
      · exact h.reached hx
    closed := fun hw hx => mem_cons_of_mem v (h.closed hw hx)
    explored := by
      intro w x ej k hstack hk hx hkx
      rcases mem_cons.1 hstack with heq | hstack
      · cases heq
        omega
      · rcases mem_cons.1 hstack with heq | hstack
        · cases heq
          by_cases hkei : k = ei
          · subst hkei
            rw [hedge] at hx
            rw [Option.some.inj hx]
            exact mem_cons_self
          · have := h.explored mem_cons_self (show k < ei by omega) hx hkx
            exact mem_cons_of_mem v this
        · have := h.explored (mem_cons_of_mem _ hstack) hk hx hkx
          exact mem_cons_of_mem v this }

theorem Walking.list (hedge : (next u)[ei]? = none) :
    Walking next keep root visited stack (order ++ [u]) := by
  have hsame : pending stack (order ++ [u]) = pending ((u, ei) :: stack) order := by
    simp [pending]
  exact {
    nodup := hsame ▸ h.nodup
    mem := fun x => hsame ▸ h.mem x
    backed := hsame ▸ h.backed
    last := hsame ▸ h.last
    reached := h.reached
    closed := by
      intro w x hw hx
      rcases mem_append.1 hw with hw | hw
      · exact h.closed hw hx
      · obtain rfl := mem_singleton.1 hw
        obtain ⟨k, hk⟩ := mem_iff_getElem?.1 hx.1
        have hlt : k < (next w).length := (List.getElem?_eq_some_iff.1 hk).1
        have hle : (next w).length ≤ ei := getElem?_eq_none_iff.1 hedge
        exact h.explored mem_cons_self (by omega) hk hx.2
    explored := fun hmem => h.explored (mem_cons_of_mem _ hmem) }

end

variable [DecidableEq α]

/-- The turns that are left: an edge each, and the listing of each node. -/
def turns (next : α → List α) (U visited : List α) (stack : List (α × ℕ)) : ℕ :=
  (U.map fun x => if x ∈ visited then 0 else (next x).length + 1).sum +
    (stack.map fun s => (next s.1).length - s.2 + 1).sum

theorem sum_visit_lt (f : α → ℕ) {visited : List α} (hv : v ∈ U) (hnew : v ∉ visited) :
    (U.map fun x => if x ∈ v :: visited then 0 else f x).sum + f v ≤
      (U.map fun x => if x ∈ visited then 0 else f x).sum := by
  have hle : ∀ l : List α, (l.map fun x => if x ∈ v :: visited then 0 else f x).sum ≤
      (l.map fun x => if x ∈ visited then 0 else f x).sum := by
    intro l
    refine sum_le_sum fun x _ => ?_
    by_cases hx : x ∈ visited
    · simp [hx]
    · by_cases hxv : x = v <;> simp [hx, hxv]
  induction U with
  | nil => cases hv
  | cons x U ih =>
    simp only [map_cons, sum_cons]
    by_cases hx : x = v
    · have := hle U
      subst hx
      rw [if_pos mem_cons_self, if_neg hnew]
      omega
    · have := ih ((mem_cons.1 hv).resolve_left (Ne.symm hx))
      have hhead : (if x ∈ v :: visited then 0 else f x) = if x ∈ visited then 0 else f x := by
        simp [hx]
      omega

/-- **The whole walk**: with enough turns it ends, with nothing on the stack. -/
theorem exists_postorder (hU : ∀ x, ∀ y ∈ next x, y ∈ U) (n : ℕ)
    (h : Walking next keep root visited stack order) (hn : turns next U visited stack < n) :
    ∃ l visited', postorder next keep n visited stack order = some l ∧
      Walking next keep root visited' [] l := by
  induction n generalizing visited stack order with
  | zero => omega
  | succ n ih =>
    cases stack with
    | nil => exact ⟨order, visited, rfl, h⟩
    | cons s stack =>
      obtain ⟨u, ei⟩ := s
      cases hedge : (next u)[ei]? with
      | none =>
        have hturns : turns next U visited stack < n := by
          simp only [turns, map_cons, sum_cons] at hn ⊢
          omega
        simpa only [postorder, hedge] using ih (h.list hedge) hturns
      | some v =>
        have hlt : ei < (next u).length := (List.getElem?_eq_some_iff.1 hedge).1
        by_cases hnew : keep v = true ∧ v ∉ visited
        · have hturns : turns next U (v :: visited) ((v, 0) :: (u, ei + 1) :: stack) < n := by
            have hsum := sum_visit_lt (fun x => (next x).length + 1)
              (hU u v (mem_of_getElem? hedge)) hnew.2
            simp only [turns, map_cons, sum_cons] at hn ⊢
            omega
          simpa only [postorder, hedge, if_pos hnew] using ih (h.push hedge hnew.1 hnew.2) hturns
        · have hturns : turns next U visited ((u, ei + 1) :: stack) < n := by
            simp only [turns, map_cons, sum_cons] at hn ⊢
            omega
          simpa only [postorder, hedge, if_neg hnew] using ih (h.pass hedge hnew) hturns

/-- **The list is a postorder of what is reached.** -/
theorem postorder_spec (keep : α → Bool) (hU : ∀ x, ∀ y ∈ next x, y ∈ U) {n : ℕ}
    (hn : turns next U [root] [(root, 0)] < n) :
    ∃ l, postorder next keep n [root] [(root, 0)] [] = some l ∧ l.Nodup ∧
      (∀ x, x ∈ l ↔ ReflTransGen (Kept next keep) root x) ∧ (∃ l', l = l' ++ [root]) ∧
      Backed next root l := by
  have hstart : Walking next keep root [root] [(root, 0)] [] := Walking.start
  obtain ⟨l, visited, hl, h⟩ := exists_postorder hU n hstart hn
  have hpending : pending [] l = l := append_nil l
  have hmem (x : α) : x ∈ visited ↔ x ∈ l := by rw [h.mem x, hpending]
  refine ⟨l, hl, hpending ▸ h.nodup, fun x => ⟨fun hx => h.reached ((hmem x).2 hx), ?_⟩,
    hpending ▸ h.last, hpending ▸ h.backed⟩
  intro hx
  induction hx with
  | refl =>
    obtain ⟨l', hl'⟩ := h.last
    rw [← hpending, hl']
    exact mem_append_right _ (mem_singleton_self root)
  | tail _ hlast ih => exact (hmem _).1 (h.closed ih hlast)

end Postorder
