import Arth.Lib.Worklist

/-!
# Cycles by a coloured depth-first search

The search colours a node when it enters it and again when it leaves it, keeps the path to the
node it is at, and stops where the path meets itself.

* `Inv` — the nodes in progress are those of the path; what has been left is closed and free of
  cycles.
* `dfs_spec` — a search from an unvisited node finds a cycle or colours the node.
* `findCycle_eq_none_iff`, `ends_of_findCycle` — a cycle is found just when there is one.
-/

namespace DepthFirst

open Relation Worklist List Function

inductive Mark where
  | unvisited
  | inProgress
  | done
  deriving DecidableEq

/-- The colours, and the path to where the search is. -/
structure Search (α : Type*) where
  state : α → Mark
  path : List α

variable {α : Type*} [DecidableEq α]

namespace Search

def enter (s : Search α) (x : α) : Search α :=
  ⟨Function.update s.state x .inProgress, s.path ++ [x]⟩

def leave (s : Search α) (x : α) : Search α :=
  ⟨Function.update s.state x .done, s.path.dropLast⟩

end Search

/-- What is done for one successor, with `rec` for the search from it. -/
def follow (rec : Search α → α → Except (List α) (Search α)) (s : Search α) (d : α) :
    Except (List α) (Search α) :=
  match s.state d with
  | .inProgress => .error (s.path ++ [d])
  | .unvisited => rec s d
  | .done => .ok s

/-- The search from an unvisited node; the error is the path that met itself. -/
def dfs (next : α → List α) : Nat → Search α → α → Except (List α) (Search α)
  | 0, s, _ => .ok s
  | n + 1, s, x => do
    let s ← (next x).foldlM (follow (dfs next n)) (s.enter x)
    return s.leave x

def start : Search α := ⟨fun _ => .unvisited, []⟩

/-- A search from every node that no earlier one has reached. -/
def findCycle (nodes : List α) (next : α → List α) : Option (List α) :=
  let visit (s : Search α) (x : α) : Except (List α) (Search α) :=
    if s.state x = .unvisited then dfs next nodes.length s x else .ok s
  match nodes.foldlM visit start with
  | .error path => some path
  | .ok _ => none

/-! ## The invariant -/

/-- A path whose end closes a cycle. -/
def EndsInCycle (next : α → List α) (path : List α) : Prop :=
  ∃ p x q, path = p ++ x :: (q ++ [x]) ∧ (x :: (q ++ [x])).IsChain (fun a b => b ∈ next a)

structure Inv (next : α → List α) (s : Search α) : Prop where
  chain : s.path.IsChain (fun a b => b ∈ next a)
  nodup : s.path.Nodup
  onPath : ∀ x, s.state x = .inProgress ↔ x ∈ s.path
  closed : ∀ x, s.state x = .done → ∀ d ∈ next x, s.state d = .done
  free : ∀ x, s.state x = .done → ¬ TransGen (fun a b => b ∈ next a) x x

/-- What a search leaves as it was: the path, and what was done before. -/
structure Extends (s s' : Search α) : Prop where
  path : s'.path = s.path
  done : ∀ x, s.state x = .done → s'.state x = .done
  unvisited : ∀ x, s'.state x = .unvisited → s.state x = .unvisited

variable {next : α → List α} {s s' s'' : Search α} {x d : α} {p nodes : List α}

omit [DecidableEq α] in
theorem Extends.refl (s : Search α) : Extends s s := ⟨rfl, fun _ h => h, fun _ h => h⟩

omit [DecidableEq α] in
theorem Extends.trans (h : Extends s s') (h' : Extends s' s'') : Extends s s'' :=
  ⟨h'.path.trans h.path, fun x hx => h'.done x (h.done x hx),
    fun x hx => h.unvisited x (h'.unvisited x hx)⟩

omit [DecidableEq α] in
theorem inv_start : Inv next (start : Search α) where
  chain := .nil
  nodup := .nil
  onPath x := by simp [start]
  closed x h := nomatch h
  free x h := nomatch h

omit [DecidableEq α] in
theorem Inv.done_of_reach (h : Inv next s) {y : α} (hx : s.state x = .done)
    (hreach : ReflTransGen (fun a b => b ∈ next a) x y) : s.state y = .done := by
  induction hreach with
  | refl => exact hx
  | tail _ hedge ih => exact h.closed _ ih _ hedge

theorem Inv.enter (h : Inv next s) (hx : s.state x = .unvisited)
    (hlast : ∀ y ∈ s.path.getLast?, x ∈ next y) : Inv next (s.enter x) := by
  have hout : x ∉ s.path := by
    rw [← h.onPath, hx]
    exact nofun
  refine ⟨?_, ?_, fun y => ?_, fun y hy d hd => ?_, fun y hy => ?_⟩
  · refine h.chain.append (.singleton x) fun y hy z hz => ?_
    cases hz
    exact hlast y hy
  · rw [Search.enter, nodup_append_comm, singleton_append, nodup_cons]
    exact ⟨hout, h.nodup⟩
  · simp only [Search.enter, update_apply, mem_append, mem_singleton]
    by_cases hyx : y = x
    · simp [hyx]
    · simp [hyx, h.onPath]
  · simp only [Search.enter, update_apply] at hy ⊢
    split at hy
    · cases hy
    · have hdone := h.closed y hy d hd
      have hne : d ≠ x := by
        rintro rfl
        rw [hx] at hdone
        cases hdone
      rw [if_neg hne]
      exact hdone
  · simp only [Search.enter, update_apply] at hy
    split at hy
    · cases hy
    · exact h.free y hy

theorem Inv.leave (h : Inv next s) (hp : s.path = p ++ [x])
    (hnext : ∀ d ∈ next x, s.state d = .done) : Inv next (s.leave x) := by
  have hnodup := hp ▸ h.nodup
  rw [nodup_append_comm, singleton_append, nodup_cons] at hnodup
  have hpath : (s.leave x).path = p := by
    rw [Search.leave, hp, dropLast_concat]
  have hx : s.state x = .inProgress := by
    rw [h.onPath, hp]
    exact mem_concat_self
  have hstate : ∀ y, (s.leave x).state y = .done ↔ y = x ∨ s.state y = .done := by
    intro y
    by_cases hyx : y = x <;> simp [Search.leave, hyx]
  refine ⟨?_, hpath ▸ hnodup.2, fun y => ?_, fun y hy d hd => ?_, fun y hy => ?_⟩
  · rw [hpath]
    exact (hp ▸ h.chain).left_of_append
  · rw [hpath]
    simp only [Search.leave, update_apply]
    by_cases hyx : y = x
    · simp [hyx, hnodup.1]
    · simp [hyx, h.onPath, hp]
  · rw [hstate]
    rcases (hstate y).1 hy with rfl | hy
    · exact .inr (hnext d hd)
    · exact .inr (h.closed y hy d hd)
  · rcases (hstate y).1 hy with rfl | hy
    · -- what is done stays among the done nodes, and the node itself is not done yet
      intro hcycle
      obtain ⟨d, hd, hback⟩ := TransGen.head'_iff.1 hcycle
      have hdone := h.done_of_reach (hnext d hd) hback
      rw [hx] at hdone
      cases hdone
    · exact h.free y hy

omit [DecidableEq α] in
theorem Inv.ends (h : Inv next s) (hlast : ∀ y ∈ s.path.getLast?, d ∈ next y)
    (hd : s.state d = .inProgress) : EndsInCycle next (s.path ++ [d]) := by
  obtain ⟨p, q, hpq⟩ := append_of_mem ((h.onPath d).1 hd)
  refine ⟨p, d, q, by simp [hpq], ?_⟩
  have hchain : (s.path ++ [d]).IsChain (fun a b => b ∈ next a) := by
    refine h.chain.append (.singleton d) fun y hy z hz => ?_
    cases hz
    exact hlast y hy
  rw [hpq, append_assoc, cons_append] at hchain
  exact hchain.right_of_append

omit [DecidableEq α] in
theorem EndsInCycle.transGen {path : List α} (h : EndsInCycle next path) :
    ∃ x ∈ path, TransGen (fun a b => b ∈ next a) x x := by
  obtain ⟨p, x, q, rfl, hchain⟩ := h
  refine ⟨x, by simp, ?_⟩
  have hreach : ∀ (q : List α) (y z : α), (y :: (q ++ [z])).IsChain (fun a b => b ∈ next a) →
      TransGen (fun a b => b ∈ next a) y z := by
    intro q
    induction q with
    | nil =>
      intro y z hq
      exact .single (isChain_cons_cons.1 hq).1
    | cons w q ih =>
      intro y z hq
      obtain ⟨hedge, hq⟩ := isChain_cons_cons.1 hq
      exact .head hedge (ih w z hq)
  exact hreach q x x hchain

variable {U : List α}

/-- The nodes that are still to be visited. -/
def left (U : List α) (s : Search α) : Nat := (U.filter (s.state · = .unvisited)).length

omit [DecidableEq α] in
theorem Extends.left_le (h : Extends s s') : left U s' ≤ left U s := by
  refine Sublist.length_le (monotone_filter_right U fun x hx => ?_)
  simpa using h.unvisited x (by simpa using hx)

theorem left_enter_lt (hx : x ∈ U) (hstate : s.state x = .unvisited) :
    left U (s.enter x) < left U s := by
  have hfilter : U.filter ((s.enter x).state · = .unvisited) =
      (U.filter (s.state · = .unvisited)).filter (· ≠ x) := by
    rw [filter_filter]
    refine filter_congr fun y _ => ?_
    by_cases hyx : y = x <;> simp [Search.enter, hyx]
  unfold left
  rw [hfilter]
  exact length_filter_lt_length_iff_exists.2 ⟨x, mem_filter.2 ⟨hx, by simp [hstate]⟩, by simp⟩

/-- A search that has found a cycle, or has kept the invariant and made `P` true. -/
def Finds (next : α → List α) (s : Search α) (P : Search α → Prop) :
    Except (List α) (Search α) → Prop
  | .error path => EndsInCycle next path
  | .ok s' => Inv next s' ∧ Extends s s' ∧ P s'

theorem loop_spec {n : Nat}
    (hrec : ∀ (s : Search α) (d : α), Inv next s → d ∈ U → s.state d = .unvisited →
      left U s ≤ n → (∀ y ∈ s.path.getLast?, d ∈ next y) →
      Finds next s (fun s' => s'.state d = .done) (dfs next n s d))
    {ds : List α} (hU : ∀ d ∈ ds, d ∈ U) (hds : ∀ d ∈ ds, d ∈ next x) (h : Inv next s)
    (hleft : left U s ≤ n) (hp : s.path = p ++ [x]) :
    Finds next s (fun s' => ∀ d ∈ ds, s'.state d = .done) (ds.foldlM (follow (dfs next n)) s) := by
  induction ds generalizing s with
  | nil => exact ⟨h, .refl s, fun d hd => absurd hd not_mem_nil⟩
  | cons d ds ih =>
    have hlast : ∀ y ∈ s.path.getLast?, d ∈ next y := by
      intro y hy
      rw [hp, getLast?_concat] at hy
      cases hy
      exact hds d mem_cons_self
    -- the rest of the loop, from a state in which `d` is done
    have hrest : ∀ s', Inv next s' → Extends s s' → s'.state d = .done →
        Finds next s (fun s' => ∀ e ∈ d :: ds, s'.state e = .done)
          (ds.foldlM (follow (dfs next n)) s') := by
      intro s' h' hext hd
      have hloop := ih (fun e he => hU e (mem_cons_of_mem d he))
        (fun e he => hds e (mem_cons_of_mem d he)) h' (hext.left_le.trans hleft)
        (hext.path.trans hp)
      cases hres : ds.foldlM (follow (dfs next n)) s' with
      | error path =>
        rwa [hres] at hloop
      | ok s'' =>
        rw [hres] at hloop
        obtain ⟨hinv, hext', hall⟩ := hloop
        refine ⟨hinv, hext.trans hext', fun e he => ?_⟩
        rcases mem_cons.1 he with rfl | he
        · exact hext'.done _ hd
        · exact hall e he
    rw [foldlM_cons]
    unfold follow
    cases hd : s.state d with
    | inProgress => exact h.ends hlast hd
    | done => exact hrest s h (.refl s) hd
    | unvisited =>
      have hone := hrec s d h (hU d mem_cons_self) hd hleft hlast
      cases hres : dfs next n s d with
      | error path =>
        rwa [hres] at hone
      | ok s' =>
        rw [hres] at hone
        exact hrest s' hone.1 hone.2.1 hone.2.2

/-- **A search from an unvisited node finds a cycle, or colours the node and keeps the
invariant.** -/
theorem dfs_spec (hU : ∀ x ∈ U, ∀ d ∈ next x, d ∈ U) (n : Nat) (s : Search α) (x : α)
    (h : Inv next s) (hx : x ∈ U) (hstate : s.state x = .unvisited) (hleft : left U s ≤ n)
    (hlast : ∀ y ∈ s.path.getLast?, x ∈ next y) :
    Finds next s (fun s' => s'.state x = .done) (dfs next n s x) := by
  induction n generalizing s x with
  | zero =>
    have := left_enter_lt hx hstate
    omega
  | succ n ih =>
    have hlt := left_enter_lt hx hstate
    have hloop := loop_spec ih (hU x hx) (fun d hd => hd) (h.enter hstate hlast) (by omega) rfl
    rw [dfs]
    cases hres : (next x).foldlM (follow (dfs next n)) (s.enter x) with
    | error path =>
      rwa [hres] at hloop
    | ok s' =>
      rw [hres] at hloop
      obtain ⟨hinv, hext, hall⟩ := hloop
      refine ⟨hinv.leave hext.path hall, ⟨?_, fun y hy => ?_, fun y hy => ?_⟩, ?_⟩
      · change s'.path.dropLast = s.path
        rw [hext.path]
        exact dropLast_concat
      · change update s'.state x .done y = .done
        rw [update_apply]
        split_ifs with hyx
        · rfl
        · exact hext.done y (by simpa [Search.enter, update_apply, hyx] using hy)
      · change update s'.state x .done y = .unvisited at hy
        rw [update_apply] at hy
        split at hy
        · cases hy
        · rename_i hyx
          simpa [Search.enter, update_apply, hyx] using hext.unvisited y hy
      · exact update_self ..

/-- A search from a node that no earlier one has reached. -/
def visit (next : α → List α) (n : Nat) (s : Search α) (x : α) : Except (List α) (Search α) :=
  if s.state x = .unvisited then dfs next n s x else .ok s

theorem visits_spec (hin : ∀ x ∈ nodes, ∀ d ∈ next x, d ∈ nodes) (xs : List α)
    (s : Search α) (hxs : ∀ x ∈ xs, x ∈ nodes) (h : Inv next s)
    (hleft : left nodes s ≤ nodes.length) (hpath : s.path = []) :
    Finds next s (fun s' => ∀ x ∈ xs, s'.state x = .done)
      (xs.foldlM (visit next nodes.length) s) := by
  induction xs generalizing s with
  | nil => exact ⟨h, .refl s, fun x hx => absurd hx not_mem_nil⟩
  | cons x xs ih =>
    have hone : Finds next s (fun s' => s'.state x = .done) (visit next nodes.length s x) := by
      unfold visit
      split_ifs with hstate
      · refine dfs_spec hin _ s x h (hxs x mem_cons_self) hstate hleft fun y hy => ?_
        rw [hpath] at hy
        cases hy
      · refine ⟨h, .refl s, ?_⟩
        cases hx : s.state x with
        | unvisited => exact absurd hx hstate
        | inProgress =>
          rw [h.onPath, hpath] at hx
          cases hx
        | done => exact hx
    rw [foldlM_cons]
    generalize visit next nodes.length s x = r at hone
    cases r with
    | error path => exact hone
    | ok s' =>
      obtain ⟨h', hext, hdone⟩ := hone
      have hloop := ih s' (fun y hy => hxs y (mem_cons_of_mem x hy)) h'
        (hext.left_le.trans hleft) (hext.path.trans hpath)
      change Finds next s _ (xs.foldlM _ s')
      cases hres : xs.foldlM (visit next nodes.length) s' with
      | error path =>
        rwa [hres] at hloop
      | ok s'' =>
        rw [hres] at hloop
        obtain ⟨hinv, hext', hall⟩ := hloop
        refine ⟨hinv, hext.trans hext', fun y hy => ?_⟩
        rcases mem_cons.1 hy with rfl | hy
        · exact hext'.done _ hdone
        · exact hall y hy

theorem findCycle_cases (hin : ∀ x ∈ nodes, ∀ d ∈ next x, d ∈ nodes) :
    match findCycle nodes next with
    | some path => EndsInCycle next path
    | none => ∀ x ∈ nodes, ¬ TransGen (fun a b => b ∈ next a) x x := by
  have hall := visits_spec hin nodes start (fun _ hx => hx) inv_start (length_filter_le _ _) rfl
  change match (match nodes.foldlM (visit next nodes.length) start with
    | .error path => some path
    | .ok _ => none) with
    | some path => EndsInCycle next path
    | none => ∀ x ∈ nodes, ¬ TransGen (fun a b => b ∈ next a) x x
  cases hres : nodes.foldlM (visit next nodes.length) start with
  | error path =>
    rwa [hres] at hall
  | ok s' =>
    rw [hres] at hall
    exact fun x hx => hall.1.free x (hall.2.2 x hx)

theorem ends_of_findCycle {path : List α} (hin : ∀ x ∈ nodes, ∀ d ∈ next x, d ∈ nodes)
    (h : findCycle nodes next = some path) : EndsInCycle next path := by
  have hcases := findCycle_cases hin
  rwa [h] at hcases

/-- **No cycle is found just when there is none.** -/
theorem findCycle_eq_none_iff (hnodes : ∀ x, ∀ d ∈ next x, x ∈ nodes)
    (hin : ∀ x, ∀ d ∈ next x, d ∈ nodes) : findCycle nodes next = none ↔ Acyclic next := by
  have hcases := findCycle_cases fun x _ => hin x
  constructor
  · intro hnone x hcycle
    rw [hnone] at hcases
    obtain ⟨d, hd, -⟩ := TransGen.head'_iff.1 hcycle
    exact hcases x (hnodes x d hd) hcycle
  · intro hacyclic
    cases h : findCycle nodes next with
    | none => rfl
    | some path =>
      obtain ⟨x, -, hcycle⟩ := (ends_of_findCycle (fun x _ => hin x) h).transGen
      exact absurd hcycle (hacyclic x)

end DepthFirst
