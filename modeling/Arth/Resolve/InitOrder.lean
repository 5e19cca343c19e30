import Arth.Lib.DepthFirst

/-!
# The initialisation order of packages

The maps and sets of package names are lists without repetitions, in the order in which the loops
visit them; `edges` has a pair for each package and each package that it imports.

* `detectImportCycles` — the depth-first search, which goes on after a cycle.
* `computeInitializationOrder` — Kahn's loop; `visit` is the iteration over what it builds itself.
* `isSome_detectImportCycles` — an error just when some package imports itself in the end.
* `initOrder_of_acyclic` — the order without cycles, whatever order the maps are visited in.
-/

namespace Arth.Resolve

open KeyTable Worklist DepthFirst Relation List

abbrev Edges := List (String × String)

/-- The packages that a package imports. -/
def imports (edges : Edges) (p : String) : List String := (edges.filter (·.1 = p)).map (·.2)

/-- The search, and the cycles found so far. -/
abbrev Walk := Search String × List (List String)

/-- What is done for an imported package, with `rec` for the search from it. -/
def meet (rec : String → Walk → Walk)
    (s : Walk) (v : String) : Walk :=
  match s.1.state v with
  | .unvisited => rec v s
  | .inProgress => (s.1, s.2 ++ [s.1.path.dropWhile (· ≠ v) ++ [v]])
  | .done => s

/-- `dfs`: a package is seen when it is not unvisited, and on the stack while it is in progress. -/
def dfs (edges : Edges) : ℕ → String → Walk → Walk
  | 0, _, s => s
  | n + 1, u, s =>
    let s := (imports edges u).foldl (meet (dfs edges n)) (s.1.enter u, s.2)
    (s.1.leave u, s.2)

def names (edges : Edges) : List String := edges.map (·.1) ++ edges.map (·.2)

def detectImportCycles (edges : Edges) : Option String :=
  let visit (s : Walk) (u : String) :=
    if s.1.state u = .unvisited then dfs edges (names edges).length u s else s
  let (_, cycles) := (edges.map (·.1)).dedup.foldl visit (start, [])
  cycles.head?.map fun cyc => "package import cycle detected: " ++ " -> ".intercalate cyc

/-! ## Kahn's loop -/

structure ModuleInitOrder where
  initOrder : List String
  deinitOrder : List String
  dependencies : Edges

/-- `queue.sort()` -/
def sorted (l : List String) : List String := l.mergeSort fun a b => decide (a ≤ b)

/-- One import: only those of a package of the set count. -/
def countImport (packages : List String) (s : Table String ℕ × Table String (List String))
    (e : String × String) : Table String ℕ × Table String (List String) :=
  if e.2 ∈ packages then
    (s.1.insert e.1 ((s.1.lookup e.1).getD 0 + 1),
      s.2.insert e.2 (((s.2.lookup e.2).getD []).insert e.1))
  else s

/-- The in-degrees and the reverse edges. -/
def counted (packages : List String) (edges : Edges) :
    Table String ℕ × Table String (List String) :=
  edges.foldl (countImport packages) (packages.foldl (fun t p => t.insert p 0) ∅, ∅)

/-- One dependency less for a package, which is queued when it was the last one. -/
def release (s : Table String ℕ × List String) (dependent : String) :
    Table String ℕ × List String :=
  match s.1.lookup dependent with
  | some deg =>
    (s.1.insert dependent (deg - 1),
      if deg - 1 = 0 then sorted (s.2 ++ [dependent]) else s.2)
  | none => s

def initLoop (dependents : String → List String) :
    ℕ → Table String ℕ → List String → List String → List String
  | 0, _, _, initOrder => initOrder
  | n + 1, inDegree, queue, initOrder =>
    match queue.getLast? with
    | none => initOrder
    | some pkg =>
      let s := (dependents pkg).foldl release (inDegree, queue.dropLast)
      initLoop dependents n s.1 s.2 (initOrder ++ [pkg])

def computeInitializationOrder (visit : List String → List String) (packages : List String)
    (edges : Edges) : ModuleInitOrder :=
  let (inDegree, reverseEdges) := counted packages edges
  let queue := sorted ((visit inDegree.keys).filter fun p => inDegree.lookup p = some 0)
  let dependents pkg := visit ((reverseEdges.lookup pkg).getD [])
  let initOrder := initLoop dependents (packages.length + edges.length) inDegree queue []
  ⟨initOrder, initOrder.reverse, edges⟩

section

variable {edges : Edges} {s : Search String} {c : List (List String)} {g : Walk → String → Walk}

/-- The search that stops at a cycle and the one that goes on agree. -/
def Agrees (c : List (List String)) : Except (List String) (Search String) →
    Walk → Prop
  | .ok s', t => t = (s', c)
  | .error _, t => ∃ new ≠ [], t.2 = c ++ new

/-- Cycles are only added. -/
def Adds (g : Walk → String → Walk) : Prop := ∀ t d, t.2 <+: (g t d).2

theorem Adds.foldl (hg : Adds g) (l : List String) (t : Walk) : t.2 <+: (l.foldl g t).2 := by
  induction l generalizing t with
  | nil => exact prefix_rfl
  | cons d l ih => exact (hg t d).trans (ih _)

theorem agrees_foldl {f : Search String → String → Except (List String) (Search String)}

    (hg : Adds g) (hfg : ∀ s c d, Agrees c (f s d) (g (s, c) d)) (l : List String)
    (s : Search String) (c : List (List String)) : Agrees c (l.foldlM f s) (l.foldl g (s, c)) := by
  induction l generalizing s with
  | nil => rfl
  | cons d l ih =>
    have hone := hfg s c d
    rw [foldlM_cons, foldl_cons]
    cases h : f s d with
    | ok s' =>
      rw [h] at hone
      rw [show g (s, c) d = (s', c) from hone]
      exact ih s'
    | error path =>
      rw [h] at hone
      obtain ⟨new, hne, heq⟩ := hone
      obtain ⟨rest, hrest⟩ := hg.foldl l (g (s, c) d)
      exact ⟨new ++ rest, by simp [hne], by rw [← hrest, heq, append_assoc]⟩

theorem adds_meet {rec : String → Walk → Walk} (h : ∀ u t, t.2 <+: (rec u t).2) : Adds (meet rec) := by
  intro t d
  unfold meet
  split
  · exact h d t
  · exact prefix_append _ _
  · exact prefix_rfl

theorem dfs_adds (edges : Edges) (n : ℕ) (u : String) (t : Walk) : t.2 <+: (dfs edges n u t).2 := by
  induction n generalizing u t with
  | zero => exact prefix_rfl
  | succ n ih => exact (adds_meet ih).foldl (imports edges u) (t.1.enter u, t.2)

theorem dfs_agrees (edges : Edges) (n : ℕ) (s : Search String) (c : List (List String))
    (u : String) : Agrees c (DepthFirst.dfs (imports edges) n s u) (dfs edges n u (s, c)) := by
  induction n generalizing s c u with
  | zero => rfl
  | succ n ih =>
    have hmeet : ∀ s c d, Agrees c (follow (DepthFirst.dfs (imports edges) n) s d)
        (meet (dfs edges n) (s, c) d) := by
      intro s c d
      unfold follow meet
      split <;> rename_i hd <;> simp only [hd]
      · exact ⟨_, by simp, rfl⟩
      · exact ih s c d
      · rfl
    have hloop := agrees_foldl (adds_meet (dfs_adds edges n)) hmeet (imports edges u) (s.enter u) c
    rw [DepthFirst.dfs, dfs]
    cases h : (imports edges u).foldlM (follow (DepthFirst.dfs (imports edges) n)) (s.enter u) with
    | ok s' =>
      rw [h] at hloop
      rw [show (imports edges u).foldl _ _ = (s', c) from hloop]
      rfl
    | error path =>
      rwa [h] at hloop

theorem mem_imports {p d : String} : d ∈ imports edges p ↔ (p, d) ∈ edges := by
  simp [imports]

/-- The package imports itself, directly or through others. -/
def Circular (edges : Edges) (p : String) : Prop :=
  TransGen (fun a b => b ∈ imports edges a) p p

/-- **An error is reported just when the imports have a cycle.** -/
theorem isSome_detectImportCycles (edges : Edges) :
    (detectImportCycles edges).isSome ↔ ∃ p, Circular edges p := by
  have hin : ∀ x ∈ names edges, ∀ d ∈ imports edges x, d ∈ names edges := fun x _ d hd =>
    mem_append_right _ (mem_map_of_mem (mem_imports.1 hd))
  have hkeys : ∀ x ∈ (edges.map (·.1)).dedup, x ∈ names edges := fun x hx =>
    mem_append_left _ (mem_dedup.1 hx)
  have hspec := visits_spec hin _ start hkeys inv_start (length_filter_le _ _) rfl
  let code (s : Walk) (u : String) : Walk :=
    if s.1.state u = .unvisited then dfs edges (names edges).length u s else s
  have hagrees : Agrees [] ((edges.map (·.1)).dedup.foldlM
      (DepthFirst.visit (imports edges) (names edges).length) start)
      ((edges.map (·.1)).dedup.foldl code (start, [])) := by
    refine agrees_foldl (fun t d => ?_) (fun s c d => ?_) _ _ _
    · simp only [code]
      split
      · exact dfs_adds ..
      · exact prefix_rfl
    · simp only [code, DepthFirst.visit]
      split
      · exact dfs_agrees ..
      · rfl
  change (((edges.map (·.1)).dedup.foldl code (start, [])).2.head?.map _).isSome ↔ _
  cases h : (edges.map (·.1)).dedup.foldlM
      (DepthFirst.visit (imports edges) (names edges).length) start with
  | ok s' =>
    rw [h] at hspec hagrees
    rw [show (edges.map (·.1)).dedup.foldl code (start, []) = (s', []) from hagrees]
    refine iff_of_false (by simp) ?_
    rintro ⟨p, hp⟩
    obtain ⟨d, hd, -⟩ := TransGen.head'_iff.1 hp
    have hkey : p ∈ (edges.map (·.1)).dedup :=
      mem_dedup.2 (mem_map_of_mem (mem_imports.1 hd))
    exact hspec.1.free p (hspec.2.2 p hkey) hp
  | error path =>
    rw [h] at hspec hagrees
    obtain ⟨new, hne, hnew⟩ := hagrees
    refine iff_of_true ?_ ?_
    · rw [hnew, nil_append]
      simpa using hne
    · obtain ⟨p, -, hp⟩ := EndsInCycle.transGen hspec
      exact ⟨p, hp⟩

end

/-! ## The loop -/

section

variable {nodes : List String} {deps dependents : String → List String}
  {degree : Table String ℕ} {queue order l l' : List String}

theorem sorted_perm (l : List String) : (sorted l).Perm l := mergeSort_perm _ _

theorem pairwise_sorted (l : List String) : (sorted l).Pairwise (· ≤ ·) := by
  have h := @List.pairwise_mergeSort String (fun a b => decide (a ≤ b))
    (fun a b c hab hbc => by simpa using le_trans (by simpa using hab) (by simpa using hbc))
    (fun a b => by simpa using le_total a b) l
  simpa [sorted] using h

theorem eq_of_sorted (hl : l.Pairwise (· ≤ ·)) (hl' : l'.Pairwise (· ≤ ·)) (h : l.Perm l') :
    l = l' := Perm.eq_of_pairwise (fun _ _ _ _ => le_antisymm) hl hl' h

/-- The queue is that of the general loop, in another order. -/
theorem release_foldl (ds : List String) (degree : Table String ℕ) (h : l.Perm l') :
    (ds.foldl release (degree, l)).1 = (ds.foldl relax (degree, l')).1 ∧
      (ds.foldl release (degree, l)).2.Perm (ds.foldl relax (degree, l')).2 := by
  induction ds generalizing degree l l' with
  | nil => exact ⟨rfl, h⟩
  | cons d ds ih =>
    rw [foldl_cons, foldl_cons, release, relax]
    cases degree.lookup d with
    | none => exact ih degree h
    | some n =>
      refine ih _ ?_
      split
      · exact (sorted_perm _).trans (h.append_right _)
      · exact h

theorem release_sorted (ds : List String) (degree : Table String ℕ) (h : l.Pairwise (· ≤ ·)) :
    (ds.foldl release (degree, l)).2.Pairwise (· ≤ ·) := by
  induction ds generalizing degree l with
  | nil => exact h
  | cons d ds ih =>
    rw [foldl_cons, release]
    cases degree.lookup d with
    | none => exact ih degree h
    | some n =>
      refine ih _ ?_
      split
      · exact pairwise_sorted _
      · exact h

theorem turn_perm (h : Turn nodes deps degree queue order) (hp : queue.Perm l) :
    Turn nodes deps degree l order where
  degree := h.degree
  nodup := ((hp.append_left order).nodup_iff).1 h.nodup
  free := fun x => by rw [← (hp.append_left order).mem_iff, h.free]
  ordered := h.ordered

theorem turn_release (hsucc : Inverts nodes deps dependents) (hdeps : ∀ x, (deps x).Nodup)
    {pkg : String} (h : Turn nodes deps degree (queue ++ [pkg]) order) :
    let s := (dependents pkg).foldl release (degree, queue)
    Turn nodes deps s.1 s.2 (order ++ [pkg]) := by
  have hnext := (turn_perm h (perm_append_singleton pkg queue)).next hsucc hdeps
  obtain ⟨heq, hperm⟩ := release_foldl (dependents pkg) degree (.refl queue)
  dsimp only
  rw [heq]
  exact turn_perm hnext hperm.symm

theorem length_le_of_turn (h : Turn nodes deps degree queue order) :
    order.length + queue.length ≤ nodes.length := by
  have := (h.nodup.subperm fun x hx => ((h.free x).1 hx).1).length_le
  rwa [length_append] at this

theorem initLoop_turn (hsucc : Inverts nodes deps dependents) (hdeps : ∀ x, (deps x).Nodup)
    (n : ℕ) (hn : nodes.length ≤ n + order.length) (h : Turn nodes deps degree queue order) :
    ∃ degree', Turn nodes deps degree' [] (initLoop dependents n degree queue order) := by
  induction n generalizing degree queue order with
  | zero =>
    have := length_le_of_turn h
    obtain rfl := length_eq_zero_iff.1 (show queue.length = 0 by omega)
    exact ⟨degree, h⟩
  | succ n ih =>
    rcases eq_nil_or_concat queue with rfl | ⟨queue, pkg, rfl⟩
    · exact ⟨degree, h⟩
    · rw [concat_eq_append] at h ⊢
      simp only [initLoop, getLast?_concat, dropLast_concat]
      exact ih (by simp; omega) (turn_release hsucc hdeps h)

/-- What is listed determines what is queued, so the loop does not see the order of its maps. -/
theorem initLoop_congr {nodes' : List String} {deps' dependents' : String → List String}
    (hsucc : Inverts nodes deps dependents) (hdeps : ∀ x, (deps x).Nodup)
    (hsucc' : Inverts nodes' deps' dependents') (hdeps' : ∀ x, (deps' x).Nodup)
    (hsame : ∀ x, x ∈ nodes ↔ x ∈ nodes') (hdep : ∀ x d, d ∈ deps x ↔ d ∈ deps' x)
    {degree' : Table String ℕ} {queue' : List String} (n : ℕ)
    (h : Turn nodes deps degree queue order) (h' : Turn nodes' deps' degree' queue' order)
    (hq : queue.Pairwise (· ≤ ·)) (hq' : queue'.Pairwise (· ≤ ·)) :
    initLoop dependents n degree queue order = initLoop dependents' n degree' queue' order := by
  induction n generalizing degree degree' queue queue' order with
  | zero => rfl
  | succ n ih =>
    obtain ⟨-, hnodup, hout⟩ := nodup_append.1 h.nodup
    obtain ⟨-, hnodup', hout'⟩ := nodup_append.1 h'.nodup
    have hmem : ∀ x, x ∈ queue ↔ x ∈ queue' := by
      intro x
      have hfree := (h.free x).trans <| (and_congr (hsame x) <| by simp [hdep]).trans (h'.free x).symm
      rw [mem_append, mem_append] at hfree
      constructor
      · exact fun hx => (hfree.1 (.inr hx)).resolve_left fun ho => hout x ho x hx rfl
      · exact fun hx => (hfree.2 (.inr hx)).resolve_left fun ho => hout' x ho x hx rfl
    obtain rfl := eq_of_sorted hq hq' ((perm_ext_iff_of_nodup hnodup hnodup').2 hmem)
    rcases eq_nil_or_concat queue with rfl | ⟨queue, pkg, rfl⟩
    · rfl
    · rw [concat_eq_append] at *
      simp only [initLoop, getLast?_concat, dropLast_concat]
      have hsorted := (pairwise_append.1 hq).1
      exact ih (turn_release hsucc hdeps h) (turn_release hsucc' hdeps' h')
        (release_sorted _ _ hsorted) (release_sorted _ _ hsorted)

end

section

variable {packages : List String} {edges : Edges} {visit : List String → List String} {p d : String}

/-- The imports that count. -/
def inner (packages : List String) (edges : Edges) (p : String) : List String :=
  (imports edges p).filter (· ∈ packages)

theorem mem_inner : d ∈ inner packages edges p ↔ (p, d) ∈ edges ∧ d ∈ packages := by
  simp [inner, mem_imports]

theorem inner_ne_nil : inner packages edges p ≠ [] ↔ ∃ d ∈ packages, (p, d) ∈ edges := by
  rw [Ne, eq_nil_iff_forall_not_mem]
  simp [mem_inner, and_comm]

/-- **What the loop over the imports counts.** -/
theorem counted_spec (packages : List String) (edges : Edges) :
    (∀ p, (counted packages edges).1.lookup p =
      if p ∈ packages ∨ inner packages edges p ≠ [] then some (inner packages edges p).length
      else none) ∧ ∀ d, (((counted packages edges).2.lookup d).getD []).Nodup ∧
      ∀ p, p ∈ ((counted packages edges).2.lookup d).getD [] ↔ d ∈ inner packages edges p := by
  induction edges using List.reverseRecOn with
  | nil =>
    have hzero : ∀ (l : List String) (t : Table String ℕ) (p : String),
        (l.foldl (fun t p => t.insert p 0) t).lookup p = if p ∈ l then some 0 else t.lookup p := by
      intro l
      induction l with
      | nil => simp
      | cons x l ih =>
        intro t p
        rw [foldl_cons, ih, lookup_insert_eq]
        by_cases hl : p ∈ l <;> by_cases hx : p = x <;> simp [hl, hx]
    refine ⟨fun p => ?_, fun d => by simp [counted, inner, imports]⟩
    simpa [counted, inner, imports] using hzero packages ∅ p
  | append_singleton edges e ih =>
    obtain ⟨u, v⟩ := e
    have himports : ∀ p, inner packages (edges ++ [(u, v)]) p = inner packages edges p ++
        if u = p ∧ v ∈ packages then [v] else [] := by
      intro p
      by_cases hu : u = p <;> by_cases hv : v ∈ packages <;> simp [inner, imports, hu, hv]
    have hstep : counted packages (edges ++ [(u, v)]) =
        countImport packages (counted packages edges) (u, v) := by
      simp [counted]
    obtain ⟨hdegree, hreverse⟩ := ih
    rw [hstep, countImport]
    split_ifs with hv
    · simp only [himports, hv, and_true]
      refine ⟨fun p => ?_, fun d => ?_⟩
      · rw [lookup_insert_eq, hdegree, hdegree]
        by_cases hp : p = u
        · by_cases hin : p ∈ packages ∨ inner packages edges p ≠ [] <;> simp_all
        · simp [hp, Ne.symm hp]
      · rw [lookup_insert_eq]
        by_cases hd : d = v
        · subst hd
          refine ⟨by simpa using (hreverse d).1.insert, fun p => ?_⟩
          rw [if_pos rfl, Option.getD_some, mem_insert_iff, (hreverse d).2]
          by_cases hp : u = p <;> simp [hp, eq_comm]
        · rw [if_neg hd]
          refine ⟨(hreverse d).1, fun p => ?_⟩
          rw [(hreverse d).2]
          by_cases hp : u = p <;> simp [hp, hd]
    · simp only [himports, hv, and_false, if_false, append_nil]
      exact ⟨hdegree, hreverse⟩

theorem mem_keys : p ∈ (counted packages edges).1.keys ↔
    p ∈ packages ∨ inner packages edges p ≠ [] := by
  rw [← AList.mem_keys, ← AList.lookup_isSome, (counted_spec packages edges).1]
  split <;> simp [*]

theorem inner_nodup (hedges : edges.Nodup) (p : String) : (inner packages edges p).Nodup := by
  refine Nodup.filter _ (Nodup.map_on ?_ (hedges.filter _))
  intro e he e' he' heq
  rw [mem_filter, decide_eq_true_eq] at he he'
  exact Prod.ext (he.2.trans he'.2.symm) heq

/-- The queue at the start. -/
theorem turn_counted (hvisit : ∀ l, (visit l).Perm l) :
    Turn (counted packages edges).1.keys (inner packages edges) (counted packages edges).1
      (sorted ((visit (counted packages edges).1.keys).filter fun p =>
        (counted packages edges).1.lookup p = some 0)) [] where
  degree x hx := by
    rw [(counted_spec packages edges).1, if_pos (mem_keys.1 hx)]
    simp
  nodup := by
    rw [nil_append, (sorted_perm _).nodup_iff]
    exact ((hvisit _).nodup_iff.2 (AList.keys_nodup _)).filter _
  free x := by
    rw [nil_append, (sorted_perm _).mem_iff, mem_filter, (hvisit _).mem_iff,
      (counted_spec packages edges).1]
    refine and_congr_right fun hx => ?_
    simp [if_pos (mem_keys.1 hx), eq_nil_iff_forall_not_mem]
  ordered := by
    intro l₁ x l₂ heq
    exact absurd heq (by simp)

theorem inverts_counted (hvisit : ∀ l, (visit l).Perm l) :
    Inverts (counted packages edges).1.keys (inner packages edges)
      fun p => visit (((counted packages edges).2.lookup p).getD []) := by
  intro x
  obtain ⟨hnodup, hmem⟩ := (counted_spec packages edges).2 x
  refine ⟨(hvisit _).nodup_iff.2 hnodup, fun y => ?_⟩
  rw [(hvisit _).mem_iff, hmem, mem_keys]
  exact ⟨fun h => ⟨.inr (ne_nil_of_mem h), h⟩, fun h => h.2⟩

theorem length_keys_le : (counted packages edges).1.keys.length ≤ packages.length + edges.length := by
  have hsub : (counted packages edges).1.keys ⊆ packages ++ edges.map (·.1) := by
    intro p hp
    rcases mem_keys.1 hp with hp | hp
    · exact mem_append_left _ hp
    · obtain ⟨d, -, hd⟩ := inner_ne_nil.1 hp
      exact mem_append_right _ (mem_map_of_mem hd)
  simpa using ((AList.keys_nodup _).subperm hsub).length_le

/-- **The order of the packages without cycles.** Every package of the set is in it once, behind
what it imports; the finalisation order is its reverse; and no other order of the sets and maps
changes either. -/
theorem initOrder_of_acyclic (hedges : edges.Nodup) (hvisit : ∀ l, (visit l).Perm l) :
    ((detectImportCycles edges).isSome ↔ ∃ p, Circular edges p) ∧ (detectImportCycles edges = none →
      let m := computeInitializationOrder visit packages edges
      m.initOrder.Nodup ∧ (∀ p, p ∈ m.initOrder ↔ p ∈ packages ∨ ∃ d ∈ packages, (p, d) ∈ edges) ∧
      (∀ l₁ p l₂, m.initOrder = l₁ ++ p :: l₂ → ∀ d ∈ packages, (p, d) ∈ edges → d ∈ l₁) ∧
      m.deinitOrder = m.initOrder.reverse ∧
      ∀ packages' edges' visit', packages'.Perm packages → edges'.Perm edges →
        (∀ l, (visit' l).Perm l) → let m' := computeInitializationOrder visit' packages' edges'
        m'.initOrder = m.initOrder ∧ m'.deinitOrder = m.deinitOrder) := by
  refine ⟨isSome_detectImportCycles edges, fun hnone => ?_⟩
  have hacyclic : Acyclic (imports edges) := by
    intro p hp
    have := (isSome_detectImportCycles edges).2 ⟨p, hp⟩
    rw [hnone] at this
    cases this
  obtain ⟨degree, hturn⟩ := initLoop_turn (inverts_counted hvisit) (inner_nodup hedges)
    (packages.length + edges.length) length_keys_le (turn_counted hvisit)
  have hmem : ∀ p, p ∈ (computeInitializationOrder visit packages edges).initOrder ↔
      p ∈ packages ∨ inner packages edges p ≠ [] := by
    intro p
    rw [← mem_keys]
    have hfree := hturn.free
    simp only [List.append_nil] at hfree
    refine ⟨fun hp => ((hfree p).1 hp).1, mem_of_acyclic hfree (fun x _ d hd => ?_)
      (hacyclic.subset fun x => List.filter_subset_self ..)⟩
    exact mem_keys.2 (.inl (mem_inner.1 hd).2)
  have hnodup := hturn.nodup
  rw [List.append_nil] at hnodup
  refine ⟨hnodup, fun p => ?_, fun l₁ p l₂ heq d hd he => ?_, rfl, ?_⟩
  · rw [hmem, inner_ne_nil]
  · exact hturn.ordered l₁ p l₂ heq d (mem_inner.2 ⟨he, hd⟩)
  · intro packages' edges' visit' hp he hvisit'
    have hinner : ∀ x d, d ∈ inner packages' edges' x ↔ d ∈ inner packages edges x := fun x d => by
      rw [mem_inner, mem_inner, he.mem_iff, hp.mem_iff]
    have hsame : ∀ x, x ∈ (counted packages' edges').1.keys ↔ x ∈ (counted packages edges).1.keys := by
      intro x
      simp only [mem_keys, inner_ne_nil, hp.mem_iff, he.mem_iff]
    have heq := initLoop_congr (inverts_counted hvisit') (inner_nodup (he.nodup_iff.2 hedges))
      (inverts_counted hvisit) (inner_nodup hedges) hsame hinner
      (packages.length + edges.length) (turn_counted hvisit') (turn_counted hvisit)
      (pairwise_sorted _) (pairwise_sorted _)
    rw [← hp.length_eq, ← he.length_eq] at heq
    have hinit : (computeInitializationOrder visit' packages' edges').initOrder =
        (computeInitializationOrder visit packages edges).initOrder := by
      simp only [computeInitializationOrder]
      rw [heq, hp.length_eq, he.length_eq]
    exact ⟨hinit, congrArg List.reverse hinit⟩

theorem initOrder_of_acyclic_two :
    (computeInitializationOrder id ["app", "lib"] [("app", "lib")]).initOrder.Nodup :=
  ((initOrder_of_acyclic (by decide) fun _ => .refl _).2 (by decide +kernel)).1

end

end Arth.Resolve
