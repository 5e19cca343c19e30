import Arth.Lib.Worklist

/-!
# The dependency graph

A node for each package, with the packages it imports and the packages that import it. The
graph orders the packages for a build, and says which packages a change reaches. A set is
listed in any order here, where the compiler lists it sorted.

* `mem_buildOrder`, `buildOrder_ordered` — the build order of a graph without cycles.
* `mem_invalidatedBy_iff` — the changed packages and all that depend on them.
-/

namespace Arth.Driver

open KeyTable Worklist Relation List

structure DepNode where
  dependencies : List String
  dependents : List String

structure DepGraph where
  nodes : Table String DepNode
  buildOrder : List String

namespace DepGraph

def new : DepGraph := ⟨∅, []⟩

def addNode (g : DepGraph) (package : String) : DepGraph :=
  { g with nodes := g.nodes.insert package ⟨[], []⟩ }

def DepNode.addDependency (n : DepNode) (package : String) : DepNode :=
  { n with dependencies := n.dependencies.insert package }

def DepNode.addDependent (n : DepNode) (package : String) : DepNode :=
  { n with dependents := n.dependents.insert package }

/-- The first package of the edge imports the second one. -/
def addEdge (g : DepGraph) (edge : String × String) : DepGraph :=
  let nodes := modifyAt edge.1 (DepNode.addDependency · edge.2) g.nodes
  { g with nodes := modifyAt edge.2 (DepNode.addDependent · edge.1) nodes }

def packages (g : DepGraph) : List String := g.nodes.keys

def dependenciesOf (g : DepGraph) (package : String) : List String :=
  ((g.nodes.lookup package).map DepNode.dependencies).getD []

def dependentsOf (g : DepGraph) (package : String) : List String :=
  ((g.nodes.lookup package).map DepNode.dependents).getD []

/-- The dependencies that are packages of the graph. -/
def innerDependencies (g : DepGraph) (package : String) : List String :=
  (g.dependenciesOf package).filter (· ∈ g.packages)

/-- Kahn's algorithm; there is no order if there is a cycle. -/
def topologicalSort (g : DepGraph) : Option (List String) :=
  let result := kahnOrder g.packages g.innerDependencies
  if result.length = g.packages.length then some result else none

def computeBuildOrder (g : DepGraph) : DepGraph :=
  { g with buildOrder := g.topologicalSort.getD g.buildOrder }

/-- `DepGraphBuilder::build`. -/
def build (packages : List String) (edges : List (String × String)) : DepGraph :=
  (edges.foldl addEdge (packages.foldl addNode new)).computeBuildOrder

/-- The changed packages, and whatever depends on one of them. -/
def invalidatedBy (g : DepGraph) (changed : List String) : List String :=
  visit g.dependentsOf (changed.length + (g.packages.flatMap g.dependentsOf).length)
    (changed, changed)

variable {g : DepGraph} {x y : String} {edges : List (String × String)} {ps : List String}

/-- The nodes are the packages, and their sets are those of the edges. -/
structure Has (g : DepGraph) (ps : List String) (edges : List (String × String)) : Prop where
  packages : ∀ x, x ∈ g.packages ↔ x ∈ ps
  dependencies : ∀ x y, y ∈ g.dependenciesOf x ↔ x ∈ ps ∧ (x, y) ∈ edges
  dependents : ∀ x y, y ∈ g.dependentsOf x ↔ x ∈ ps ∧ (y, x) ∈ edges
  nodup : ∀ x, (g.dependenciesOf x).Nodup

theorem mem_packages : x ∈ g.packages ↔ (g.nodes.lookup x).isSome = true := by
  rw [AList.lookup_isSome]
  exact AList.mem_keys.symm

theorem lookup_addEdge (edge : String × String) (x : String) :
    (g.addEdge edge).nodes.lookup x = (g.nodes.lookup x).map fun n =>
      { dependencies := if x = edge.1 then n.dependencies.insert edge.2 else n.dependencies
        dependents := if x = edge.2 then n.dependents.insert edge.1 else n.dependents } := by
  unfold addEdge
  rw [lookup_modifyAt, lookup_modifyAt]
  by_cases hfrom : x = edge.1 <;> by_cases hto : x = edge.2 <;> cases hx : g.nodes.lookup x <;>
    simp [hfrom, hto, DepNode.addDependency, DepNode.addDependent] <;> simp_all

theorem Has.addEdge (h : g.Has ps edges)
    (edge : String × String) : (g.addEdge edge).Has ps (edges ++ [edge]) := by
  -- the edge is recorded at its ends that are packages of the graph
  have hnode : ∀ x, (g.nodes.lookup x).isSome = true ↔ x ∈ ps := by
    intro x
    rw [← mem_packages, h.packages]
  have hdeps : ∀ x, (g.addEdge edge).dependenciesOf x =
      if x = edge.1 ∧ x ∈ ps then (g.dependenciesOf x).insert edge.2 else g.dependenciesOf x := by
    intro x
    have hx := hnode x
    unfold dependenciesOf
    rw [lookup_addEdge]
    cases hn : g.nodes.lookup x with
    | none =>
      have hnot : x ∉ ps := by simpa [hn] using hx
      simp [hnot]
    | some n =>
      have hin : x ∈ ps := by simpa [hn] using hx
      by_cases he : x = edge.1
      · rw [if_pos ⟨he, hin⟩]
        simp [he]
      · simp [he]
  have hback : ∀ x, (g.addEdge edge).dependentsOf x =
      if x = edge.2 ∧ x ∈ ps then (g.dependentsOf x).insert edge.1 else g.dependentsOf x := by
    intro x
    have hx := hnode x
    unfold dependentsOf
    rw [lookup_addEdge]
    cases hn : g.nodes.lookup x with
    | none =>
      have hnot : x ∉ ps := by simpa [hn] using hx
      simp [hnot]
    | some n =>
      have hin : x ∈ ps := by simpa [hn] using hx
      by_cases he : x = edge.2
      · rw [if_pos ⟨he, hin⟩]
        simp [he]
      · simp [he]
  obtain ⟨a, b⟩ := edge
  refine ⟨fun x => ?_, fun x y => ?_, fun x y => ?_, fun x => ?_⟩
  · rw [mem_packages, lookup_addEdge, Option.isSome_map, hnode]
  · rw [hdeps]
    have := h.dependencies x y
    split_ifs with hx
    · rw [mem_insert_iff, this]
      simp [hx.1, hx.1 ▸ hx.2, or_comm]
    · rw [this]
      simp only [mem_append, mem_singleton, Prod.mk.injEq]
      tauto
  · rw [hback]
    have := h.dependents x y
    split_ifs with hx
    · rw [mem_insert_iff, this]
      simp [hx.1, hx.1 ▸ hx.2, or_comm]
    · rw [this]
      simp only [mem_append, mem_singleton, Prod.mk.injEq]
      tauto
  · rw [hdeps]
    split
    · exact (h.nodup x).insert
    · exact h.nodup x

theorem has_addNodes (ps : List String) : (ps.foldl addNode new).Has ps [] := by
  -- a node added twice still has no edges
  have hlookup : ∀ (ps : List String) (g : DepGraph) x, (ps.foldl addNode g).nodes.lookup x =
      if x ∈ ps then some ⟨[], []⟩ else g.nodes.lookup x := by
    intro ps
    induction ps with
    | nil => simp
    | cons p ps ih =>
      intro g x
      rw [foldl_cons, ih, addNode, lookup_insert_eq]
      by_cases hp : x = p <;> by_cases hps : x ∈ ps <;> simp [hp, hps]
  have hall := hlookup ps new
  refine ⟨fun x => ?_, fun x y => ?_, fun x y => ?_, fun x => ?_⟩
  · rw [mem_packages, hall]
    by_cases hx : x ∈ ps <;> simp [hx, new]
  · rw [dependenciesOf, hall]
    by_cases hx : x ∈ ps <;> simp [hx, new]
  · rw [dependentsOf, hall]
    by_cases hx : x ∈ ps <;> simp [hx, new]
  · rw [dependenciesOf, hall]
    by_cases hx : x ∈ ps <;> simp [hx, new]

theorem Has.addEdges {old : List (String × String)} (h : g.Has ps old)
    (edges : List (String × String)) : (edges.foldl DepGraph.addEdge g).Has ps (old ++ edges) := by
  induction edges generalizing g old with
  | nil => simpa using h
  | cons edge edges ih => simpa using ih (h.addEdge edge)

theorem Has.computeBuildOrder (h : g.Has ps edges) : g.computeBuildOrder.Has ps edges :=
  ⟨h.packages, h.dependencies, h.dependents, h.nodup⟩

theorem has_build (ps : List String) (edges : List (String × String)) :
    (build ps edges).Has ps edges :=
  ((has_addNodes ps).addEdges edges).computeBuildOrder

theorem buildOrder_build {order : List String}
    (hsort : (build ps edges).topologicalSort = some order) :
    (build ps edges).buildOrder = order := by
  have hsort : (edges.foldl addEdge (ps.foldl addNode new)).topologicalSort = some order := hsort
  simp [build, computeBuildOrder, hsort]

/-- **A change reaches just the packages that depend on a changed one.** -/
theorem mem_invalidatedBy_iff (g : DepGraph) (changed : List String) : x ∈ g.invalidatedBy changed ↔
      ∃ s ∈ changed, ReflTransGen (fun a b => b ∈ g.dependentsOf a) s x := by
  refine mem_visit_iff _ _ _ (fun p q hq => ?_) le_rfl
  refine mem_flatMap.2 ⟨p, mem_packages.2 ?_, hq⟩
  unfold dependentsOf at hq
  cases hp : g.nodes.lookup p with
  | none => simp [hp] at hq
  | some n => rfl

section

variable {ps : List String} {edges : List (String × String)} {order : List String}

theorem nodup_inner (h : g.Has ps edges) : ∀ x, (g.innerDependencies x).Nodup :=
  fun x => (h.nodup x).filter _

theorem topologicalSort_spec (h : g.Has ps edges) (hsort : g.topologicalSort = some order) :
    order.Nodup ∧ (∀ x, x ∈ order ↔ x ∈ ps) ∧ Ordered g.innerDependencies order := by
  have hnodes : g.packages.Nodup := g.nodes.nodupKeys
  have hnodup := kahn_nodup hnodes (nodup_inner h)
  have hsub : kahnOrder g.packages g.innerDependencies ⊆ g.packages :=
    fun x hx => ((mem_kahn_iff hnodes (nodup_inner h)).1 hx).1
  unfold topologicalSort at hsort
  simp only at hsort
  split at hsort
  · rename_i hlength
    cases hsort
    refine ⟨hnodup, fun x => ?_, kahn_ordered hnodes (nodup_inner h)⟩
    have hperm := (hnodup.subperm hsub).perm_of_length_le hlength.ge
    rw [hperm.mem_iff, h.packages]
  · cases hsort

theorem topologicalSort_isSome_iff (h : g.Has ps edges) :
    g.topologicalSort.isSome = true ↔ Acyclic g.innerDependencies := by
  have hnodes : g.packages.Nodup := g.nodes.nodupKeys
  have hnodup := kahn_nodup hnodes (nodup_inner h)
  have hinner : ∀ x ∈ g.packages, ∀ d ∈ g.innerDependencies x, d ∈ g.packages :=
    fun x _ d hd => by simpa using (mem_filter.1 hd).2
  constructor
  · intro hsome x hcycle
    obtain ⟨order, horder⟩ := Option.isSome_iff_exists.1 hsome
    have hx : x ∈ order := by
      obtain ⟨d, hd, -⟩ := TransGen.head'_iff.1 hcycle
      have hnode : x ∈ ps := ((h.dependencies x d).1 (mem_filter.1 hd).1).1
      exact ((topologicalSort_spec h horder).2.1 x).2 hnode
    unfold topologicalSort at horder
    simp only at horder
    split at horder
    · cases horder
      exact acyclic_of_mem_kahn hnodes (nodup_inner h) hx hcycle
    · cases horder
  · intro hacyclic
    have hsub : g.packages ⊆ kahnOrder g.packages g.innerDependencies :=
      fun x hx => mem_kahn_of_acyclic hnodes (nodup_inner h) hinner hacyclic hx
    have hsub' : kahnOrder g.packages g.innerDependencies ⊆ g.packages :=
      fun x hx => ((mem_kahn_iff hnodes (nodup_inner h)).1 hx).1
    have hlength := le_antisymm (hnodup.subperm hsub').length_le (hnodes.subperm hsub).length_le
    simp [topologicalSort, hlength]

end

end DepGraph

end Arth.Driver
