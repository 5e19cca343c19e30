import Arth.Driver.ImportCycles
import Arth.Lib.Runs

/-!
# What a change invalidates

A graph is built, and then nodes and edges are added to it. The forward and the backward edges of
the nodes are two sets of their own, and what a change invalidates is read off the backward ones.

* `Mirrored` — among the packages, one set mirrors the other.
* `mirrored_next_iff` — which calls keep that.
* `invalidated_run` — in runs of such calls a change invalidates just what imports it.
-/

namespace Arth.Driver

open KeyTable Worklist Relation Runs List Option

namespace DepGraph

/-- `transitive_dependencies`: what a package imports, directly or not. -/
def transitiveDependencies (g : DepGraph) (package : String) : List String :=
  let turns := (g.dependenciesOf package).length +
    (g.packages.map fun x => (g.dependenciesOf x).length).sum
  collect g.dependenciesOf turns ([], g.dependenciesOf package)

/-- A call on a graph that has been built. -/
inductive Call where
  | addNode (package : String) (node : DepNode)
  | addEdge (src dst : String)

def next (g : DepGraph) : Call → Option DepGraph
  | .addNode package node => some (g.insertNode package node)
  | .addEdge src dst => some (g.addEdge (src, dst))

/-- A change of some packages invalidates them and the packages that import one of them. -/
def Exact (g : DepGraph) : Prop :=
  (∀ changed, changed ⊆ g.packages → ∀ p ∈ g.packages, p ∈ g.invalidatedBy changed ↔
    p ∈ changed ∨ ∃ q ∈ changed, q ∈ g.transitiveDependencies p) ∧
  ∀ p ∈ g.packages, ∀ q ∈ g.packages,
    p ∈ g.invalidatedBy [q] ↔ p = q ∨ q ∈ g.transitiveDependencies p

/-- A package lists an import just when the imported package lists the importer. -/
def Mirrored (g : DepGraph) : Prop :=
  ∀ p ∈ g.packages, ∀ q ∈ g.packages, q ∈ g.dependenciesOf p ↔ p ∈ g.dependentsOf q

/-- A node that is put in lists of the packages just those that list it, on either side. -/
def Agrees (g : DepGraph) : Call → Prop
  | .addNode package node =>
    (package ∈ node.dependencies ↔ package ∈ node.dependents) ∧
    ∀ q ∈ g.packages, q ≠ package →
      (q ∈ node.dependencies ↔ package ∈ g.dependentsOf q) ∧
      (q ∈ node.dependents ↔ package ∈ g.dependenciesOf q)
  | .addEdge _ _ => True

instance (g : DepGraph) : DecidablePred g.Agrees
  | .addNode _ _ => inferInstanceAs (Decidable (_ ∧ _))
  | .addEdge _ _ => inferInstanceAs (Decidable True)

variable {g g' : DepGraph} {p q x y : String}

/-! ## The two closures -/

theorem mem_packages_of_dependency (h : y ∈ g.dependenciesOf x) : x ∈ g.packages := by
  unfold dependenciesOf at h
  rw [mem_packages]
  cases hx : g.nodes.lookup x with
  | none => simp [hx] at h
  | some n => rfl

theorem mem_packages_of_dependent (h : y ∈ g.dependentsOf x) : x ∈ g.packages := by
  unfold dependentsOf at h
  rw [mem_packages]
  cases hx : g.nodes.lookup x with
  | none => simp [hx] at h
  | some n => rfl

theorem mem_transitiveDependencies_iff :
    y ∈ g.transitiveDependencies x ↔ TransGen (fun a b => b ∈ g.dependenciesOf a) x y := by
  rw [transitiveDependencies, mem_collect_iff _ g.packages _ (fun z hz => ?_) le_rfl,
    TransGen.head'_iff]
  obtain ⟨d, hd⟩ := exists_mem_of_ne_nil _ hz
  exact mem_packages_of_dependency hd

theorem Mirrored.reaches (h : g.Mirrored) (hp : p ∈ g.packages)
    (hreach : ReflTransGen (fun a b => b ∈ g.dependentsOf a) q p) :
    ReflTransGen (fun a b => b ∈ g.dependenciesOf a) p q := by
  induction hreach with
  | refl => exact .refl
  | tail _ hedge ih =>
    have hmid := mem_packages_of_dependent hedge
    exact .head ((h _ hp _ hmid).2 hedge) (ih hmid)

theorem Mirrored.reached (h : g.Mirrored) (hq : q ∈ g.packages)
    (hreach : ReflTransGen (fun a b => b ∈ g.dependenciesOf a) p q) :
    ReflTransGen (fun a b => b ∈ g.dependentsOf a) q p := by
  induction hreach with
  | refl => exact .refl
  | tail _ hedge ih =>
    have hmid := mem_packages_of_dependency hedge
    exact .head ((h _ hmid _ hq).1 hedge) (ih hmid)

theorem Mirrored.mem_invalidatedBy_iff (h : g.Mirrored) {changed : List String}
    (hchanged : changed ⊆ g.packages) (hp : p ∈ g.packages) : p ∈ g.invalidatedBy changed ↔
      p ∈ changed ∨ ∃ q ∈ changed, q ∈ g.transitiveDependencies p := by
  rw [DepGraph.mem_invalidatedBy_iff]
  constructor
  · rintro ⟨q, hq, hreach⟩
    rcases reflTransGen_iff_eq_or_transGen.1 (h.reaches hp hreach) with rfl | htrans
    · exact .inl hq
    · exact .inr ⟨q, hq, mem_transitiveDependencies_iff.2 htrans⟩
  · rintro (hmem | ⟨q, hq, htrans⟩)
    · exact ⟨p, hmem, .refl⟩
    · refine ⟨q, hq, h.reached (hchanged hq) ?_⟩
      exact (mem_transitiveDependencies_iff.1 htrans).to_reflTransGen

theorem Mirrored.exact (h : g.Mirrored) : g.Exact := by
  refine ⟨fun changed hchanged p hp => h.mem_invalidatedBy_iff hchanged hp, fun p hp q hq => ?_⟩
  rw [h.mem_invalidatedBy_iff (cons_subset.2 ⟨hq, nil_subset _⟩) hp]
  simp only [mem_singleton, exists_eq_left]

/-! ## The calls -/

theorem Has.mirrored {ps : List String} {edges : List (String × String)} (h : g.Has ps edges) :
    g.Mirrored := by
  intro p hp q hq
  rw [h.dependencies, h.dependents, ← h.packages, ← h.packages]
  exact and_congr_left fun _ => iff_of_true hp hq

theorem Mirrored.addEdge (h : g.Mirrored) (src dst : String) : (g.addEdge (src, dst)).Mirrored := by
  have hpackages : ∀ x, x ∈ (g.addEdge (src, dst)).packages ↔ x ∈ g.packages := by
    intro x
    rw [mem_packages, mem_packages, lookup_addEdge, isSome_map]
  intro p hp q hq
  rw [hpackages] at hp hq
  have hold := h p hp q hq
  rw [mem_packages] at hp hq
  obtain ⟨m, hm⟩ := isSome_iff_exists.1 hp
  obtain ⟨n, hn⟩ := isSome_iff_exists.1 hq
  simp only [dependenciesOf, dependentsOf, hm, hn, map_some, getD_some] at hold
  simp only [dependenciesOf, dependentsOf, lookup_addEdge, hm, hn, map_some, getD_some]
  by_cases hsrc : p = src <;> by_cases hdst : q = dst
  · -- the pair of the edge is listed on both sides
    simp [hsrc, hdst]
  · simpa [hsrc, hdst] using hsrc ▸ hold
  · simpa [hsrc, hdst] using hdst ▸ hold
  · simpa [hsrc, hdst] using hold

/-- **Which nodes may be put in**: a graph stays mirrored just when the node agrees with it. -/
theorem mirrored_insertNode_iff (h : g.Mirrored) (package : String) (node : DepNode) :
    (g.insertNode package node).Mirrored ↔ g.Agrees (.addNode package node) := by
  -- only the record of the package changes, so only its own edges can lose their mirror
  have hlookup : ∀ x, (g.insertNode package node).nodes.lookup x =
      if x = package then some node else g.nodes.lookup x :=
    fun x => lookup_insert_eq _ _ _ _
  have hpackages : ∀ x, x ∈ (g.insertNode package node).packages ↔
      x = package ∨ x ∈ g.packages := by
    intro x
    rw [mem_packages, mem_packages, hlookup]
    split_ifs with hx
    · simp [hx]
    · simp [hx]
  have hself : (g.insertNode package node).dependenciesOf package = node.dependencies ∧
      (g.insertNode package node).dependentsOf package = node.dependents := by
    rw [dependenciesOf, dependentsOf, hlookup, if_pos rfl]
    exact ⟨rfl, rfl⟩
  have hother : ∀ x, x ≠ package →
      (g.insertNode package node).dependenciesOf x = g.dependenciesOf x ∧
      (g.insertNode package node).dependentsOf x = g.dependentsOf x := by
    intro x hx
    rw [dependenciesOf, dependentsOf, hlookup, if_neg hx]
    exact ⟨rfl, rfl⟩
  constructor
  · intro hm
    have hnew := (hpackages package).2 (.inl rfl)
    refine ⟨?_, fun q hq hne => ?_⟩
    · have := hm package hnew package hnew
      rwa [hself.1, hself.2] at this
    · have hq' := (hpackages q).2 (.inr hq)
      have hto := hm package hnew q hq'
      have hfrom := hm q hq' package hnew
      rw [hself.1, (hother q hne).2] at hto
      rw [(hother q hne).1, hself.2] at hfrom
      exact ⟨hto, hfrom.symm⟩
  · rintro ⟨hloop, hagree⟩ p hp q hq
    rw [hpackages] at hp hq
    by_cases hpn : p = package <;> by_cases hqn : q = package
    · rw [hpn, hqn, hself.1, hself.2]
      exact hloop
    · rw [hpn, hself.1, (hother q hqn).2]
      exact (hagree q (hq.resolve_left hqn) hqn).1
    · rw [hqn, hself.2, (hother p hpn).1]
      exact (hagree p (hp.resolve_left hpn) hpn).2.symm
    · rw [(hother p hpn).1, (hother q hqn).2]
      exact h p (hp.resolve_left hpn) q (hq.resolve_left hqn)

theorem mirrored_next_iff (h : g.Mirrored) {call : Call} (hnext : g.next call = some g') :
    g'.Mirrored ↔ g.Agrees call := by
  cases call with
  | addNode package node =>
    cases hnext
    exact mirrored_insertNode_iff h package node
  | addEdge src dst =>
    cases hnext
    exact iff_of_true (h.addEdge src dst) trivial

/-- **What a change invalidates.** In every graph of a run from a built graph whose calls agree
with the graph they are made on, a change invalidates just the packages that import it. -/
theorem invalidated_run (builder : List BuilderCall) (calls : List Call)
    (h : Along next Agrees (BuilderCall.built builder) calls) :
    Always next Exact (BuilderCall.built builder) calls := by
  refine Always.mono (fun _ => Mirrored.exact) ?_
  exact always_of_along (fun g call g' hg hagrees hnext => (mirrored_next_iff hg hnext).2 hagrees)
    (BuilderCall.has_built builder).mirrored h

/-- Two packages, the second one importing the first. -/
def twoPackages : List BuilderCall :=
  [.addPackage "lib", .addPackage "app", .addImport "app" "lib"]

theorem invalidated_third : Always next Exact (BuilderCall.built twoPackages)
    [.addNode "test" ⟨[], []⟩, .addEdge "test" "app"] :=
  invalidated_run twoPackages _ (by decide)

theorem replaced_missed : ¬ Always next Exact (BuilderCall.built twoPackages)
    [.addNode "lib" ⟨[], []⟩] := by
  intro h
  have hexact := (h.2 _ rfl).2 "app" (by decide) "lib" (by decide)
  exact absurd (hexact.2 (.inr (by decide))) (by decide)

end DepGraph

end Arth.Driver
