import Arth.Driver.DepGraph
import Arth.Lib.DepthFirst

/-!
# Cycles of imports

The builder of the dependency graph, with all its calls, and the search for a cycle of imports
in the graph that it makes. The nodes' files and fingerprints are left out; no search reads them.

* `has_built` — the graph has the packages that were added and the imports among them.
* `cycles_agree` — the topological order and the search for a cycle agree on every graph.
-/

namespace Arth.Driver

open KeyTable Worklist Relation List

namespace DepGraph

/-- `add_node`: whatever node the package had is replaced. -/
def insertNode (g : DepGraph) (package : String) (node : DepNode) : DepGraph :=
  { g with nodes := g.nodes.insert package node }

/-- The order of a `BTreeMap` or `BTreeSet` of names. -/
def inOrder (l : List String) : List String := l.mergeSort fun a b => decide (a ≤ b)

/-- `detect_cycle`: a path that ends in a cycle, if there is one. -/
def detectCycle (g : DepGraph) : Option (List String) :=
  DepthFirst.findCycle (inOrder g.packages) fun x => inOrder (g.innerDependencies x)

end DepGraph

structure DepGraphBuilder where
  nodes : Table String DepNode
  edges : List (String × String)

namespace DepGraphBuilder

def new : DepGraphBuilder := ⟨∅, []⟩

/-- A package that is there already stays as it is. -/
def addPackage (b : DepGraphBuilder) (name : String) : DepGraphBuilder :=
  match b.nodes.lookup name with
  | some _ => b
  | none => { b with nodes := b.nodes.insert name ⟨[], []⟩ }

/-- A package that is there already is replaced. -/
def addPackageWithFingerprint (b : DepGraphBuilder) (name : String) : DepGraphBuilder :=
  { b with nodes := b.nodes.insert name ⟨[], []⟩ }

def addImport (b : DepGraphBuilder) (src dst : String) : DepGraphBuilder :=
  { b with edges := b.edges ++ [(src, dst)] }

def build (b : DepGraphBuilder) : DepGraph :=
  let graph := b.nodes.entries.foldl (fun g e => g.insertNode e.1 e.2) DepGraph.new
  (b.edges.foldl DepGraph.addEdge graph).computeBuildOrder

end DepGraphBuilder

/-- The calls of the builder. `add_file` changes only the files of a node. -/
inductive BuilderCall where
  | addPackage (name : String)
  | addPackageWithFingerprint (name : String)
  | addFile (package : String)
  | addImport (src dst : String)

namespace BuilderCall

def run (b : DepGraphBuilder) : BuilderCall → DepGraphBuilder
  | addPackage name => b.addPackage name
  | addPackageWithFingerprint name => b.addPackageWithFingerprint name
  | addFile _ => b
  | addImport src dst => b.addImport src dst

/-- The graph of a new builder after the calls. -/
def built (calls : List BuilderCall) : DepGraph := (calls.foldl run DepGraphBuilder.new).build

/-! ## What the calls say -/

def Adds (calls : List BuilderCall) (x : String) : Prop :=
  .addPackage x ∈ calls ∨ .addPackageWithFingerprint x ∈ calls

/-- An import among the packages that were added. -/
def Imports (calls : List BuilderCall) (x y : String) : Prop :=
  .addImport x y ∈ calls ∧ Adds calls x ∧ Adds calls y

/-- The builder holds what the calls say, and its nodes list nothing yet. -/
structure Holds (calls : List BuilderCall) (b : DepGraphBuilder) : Prop where
  nodes : ∀ x, (b.nodes.lookup x).isSome = true ↔ Adds calls x
  empty : ∀ x n, b.nodes.lookup x = some n → n = ⟨[], []⟩
  edges : ∀ x y, (x, y) ∈ b.edges ↔ .addImport x y ∈ calls

variable {calls : List BuilderCall} {b : DepGraphBuilder}

theorem holds_insert (h : Holds calls b) {call : BuilderCall} {name : String}
    (hadds : ∀ x, Adds (calls ++ [call]) x ↔ x = name ∨ Adds calls x)
    (himport : ∀ x y, call ≠ .addImport x y) :
    Holds (calls ++ [call]) { b with nodes := b.nodes.insert name ⟨[], []⟩ } := by
  refine ⟨fun x => ?_, fun x n hn => ?_, fun x y => ?_⟩
  · rw [hadds, lookup_insert_eq, ← h.nodes]
    split_ifs with hx
    · simp [hx]
    · simp [hx]
  · rw [lookup_insert_eq] at hn
    split at hn
    · cases hn
      rfl
    · exact h.empty x n hn
  · rw [h.edges, mem_append, mem_singleton]
    exact (or_iff_left (himport x y).symm).symm

theorem holds_run (h : Holds calls b) (call : BuilderCall) :
    Holds (calls ++ [call]) (run b call) := by
  cases call with
  | addPackage name =>
    have hadds : ∀ x, Adds (calls ++ [addPackage name]) x ↔ x = name ∨ Adds calls x := by
      intro x
      simp [Adds]
      tauto
    rw [run, DepGraphBuilder.addPackage]
    split
    · rename_i n hn
      have hname : Adds calls name := (h.nodes name).1 (by rw [hn]; rfl)
      refine ⟨fun x => ?_, h.empty, fun x y => by simp [h.edges]⟩
      rw [h.nodes, hadds]
      refine ⟨.inr, ?_⟩
      rintro (rfl | hx)
      · exact hname
      · exact hx
    · exact holds_insert h hadds fun x y => nofun
  | addPackageWithFingerprint name =>
    refine holds_insert h (fun x => ?_) fun x y => nofun
    simp [Adds]
    tauto
  | addFile package =>
    exact ⟨fun x => by simp [run, h.nodes, Adds], h.empty, fun x y => by simp [run, h.edges]⟩
  | addImport src dst =>
    refine ⟨fun x => ?_, h.empty, fun x y => ?_⟩
    · rw [run, DepGraphBuilder.addImport, h.nodes]
      simp [Adds]
    · simp [run, DepGraphBuilder.addImport, h.edges]

theorem holds_foldl (calls : List BuilderCall) :
    Holds calls (calls.foldl run DepGraphBuilder.new) := by
  induction calls using List.reverseRecOn with
  | nil =>
    exact ⟨fun x => by simp [Adds, DepGraphBuilder.new],
      fun x n hn => by simp [DepGraphBuilder.new] at hn, fun x y => by simp [DepGraphBuilder.new]⟩
  | append_singleton calls call ih =>
    rw [foldl_append]
    exact holds_run ih call

theorem lookup_insertNodes (entries : List (Sigma fun _ : String => DepNode))
    (hkeys : entries.NodupKeys) (g : DepGraph) (x : String) :
    (entries.foldl (fun g e => g.insertNode e.1 e.2) g).nodes.lookup x =
      (entries.dlookup x).or (g.nodes.lookup x) := by
  induction entries generalizing g with
  | nil => rfl
  | cons e entries ih =>
    obtain ⟨k, n⟩ := e
    have hk := nodupKeys_cons.1 hkeys
    rw [foldl_cons, ih hk.2, DepGraph.insertNode, lookup_insert_eq]
    by_cases hx : x = k
    · subst hx
      rw [dlookup_cons_eq, dlookup_eq_none.2 hk.1, if_pos rfl]
      rfl
    · rw [dlookup_cons_ne _ _ hx, if_neg hx]

/-- **The graph has what the calls say**: the packages that were added, and their imports. -/
theorem has_built (calls : List BuilderCall) :
    (built calls).Has (calls.foldl run DepGraphBuilder.new).nodes.keys
      (calls.foldl run DepGraphBuilder.new).edges := by
  have h := holds_foldl calls
  set b := calls.foldl run DepGraphBuilder.new with hb
  have hlookup : ∀ x, (b.nodes.entries.foldl (fun g e => g.insertNode e.1 e.2)
      DepGraph.new).nodes.lookup x = b.nodes.lookup x := by
    intro x
    rw [lookup_insertNodes _ b.nodes.nodupKeys]
    exact Option.or_none
  have hnone : ∀ x, ((b.nodes.lookup x).map DepNode.dependencies).getD [] = [] ∧
      ((b.nodes.lookup x).map DepNode.dependents).getD [] = [] := by
    intro x
    cases hx : b.nodes.lookup x with
    | none => exact ⟨rfl, rfl⟩
    | some n =>
      rw [h.empty x n hx]
      exact ⟨rfl, rfl⟩
  have hstart : (b.nodes.entries.foldl (fun g e => g.insertNode e.1 e.2) DepGraph.new).Has
      b.nodes.keys [] := by
    refine ⟨fun x => ?_, fun x y => ?_, fun x y => ?_, fun x => ?_⟩
    · rw [DepGraph.mem_packages, hlookup, AList.lookup_isSome]
      exact AList.mem_keys
    · rw [DepGraph.dependenciesOf, hlookup, (hnone x).1]
      simp
    · rw [DepGraph.dependentsOf, hlookup, (hnone x).2]
      simp
    · rw [DepGraph.dependenciesOf, hlookup, (hnone x).1]
      exact .nil
  exact (hstart.addEdges b.edges).computeBuildOrder

theorem mem_keys_iff (calls : List BuilderCall) (x : String) :
    x ∈ (calls.foldl run DepGraphBuilder.new).nodes.keys ↔ Adds calls x := by
  rw [← (holds_foldl calls).nodes, AList.lookup_isSome]
  exact AList.mem_keys.symm

theorem mem_innerDependencies_iff (calls : List BuilderCall) (x y : String) :
    y ∈ (built calls).innerDependencies x ↔ Imports calls x y := by
  have h := has_built calls
  rw [DepGraph.innerDependencies, mem_filter, h.dependencies, decide_eq_true_iff, h.packages,
    mem_keys_iff, mem_keys_iff, (holds_foldl calls).edges, Imports]
  tauto

theorem acyclic_iff (calls : List BuilderCall) :
    Acyclic (built calls).innerDependencies ↔ ∀ x, ¬ TransGen (Imports calls) x x := by
  have hedge : (fun a b => b ∈ (built calls).innerDependencies a) = Imports calls := by
    funext a b
    exact propext (mem_innerDependencies_iff calls a b)
  rw [Acyclic, hedge]

/-- **The order and the search agree.** There is an order of the packages just when their
imports have no cycle, and just when no cycle is found; the order has every package once and
after what it imports, and what is found ends in a cycle of imports. -/
theorem cycles_agree (calls : List BuilderCall) :
    ((built calls).topologicalSort.isSome = true ↔ ∀ x, ¬ TransGen (Imports calls) x x) ∧
    ((built calls).detectCycle = none ↔ ∀ x, ¬ TransGen (Imports calls) x x) ∧
    (∀ order, (built calls).topologicalSort = some order →
      order.Nodup ∧ (∀ x, x ∈ order ↔ Adds calls x) ∧
      ∀ before x after, order = before ++ x :: after → ∀ y, Imports calls x y → y ∈ before) ∧
    ∀ path, (built calls).detectCycle = some path →
      ∃ way x cycle, path = way ++ x :: (cycle ++ [x]) ∧
        (x :: (cycle ++ [x])).IsChain (Imports calls) := by
  have h := has_built calls
  have hmem : ∀ x y, y ∈ DepGraph.inOrder ((built calls).innerDependencies x) ↔
      Imports calls x y := by
    intro x y
    rw [DepGraph.inOrder, List.mem_mergeSort, mem_innerDependencies_iff]
  have hnode : ∀ x, x ∈ DepGraph.inOrder (built calls).packages ↔ Adds calls x := by
    intro x
    rw [DepGraph.inOrder, List.mem_mergeSort, h.packages, mem_keys_iff]
  have hedge : (fun a b => b ∈ DepGraph.inOrder ((built calls).innerDependencies a)) =
      Imports calls := by
    funext a b
    exact propext (hmem a b)
  refine ⟨?_, ?_, fun order horder => ?_, fun path hpath => ?_⟩
  · rw [DepGraph.topologicalSort_isSome_iff h, acyclic_iff]
  · rw [DepGraph.detectCycle, DepthFirst.findCycle_eq_none_iff
      (fun x d hd => (hnode x).2 ((hmem x d).1 hd).2.1)
      (fun x d hd => (hnode d).2 ((hmem x d).1 hd).2.2), Acyclic, hedge]
  · obtain ⟨hnodup, hall, hordered⟩ := DepGraph.topologicalSort_spec h horder
    refine ⟨hnodup, fun x => (hall x).trans (mem_keys_iff calls x), ?_⟩
    intro before x after heq y hy
    exact hordered before x after heq y ((mem_innerDependencies_iff calls x y).2 hy)
  · have hends := DepthFirst.ends_of_findCycle
      (fun x _ d hd => (hnode d).2 ((hmem x d).1 hd).2.2) hpath
    unfold DepthFirst.EndsInCycle at hends
    rw [hedge] at hends
    exact hends

end BuilderCall

end Arth.Driver
