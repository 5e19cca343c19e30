import Arth.Driver.DepGraph
import Arth.Driver.ProjectCache

/-!
# Incremental builds

A build opens the cache, asks it about the source of every package, and plans: a package is
compiled again if its source is not the one in its entry or if it depends on a package that is.
Each package compiled is marked in the index, and what was made of it is stored.

* `plan` — what to compile, in which order, and what to take from the cache.
* `markCompiled`, `sessionStore` — the record of one package.
* `Workspace`, `step` — a project under edits and builds. Beside each index on disk it keeps the
  sources that every entry was compiled from.
-/

namespace Arth.Driver

open KeyTable Worklist

/-! ## The plan -/

inductive RecompileReason where
  | notCached
  | sourceChanged
  | dependencyChanged (dependency : String)
  | configChanged
  | cacheCorrupt
  deriving DecidableEq

structure IncrementalPlan where
  recompile : List String
  cached : List String
  buildOrder : List String
  reasons : Table String RecompileReason

/-- The order in which a set gives its elements. -/
structure HashOrder where
  order : List String → List String
  perm : ∀ l, (order l).Perm l

/-- Why a package is compiled again on account of its own source. -/
def firstReason (w : World) (package : String) (f : Fingerprint) : Option RecompileReason :=
  match w.status package f with
  | .hit => if (w.get package).isSome then none else some .notCached
  | .miss => some .notCached
  | .stale => some .sourceChanged
  | .corrupt => some .cacheCorrupt

/-- The place of a package in the build order, the last one if it has none. -/
def orderKey (buildOrder : List String) (package : String) : Nat :=
  if package ∈ buildOrder then buildOrder.idxOf package else 2 ^ 64 - 1

/-- The packages that the first pass finds changed. -/
def changedPackages (w : World) (fingerprints : Table String Fingerprint) : List String :=
  (fingerprints.entries.filter fun e => (firstReason w e.1 e.2).isSome).map (·.1)

/-- `CompileSession::plan`; the second pass takes the dependents of what has changed. -/
def plan (iter : HashOrder) (w : World) (fingerprints : Table String Fingerprint)
    (depGraph : DepGraph) : IncrementalPlan :=
  let hits := (fingerprints.entries.filter fun e => (firstReason w e.1 e.2).isNone).map (·.1)
  let changed := iter.order (changedPackages w fingerprints)
  let first : Table String RecompileReason := fingerprints.entries.foldl
    (fun t e => (firstReason w e.1 e.2).elim t (t.insert e.1)) ∅
  let invalidated := iter.order (depGraph.invalidatedBy changed)
  let reached := invalidated.filter (· ∉ changed)
  let reasons := reached.foldl (fun t p =>
    ((depGraph.dependenciesOf p).find? (· ∈ changed)).elim t
      fun d => t.insert p (.dependencyChanged d)) first
  let recompile := invalidated ++ changed.filter (· ∉ invalidated)
  { recompile := recompile.insertionSort fun p q =>
      orderKey depGraph.buildOrder p ≤ orderKey depGraph.buildOrder q
    cached := hits.filter (· ∉ reached)
    buildOrder := depGraph.buildOrder
    reasons := reasons }

/-- The entry of a package starts without files. -/
def markCompiled (w : World) (package : String) (source : Fingerprint) (now : Nat) : World :=
  w.insert ⟨package, source, now, .none⟩

def temp : Fingerprint := ⟨"temp", by decide +kernel⟩

/-- `CompileSession::store_ir` and `store_bytecode`. -/
def sessionStore (k : ArtifactKind) (w : World) (package : String) (data : Bytes) : World :=
  w.store k package (((w.get package).map CachedPackage.inputFingerprint).getD temp) data

/-! ## A project under edits and builds -/

variable (σ : Type)

/-- The source of a package and the packages it imports. -/
structure PackageSource where
  text : σ
  imports : List String
  deriving DecidableEq

/-- What each package that a package depends on was, or that it was none, when that package was
compiled. -/
abbrev Snapshot := Table String (Option (PackageSource σ))

structure Workspace where
  packages : Table String (PackageSource σ)
  inputs : CompileInputs
  disk : Disk
  built : Table Path (Table String (Snapshot σ))

/-- What of the compiler a build depends on. -/
structure Compiler where
  projectRoot : Path
  iter : HashOrder
  fingerprint : σ → Fingerprint
  compile : String → String → (String → Option (PackageSource σ)) → ArtifactKind → Bytes

/-- An edit leaves another project; a build compiles the packages it names and saves the index,
if it is not killed before. -/
inductive Edit where
  | edit (packages : Table String (PackageSource σ)) (inputs : CompileInputs)
  | build (compiled : List String) (now : Nat) (saved : Bool)

variable {σ}

def importsOf (packages : Table String (PackageSource σ)) (p : String) : List String :=
  ((packages.lookup p).map PackageSource.imports).getD []

/-- What a package depends on, itself included. -/
def reach (packages : Table String (PackageSource σ)) (p : String) : List String :=
  visit (importsOf packages) (1 + (packages.keys.flatMap (importsOf packages)).length) ([p], [p])

def snapshot (packages : Table String (PackageSource σ)) (p : String) : Snapshot σ :=
  tabulate (reach packages p) packages.lookup

/-- The sources in a snapshot. -/
def view (S : Snapshot σ) (q : String) : Option (PackageSource σ) := (S.lookup q).join

/-- The graph of the imports. -/
def graph (packages : Table String (PackageSource σ)) : DepGraph :=
  DepGraph.build packages.keys
    (packages.keys.flatMap fun p => (importsOf packages p).map fun d => (p, d))

namespace Workspace

variable (C : Compiler σ) (s : Workspace σ)

/-- The cache as a build finds it. -/
def session : World := World.openCache s.disk C.projectRoot s.inputs

/-- Where the cache of the present configuration is. -/
def root : Path := cacheRoot C.projectRoot s.inputs

def fingerprintOf (p : String) : Fingerprint :=
  ((s.packages.lookup p).map fun src => C.fingerprint src.text).getD temp

def fingerprints : Table String Fingerprint :=
  tabulate s.packages.keys (s.fingerprintOf C)

def planned : IncrementalPlan := plan C.iter (s.session C) (s.fingerprints C) (graph s.packages)

/-- What compiling a package against the present sources gives. -/
def scratch (p : String) : ArtifactKind → Bytes :=
  C.compile s.inputs.fingerprint p (view (snapshot s.packages p))

/-- One package is compiled. -/
def buildPackage (now : Nat) (w : World) (p : String) : World :=
  let w := markCompiled w p (s.fingerprintOf C p) now
  let w := sessionStore .ir w p (s.scratch C p .ir)
  sessionStore .bytecode w p (s.scratch C p .bytecode)

/-- The snapshots of the entries in the index that a build has opened. -/
def opened : Table String (Snapshot σ) :=
  if (s.session C).cache.index.packages.entries = [] then ∅
  else (s.built.lookup (s.root C)).getD ∅

def step : Edit σ → Option (Workspace σ)
  | .edit packages inputs => some { s with packages := packages, inputs := inputs }
  | .build compiled now saved =>
    if compiled <+: (s.planned C).recompile then
      let w := compiled.foldl (s.buildPackage C now) (s.session C)
      if saved ∧ compiled ≠ [] then
        some { s with
          disk := w.flush.disk
          built := s.built.insert (s.root C)
            (compiled.foldl (fun T p => T.insert p (snapshot s.packages p)) (s.opened C)) }
      else some { s with disk := w.disk }
    else none

/-- The plan of the next build: what it takes from the cache is what compiling would give, every
package is either taken or compiled, and what is compiled comes after what it imports. -/
structure Fresh : Prop where
  cached : ∀ p ∈ (s.planned C).cached, ∀ k, (s.session C).load k p = some (s.scratch C p k)
  nodup : ((s.planned C).cached ++ (s.planned C).recompile).Nodup
  all : ∀ p, p ∈ (s.planned C).cached ++ (s.planned C).recompile ↔ p ∈ s.packages.keys
  order : ∀ l₁ p l₂, (s.planned C).recompile = l₁ ++ p :: l₂ →
    ∀ d ∈ importsOf s.packages p, d ∈ (s.planned C).recompile → d ∈ l₁

end Workspace

end Arth.Driver
