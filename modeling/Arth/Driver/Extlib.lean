import Mathlib

/-!
# The external packages of a project

`resolve_dependencies` of `extlib.rs`: the installed packages that a manifest asks for. The
crate of semantic versions is the parameter `Semver`.

* `resolveDependencies` — one package for each entry of the manifest.
* `Resolution` — the lists of packages that are complete, closed and without cycles.
* `resolved_iff` — the manifests and indices for which the code gives such a list.
-/

namespace Arth.Driver

open List

open Relation (TransGen)

/-! ## Packages -/

/-- The crate `semver`, with its versions `V` and its requirements `R`. -/
structure Semver (V R : Type) where
  parse : String → Except String R
  reqMatches : R → V → Bool
  versionText : V → String
  reqText : R → String

inductive DependencySpec where
  | simple (version : String)
  | detailed (version : String) (features : List String) (optional : Bool)

/-- `arth.toml` of an installed package; the keys of its dependencies are in order. -/
structure ExternalManifest where
  name : String
  dependencies : List (String × DependencySpec)

/-- An installed package; its directory is given by the manifest there. -/
structure ExternalPackage (V : Type) where
  id : String
  version : V
  rootDir : ExternalManifest
  dependencies : List String

variable {V R : Type} [LinearOrder V]

/-- `load_external_package` -/
def loadExternalPackage (rootDir : ExternalManifest) (version : V) : ExternalPackage V :=
  ⟨rootDir.name, version, rootDir, rootDir.dependencies.map (·.1)⟩

/-- The installed versions of each package, from the lowest. -/
structure ExternalPackageIndex (V : Type) [LinearOrder V] where
  getVersions : String → List (ExternalPackage V)
  ordered : ∀ id, (getVersions id).Pairwise (·.version < ·.version)
  loaded : ∀ id, ∀ pkg ∈ getVersions id,
    pkg.id = id ∧ pkg = loadExternalPackage pkg.rootDir pkg.version

/-- `[dependencies]` of a project, as its file lists them. -/
structure Manifest where
  dependencies : List (String × DependencySpec)
  nodup : (dependencies.map (·.1)).Nodup

/-- The entries as the map of the dependencies lists them. -/
def Manifest.entries (m : Manifest) : List (String × DependencySpec) :=
  m.dependencies.mergeSort fun a b => a.1 ≤ b.1

inductive ExtlibError where
  | packageNotFound (id versionReq : String)
  | versionNotFound (id : String) (available : List String) (required : String)
  | invalidVersion (version error : String)
  | circularDependency (chain : List String)

variable (sv : Semver V R) (index : ExternalPackageIndex V) (m : Manifest)

/-- `find_matching`: the highest version that the requirement matches. -/
def findMatching (id : String) (req : R) : Option (ExternalPackage V) :=
  (index.getVersions id).reverse.find? fun pkg => sv.reqMatches req pkg.version

def parseVersionReq (spec : DependencySpec) : Except ExtlibError R :=
  let versionStr := match spec with
    | .simple s => s
    | .detailed version _ _ => version
  match sv.parse versionStr with
  | .ok req => .ok req
  | .error e => .error (.invalidVersion versionStr e)

/-- The error for a requirement that no installed version meets. -/
def notFound (id : String) (req : R) : ExtlibError :=
  let available := (index.getVersions id).map fun pkg => sv.versionText pkg.version
  if available = [] then .packageNotFound id (sv.reqText req)
  else .versionNotFound id available (sv.reqText req)

/-- The packages from `id` on, when it is in the chain in front of its end. -/
def cycleIn (chain : List String) (id : String) : Option (List String) :=
  match chain.findIdx? (· = id) with
  | some pos => if pos < chain.length - 1 then some (chain.drop pos) else none
  | none => none

/-- What is resolved, and the packages that were visited. -/
structure Resolving (V : Type) where
  resolved : List (ExternalPackage V)
  visited : List String

def resolveDependency (id : String) (spec : DependencySpec) (s : Resolving V)
    (chain : List String) : Except ExtlibError (Resolving V) :=
  if id ∈ s.visited then .ok s
  else
    match cycleIn chain id with
    | some chain => .error (.circularDependency chain)
    | none => do
      let req ← parseVersionReq sv spec
      match findMatching sv index id req with
      | some pkg => return ⟨s.resolved ++ [pkg], id :: s.visited⟩
      | none => throw (notFound sv index id req)

def resolveDependencies : Except ExtlibError (List (ExternalPackage V)) := do
  let s ← m.entries.foldlM (fun s (id, spec) => resolveDependency sv index id spec s [id]) ⟨[], []⟩
  return s.resolved

/-- The requirement matches the version. -/
def Meets (spec : DependencySpec) (v : V) : Prop :=
  ∃ req, parseVersionReq sv spec = .ok req ∧ sv.reqMatches req v

/-- The packages that the manifest asks for, directly or through those of the list. -/
inductive Reached (list : List (ExternalPackage V)) : String → Prop
  | entry {e : String × DependencySpec} (h : e ∈ m.dependencies) : Reached list e.1
  | through {pkg : ExternalPackage V} {id : String} (hpkg : pkg ∈ list)
    (h : Reached list pkg.id) (hid : id ∈ pkg.dependencies) : Reached list id

/-- A package of the list needs itself, directly or through others. -/
def Cyclic (list : List (ExternalPackage V)) : Prop :=
  ∃ id, TransGen (fun a b => ∃ pkg ∈ list, pkg.id = a ∧ b ∈ pkg.dependencies) id id

structure Resolution (list : List (ExternalPackage V)) : Prop where
  installed : ∀ pkg ∈ list, pkg ∈ index.getVersions pkg.id
  once : (list.map (·.id)).Nodup
  complete : ∀ id, id ∈ list.map (·.id) ↔ Reached m list id
  satisfied : ∀ e ∈ m.dependencies, ∀ pkg ∈ list, pkg.id = e.1 → Meets sv e.2 pkg.version
  closed : ∀ pkg ∈ list, ∀ e ∈ pkg.rootDir.dependencies,
    ∃ dep ∈ list, dep.id = e.1 ∧ Meets sv e.2 dep.version
  acyclic : ¬ Cyclic list

/-- The package that an entry of the manifest is for. -/
def choice (e : String × DependencySpec) : Option (ExternalPackage V) :=
  match parseVersionReq sv e.2 with
  | .ok req => findMatching sv index e.1 req
  | .error _ => none

/-- A list that is returned is a resolution, whatever the order of the manifest; and where all
that the manifest asks for is there, a cycle is reported. -/
structure Resolves : Prop where
  sound : ∀ list, resolveDependencies sv index m = .ok list → Resolution sv index m list
  order : ∀ m' : Manifest, m'.dependencies.Perm m.dependencies →
    resolveDependencies sv index m' = resolveDependencies sv index m
  circular : (∀ e ∈ m.dependencies, (choice sv index e).isSome) →
    Cyclic (m.entries.filterMap (choice sv index)) →
      ∃ chain, resolveDependencies sv index m = .error (.circularDependency chain)

/-- The manifest lists, with the packages it asks for, all that they need. -/
structure Closed : Prop where
  listed : ∀ e ∈ m.dependencies, ∀ pkg, choice sv index e = some pkg →
    ∀ d ∈ pkg.rootDir.dependencies, ∃ e' ∈ m.dependencies, e'.1 = d.1 ∧
      ∃ dep, choice sv index e' = some dep ∧ Meets sv d.2 dep.version
  acyclic : ¬ Cyclic (m.entries.filterMap (choice sv index))

/-! ## What the code resolves -/

section

variable {sv index m} {e : String × DependencySpec} {pkg : ExternalPackage V}
  {list : List (ExternalPackage V)} {s : Resolving V}

theorem choice_spec (h : choice sv index e = some pkg) :
    pkg ∈ index.getVersions e.1 ∧ pkg.id = e.1 ∧ Meets sv e.2 pkg.version := by
  unfold choice at h
  split at h
  · rename_i req hreq
    unfold findMatching at h
    have hmem := mem_reverse.1 (mem_of_find?_eq_some h)
    exact ⟨hmem, (index.loaded e.1 pkg hmem).1, req, hreq, by simpa using find?_some h⟩
  · cases h

variable (sv index) in
/-- One turn of the loop. -/
def turn (s : Resolving V) (e : String × DependencySpec) : Except ExtlibError (Resolving V) :=
  resolveDependency sv index e.1 e.2 s [e.1]

variable (sv index) in
theorem turn_spec (hs : e.1 ∉ s.visited) : match choice sv index e with
    | some pkg => turn sv index s e = .ok ⟨s.resolved ++ [pkg], e.1 :: s.visited⟩
    | none => ∃ err, turn sv index s e = .error err := by
  have hcycle : cycleIn [e.1] e.1 = none := by simp [cycleIn]
  simp only [choice, turn, resolveDependency, if_neg hs, hcycle]
  cases parseVersionReq sv e.2 with
  | error err => exact ⟨err, rfl⟩
  | ok req =>
    dsimp only [bind, Except.bind]
    cases findMatching sv index e.1 req with
    | none => exact ⟨_, rfl⟩
    | some pkg => rfl

variable (sv index) in
/-- The loop takes the package of each entry, or fails. -/
theorem turns_spec (l : List (String × DependencySpec)) (s : Resolving V)
    (hnodup : (l.map (·.1)).Nodup) (hs : ∀ e ∈ l, e.1 ∉ s.visited) :
    (∀ e ∈ l, (choice sv index e).isSome) ∧ (∃ visited, l.foldlM (turn sv index) s =
        .ok ⟨s.resolved ++ l.filterMap (choice sv index), visited⟩) ∨
      (∃ e ∈ l, choice sv index e = none) ∧ ∃ err, l.foldlM (turn sv index) s = .error err := by
  induction l generalizing s with
  | nil => exact .inl ⟨nofun, s.visited, by rw [List.filterMap_nil, List.append_nil]; rfl⟩
  | cons e l ih =>
    obtain ⟨hhead, hnodup⟩ := List.nodup_cons.1 hnodup
    rw [List.forall_mem_cons] at hs ⊢
    have hturn := turn_spec sv index hs.1
    rw [List.foldlM_cons]
    cases hc : choice sv index e with
    | none =>
      rw [hc] at hturn
      obtain ⟨err, herr⟩ := hturn
      exact .inr ⟨⟨e, List.mem_cons_self, hc⟩, err, by rw [herr]; rfl⟩
    | some pkg =>
      rw [hc] at hturn
      rw [hturn, List.filterMap_cons_some hc]
      have hrest : ∀ e' ∈ l, e'.1 ∉ e.1 :: s.visited := by
        intro e' he' hin
        rcases List.mem_cons.1 hin with heq | hin
        · exact hhead (List.mem_map.2 ⟨e', he', heq⟩)
        · exact hs.2 e' he' hin
      rcases ih ⟨s.resolved ++ [pkg], e.1 :: s.visited⟩ hnodup hrest with
        ⟨hmet, visited, hok⟩ | ⟨⟨e', he', hnone⟩, herr⟩
      · refine .inl ⟨⟨rfl, hmet⟩, visited, hok.trans ?_⟩
        rw [List.append_assoc]
        rfl
      · exact .inr ⟨⟨e', List.mem_cons_of_mem _ he', hnone⟩, herr⟩

theorem entries_perm (m : Manifest) : m.entries.Perm m.dependencies := mergeSort_perm _ _

theorem keys_nodup (m : Manifest) : (m.entries.map (·.1)).Nodup :=
  ((entries_perm m).map _).nodup_iff.2 m.nodup

theorem entries_congr {m m' : Manifest} (h : m'.dependencies.Perm m.dependencies) :
    m'.entries = m.entries := by
  have hsorted : ∀ m : Manifest, m.entries.Pairwise (·.1 ≤ ·.1) := by
    intro m
    have hp := @List.pairwise_mergeSort (String × DependencySpec) (fun a b => decide (a.1 ≤ b.1))
      (fun a b c hab hbc => by simpa using le_trans (by simpa using hab) (by simpa using hbc))
      (fun a b => by simpa using le_total a.1 b.1) m.dependencies
    simpa [Manifest.entries] using hp
  have hperm := (entries_perm m').trans (h.trans (entries_perm m).symm)
  refine hperm.eq_of_pairwise (fun a b ha hb hab hba => ?_) (hsorted m') (hsorted m)
  exact inj_on_of_nodup_map (keys_nodup m) (hperm.mem_iff.1 ha) hb (le_antisymm hab hba)

theorem resolve_ok_iff : resolveDependencies sv index m = .ok list ↔
    (∀ e ∈ m.dependencies, (choice sv index e).isSome) ∧
      list = m.entries.filterMap (choice sv index) := by
  change (m.entries.foldlM (turn sv index) ⟨[], []⟩ >>= fun s => pure s.resolved) = _ ↔ _
  have hmem : ∀ e, e ∈ m.entries ↔ e ∈ m.dependencies := fun e => (entries_perm m).mem_iff
  rcases turns_spec sv index m.entries ⟨[], []⟩ (keys_nodup m) nofun with
    ⟨hmet, visited, hok⟩ | ⟨⟨e, he, hnone⟩, err, herr⟩
  · rw [hok]
    constructor
    · rintro ⟨⟩
      exact ⟨fun e he => hmet e ((hmem e).2 he), rfl⟩
    · rintro ⟨-, rfl⟩
      rfl
  · rw [herr]
    refine iff_of_false nofun fun h => ?_
    have hsome := h.1 e ((hmem e).1 he)
    rw [hnone] at hsome
    cases hsome

theorem ids_chosen (hmet : ∀ e ∈ m.dependencies, (choice sv index e).isSome) :
    (m.entries.filterMap (choice sv index)).map (·.id) = m.entries.map (·.1) := by
  have hl : ∀ l : List (String × DependencySpec), (∀ e ∈ l, (choice sv index e).isSome) →
      (l.filterMap (choice sv index)).map (·.id) = l.map (·.1) := by
    intro l
    induction l with
    | nil => exact fun _ => rfl
    | cons e l ih =>
      intro h
      rw [forall_mem_cons] at h
      obtain ⟨pkg, hpkg⟩ := Option.isSome_iff_exists.1 h.1
      rw [filterMap_cons_some hpkg, map_cons, ih h.2, (choice_spec hpkg).2.1]
      rfl
  exact hl _ fun e he => hmet e ((entries_perm m).mem_iff.1 he)

theorem mem_chosen : pkg ∈ m.entries.filterMap (choice sv index) ↔
    ∃ e ∈ m.dependencies, choice sv index e = some pkg := by
  simp [(entries_perm m).mem_iff]

end

/-- **The code resolves a manifest if and only if it names everything that is needed.** The
dependencies of a package are never looked at: some entry cannot be met, which is an error, or
the packages of the entries need no others, at no other versions, and not each other in a
cycle. -/
theorem resolved_iff : Resolves sv index m ↔
    ((∀ e ∈ m.dependencies, (choice sv index e).isSome) → Closed sv index m) := by
  constructor
  · intro h hmet
    have hok := resolve_ok_iff.2 ⟨hmet, rfl⟩
    have hres := h.sound _ hok
    refine ⟨fun e he pkg hpkg d hd => ?_, hres.acyclic⟩
    obtain ⟨dep, hdep, hid, hmeets⟩ := hres.closed pkg (mem_chosen.2 ⟨e, he, hpkg⟩) d hd
    obtain ⟨e', he', hchoice⟩ := mem_chosen.1 hdep
    exact ⟨e', he', (choice_spec hchoice).2.1.symm.trans hid, dep, hchoice, hmeets⟩
  · intro h
    refine ⟨fun list hok => ?_, fun m' hperm => ?_, fun hmet hcyclic => ?_⟩
    · obtain ⟨hmet, rfl⟩ := resolve_ok_iff.1 hok
      have hclosed := h hmet
      have hids := ids_chosen hmet
      have hin : ∀ e ∈ m.dependencies, e.1 ∈ (m.entries.filterMap (choice sv index)).map (·.id) := by
        intro e he
        rw [hids]
        exact List.mem_map_of_mem ((entries_perm m).mem_iff.2 he)
      refine ⟨fun pkg hpkg => ?_, hids ▸ keys_nodup m, fun id => ⟨fun hid => ?_, fun hid => ?_⟩,
        fun e he pkg hpkg hid => ?_, fun pkg hpkg d hd => ?_, hclosed.acyclic⟩
      · obtain ⟨e, -, hchoice⟩ := mem_chosen.1 hpkg
        obtain ⟨hmem, hid, -⟩ := choice_spec hchoice
        exact hid ▸ hmem
      · rw [hids] at hid
        obtain ⟨e, he, rfl⟩ := List.mem_map.1 hid
        exact .entry ((entries_perm m).mem_iff.1 he)
      · cases hid with
        | entry he => exact hin _ he
        | through hpkg _ hid =>
          obtain ⟨e, he, hchoice⟩ := mem_chosen.1 hpkg
          obtain ⟨hmem, -⟩ := choice_spec hchoice
          rw [(index.loaded _ _ hmem).2] at hid
          obtain ⟨d, hd, rfl⟩ := List.mem_map.1 hid
          obtain ⟨e', he', heq, -⟩ := hclosed.listed e he _ hchoice d hd
          exact heq ▸ hin e' he'
      · obtain ⟨e', he', hchoice⟩ := mem_chosen.1 hpkg
        obtain ⟨-, hid', hmeets⟩ := choice_spec hchoice
        obtain rfl := List.inj_on_of_nodup_map m.nodup he' he (hid'.symm.trans hid)
        exact hmeets
      · obtain ⟨e, he, hchoice⟩ := mem_chosen.1 hpkg
        obtain ⟨e', he', heq, dep, hdep, hmeets⟩ := hclosed.listed e he pkg hchoice d hd
        exact ⟨dep, mem_chosen.2 ⟨e', he', hdep⟩, (choice_spec hdep).2.1.trans heq, hmeets⟩
    · unfold resolveDependencies
      rw [entries_congr hperm]
    · exact absurd hcyclic (h hmet).acyclic

/-- Versions that are numbers, each required as it is. -/
def exactly : Semver ℕ String where
  parse s := .ok s
  reqMatches req v := req = toString v
  versionText := toString
  reqText s := s

/-- Version 1 of `a`, which needs `b`; no `b` is installed. -/
def onlyA : ExternalPackageIndex ℕ where
  getVersions id := if id = "a" then [loadExternalPackage ⟨"a", [("b", .simple "1")]⟩ 1] else []
  ordered id := by split <;> simp
  loaded id pkg hpkg := by
    split at hpkg
    · obtain rfl := List.mem_singleton.1 hpkg
      exact ⟨‹id = "a"›.symm, rfl⟩
    · cases hpkg

/-- A project that asks for `a` gets `a` alone. -/
theorem not_resolves_onlyA :
    ¬ Resolves exactly onlyA ⟨[("a", .simple "1")], List.nodup_singleton _⟩ := by
  intro h
  have hok : resolveDependencies exactly onlyA ⟨[("a", .simple "1")], List.nodup_singleton _⟩ =
      .ok [loadExternalPackage ⟨"a", [("b", .simple "1")]⟩ 1] := by
    simp [resolveDependencies, Manifest.entries, resolveDependency, cycleIn, parseVersionReq,
      exactly, findMatching, onlyA, loadExternalPackage]
    rfl
  obtain ⟨dep, hdep, hid, -⟩ := (h.sound _ hok).closed _ (List.mem_singleton_self _)
    ("b", .simple "1") (List.mem_singleton_self _)
  obtain rfl := List.mem_singleton.1 hdep
  exact absurd hid (by decide)

end Arth.Driver
