import Arth.Driver.Served
import Arth.Driver.Session

/-!
# Builds that stay fresh

* `recompile_iff`, `cached_iff`, `plan_order` — the plan, by what a changed source reaches.
* `Meets` — the condition on an edit or a build: no entry that stays was compiled against another
  version of a package that is compiled now.
* `Sound`, `sound_step` — the invariant: the files of an entry are what compiling its snapshot
  gives, and the entries of what it depends on have the versions of the snapshot.
* `fresh_of_meets` — in a run whose steps all meet the condition every plan is right.
-/

namespace Arth.Driver

open KeyTable Worklist Relation Runs List Option

variable {σ : Type} {d : String}

/-! ## What a package depends on -/

section

variable {packages packages' : Table String (PackageSource σ)} {p q : String}

theorem mem_keys_of_import (h : d ∈ importsOf packages p) : p ∈ packages.keys := by
  unfold importsOf at h
  cases hp : packages.lookup p with
  | none => simp [hp] at h
  | some src => exact AList.mem_keys.1 (AList.lookup_isSome.1 (by simp [hp]))

theorem mem_keys_iff : p ∈ packages.keys ↔ (packages.lookup p).isSome = true := by
  rw [AList.lookup_isSome]
  exact AList.mem_keys.symm

theorem mem_reach_iff : q ∈ reach packages p ↔
    ReflTransGen (fun a b => b ∈ importsOf packages a) p q := by
  unfold reach
  rw [mem_visit_iff (importsOf packages) (packages.keys.flatMap (importsOf packages)) [p]
    (fun x y hy => mem_flatMap.2 ⟨x, mem_keys_of_import hy, hy⟩) (by simp)]
  simp

theorem view_snapshot (packages : Table String (PackageSource σ)) (p q : String) :
    view (snapshot packages p) q = if q ∈ reach packages p then packages.lookup q else none := by
  rw [view, snapshot, lookup_tabulate]
  split <;> rfl

theorem view_congr (h : ∀ q ∈ reach packages p, packages'.lookup q = packages.lookup q) :
    view (snapshot packages' p) = view (snapshot packages p) := by
  have himports : ∀ q ∈ reach packages p, importsOf packages' q = importsOf packages q := by
    intro q hq
    unfold importsOf
    rw [h q hq]
  have hreach : ∀ q, q ∈ reach packages' p ↔ q ∈ reach packages p := by
    intro q
    constructor
    · intro hq
      rw [mem_reach_iff] at hq
      induction hq with
      | refl => exact mem_reach_iff.2 .refl
      | tail _ hlast ih =>
        rw [himports _ ih] at hlast
        exact mem_reach_iff.2 ((mem_reach_iff.1 ih).tail hlast)
    · intro hq
      have hq' := mem_reach_iff.1 hq
      clear hq
      induction hq' with
      | refl => exact mem_reach_iff.2 .refl
      | tail hpath hlast ih =>
        rw [← himports _ (mem_reach_iff.2 hpath)] at hlast
        exact mem_reach_iff.2 ((mem_reach_iff.1 ih).tail hlast)
  funext q
  rw [view_snapshot, view_snapshot]
  by_cases hq : q ∈ reach packages p
  · rw [if_pos hq, if_pos ((hreach q).2 hq), h q hq]
  · rw [if_neg hq, if_neg (mt (hreach q).1 hq)]

theorem has_graph (packages : Table String (PackageSource σ)) : (graph packages).Has packages.keys
      (packages.keys.flatMap fun p => (importsOf packages p).map fun d => (p, d)) :=
  DepGraph.has_build _ _

theorem mem_edges : (p, q) ∈ (packages.keys.flatMap fun p => (importsOf packages p).map
    fun d => (p, d)) ↔ q ∈ importsOf packages p := by
  simp only [mem_flatMap, List.mem_map, Prod.mk.injEq]
  constructor
  · rintro ⟨_, -, _, hd, rfl, rfl⟩
    exact hd
  · intro h
    exact ⟨p, mem_keys_of_import h, q, h, rfl, rfl⟩

theorem mem_dependentsOf : p ∈ (graph packages).dependentsOf q ↔
    q ∈ packages.keys ∧ q ∈ importsOf packages p := by
  rw [(has_graph packages).dependents, mem_edges]

end

/-! ## The plan -/

variable {f : Fingerprint} {w : World}

theorem firstReason_eq_none {p : String} : firstReason w p f = none ↔ w.status p f = .hit := by
  unfold firstReason
  cases hs : w.status p f with
  | hit =>
    have hget : (w.get p).isSome = true := by
      unfold World.status at hs
      cases hg : w.get p with
      | none => simp [hg] at hs
      | some e => rfl
    simp [hget]
  | miss => simp
  | stale => simp
  | corrupt => simp

namespace Workspace

variable {C : Compiler σ} {s : Workspace σ} {p q : String}

/-- The entry of the package does not do. -/
def Changed (C : Compiler σ) (s : Workspace σ) (p : String) : Prop :=
  p ∈ s.packages.keys ∧ (s.session C).status p (s.fingerprintOf C p) ≠ .hit

theorem mem_fingerprints :
    (⟨p, f⟩ : Sigma fun _ : String => Fingerprint) ∈ (s.fingerprints C).entries ↔
      p ∈ s.packages.keys ∧ f = s.fingerprintOf C p := by
  rw [mem_entries_iff, fingerprints, lookup_tabulate]
  split_ifs with hp
  · simp [hp, eq_comm]
  · simp [hp]

def changed (C : Compiler σ) (s : Workspace σ) : List String :=
  C.iter.order (changedPackages (s.session C) (s.fingerprints C))

def invalidated (C : Compiler σ) (s : Workspace σ) : List String :=
  C.iter.order ((graph s.packages).invalidatedBy (s.changed C))

theorem mem_changed : p ∈ s.changed C ↔ s.Changed C p := by
  rw [changed, (C.iter.perm _).mem_iff]
  simp only [changedPackages, List.mem_map, mem_filter]
  constructor
  · rintro ⟨⟨p, f⟩, ⟨he, hsome⟩, rfl⟩
    obtain ⟨hp, rfl⟩ := mem_fingerprints.1 he
    refine ⟨hp, fun hhit => ?_⟩
    rw [firstReason_eq_none.2 hhit] at hsome
    cases hsome
  · rintro ⟨hp, hnot⟩
    refine ⟨⟨p, s.fingerprintOf C p⟩, ⟨mem_fingerprints.2 ⟨hp, rfl⟩, ?_⟩, rfl⟩
    rw [isSome_iff_ne_none]
    exact mt firstReason_eq_none.1 hnot

theorem recompile_perm : (s.planned C).recompile.Perm (s.invalidated C) := by
  have hrest : (s.changed C).filter (· ∉ s.invalidated C) = [] := by
    rw [filter_eq_nil_iff]
    intro x hx
    have hmem : x ∈ (graph s.packages).invalidatedBy (s.changed C) :=
      (DepGraph.mem_invalidatedBy_iff _ _).2 ⟨x, hx, .refl⟩
    have hin : x ∈ s.invalidated C := (C.iter.perm _).mem_iff.2 hmem
    simpa using hin
  have hsort : (s.planned C).recompile.Perm
      (s.invalidated C ++ (s.changed C).filter (· ∉ s.invalidated C)) :=
    perm_insertionSort _ _
  rwa [hrest, append_nil] at hsort

theorem recompile_iff : p ∈ (s.planned C).recompile ↔
    ∃ c, s.Changed C c ∧ ReflTransGen (fun a b => b ∈ (graph s.packages).dependentsOf a) c p := by
  rw [recompile_perm.mem_iff, invalidated, (C.iter.perm _).mem_iff, DepGraph.mem_invalidatedBy_iff]
  simp only [mem_changed]

theorem cached_iff : p ∈ (s.planned C).cached ↔
    p ∈ s.packages.keys ∧ p ∉ (s.planned C).recompile := by
  have hreached : ∀ x, x ∈ (s.invalidated C).filter (· ∉ s.changed C) ↔
      x ∈ (s.planned C).recompile ∧ ¬ s.Changed C x := by
    intro x
    rw [mem_filter, ← recompile_perm.mem_iff, decide_eq_true_iff, mem_changed]
  have hcached : ∀ x, x ∈ (s.planned C).cached ↔ (x ∈ s.packages.keys ∧ ¬ s.Changed C x) ∧
      ¬ (x ∈ (s.planned C).recompile ∧ ¬ s.Changed C x) := by
    intro x
    rw [← hreached, ← decide_eq_true_iff (p := x ∉ _)]
    refine mem_filter.trans (and_congr ?_ Iff.rfl)
    simp only [List.mem_map, mem_filter, isNone_iff_eq_none, firstReason_eq_none]
    constructor
    · rintro ⟨⟨x, f⟩, ⟨he, hhit⟩, rfl⟩
      obtain ⟨hx, rfl⟩ := mem_fingerprints.1 he
      exact ⟨hx, fun hchanged => hchanged.2 hhit⟩
    · rintro ⟨hx, hnot⟩
      refine ⟨⟨x, s.fingerprintOf C x⟩, ⟨mem_fingerprints.2 ⟨hx, rfl⟩, ?_⟩, rfl⟩
      by_contra hhit
      exact hnot ⟨hx, hhit⟩
  rw [hcached]
  constructor
  · rintro ⟨⟨hp, hnot⟩, hkeep⟩
    exact ⟨hp, fun hmem => hkeep ⟨hmem, hnot⟩⟩
  · rintro ⟨hp, hnot⟩
    exact ⟨⟨hp, fun hchanged => hnot (recompile_iff.2 ⟨p, hchanged, .refl⟩)⟩, fun h => hnot h.1⟩

theorem mem_keys_of_recompile (hp : p ∈ (s.planned C).recompile) : p ∈ s.packages.keys := by
  obtain ⟨c, hchanged, hpath⟩ := recompile_iff.1 hp
  cases hpath with
  | refl => exact hchanged.1
  | tail _ hlast => exact mem_keys_of_import (mem_dependentsOf.1 hlast).2

theorem recompile_of_import (hq : q ∈ (s.planned C).recompile)
    (himport : q ∈ importsOf s.packages p) : p ∈ (s.planned C).recompile := by
  obtain ⟨c, hchanged, hpath⟩ := recompile_iff.1 hq
  refine recompile_iff.2 ⟨c, hchanged, hpath.tail ?_⟩
  exact mem_dependentsOf.2 ⟨mem_keys_of_recompile hq, himport⟩

theorem hit_of_not_recompile (hp : p ∈ s.packages.keys) (hnot : p ∉ (s.planned C).recompile) :
    (s.session C).status p (s.fingerprintOf C p) = .hit := by
  by_contra hmiss
  exact hnot (recompile_iff.2 ⟨p, ⟨hp, hmiss⟩, .refl⟩)

/-- **The plan takes or compiles every package, and none twice.** -/
theorem plan_partition : ((s.planned C).cached ++ (s.planned C).recompile).Nodup ∧
    ∀ p, p ∈ (s.planned C).cached ++ (s.planned C).recompile ↔ p ∈ s.packages.keys := by
  have hkeys : ((s.fingerprints C).entries.map (·.1)).Nodup := (s.fingerprints C).nodupKeys
  have hcached : (s.planned C).cached.Nodup :=
    (hkeys.sublist (List.filter_sublist.map _)).filter _
  have hchanged : (s.changed C).Nodup :=
    (C.iter.perm _).nodup_iff.2 (hkeys.sublist (List.filter_sublist.map _))
  have hrecompile : (s.planned C).recompile.Nodup := by
    rw [recompile_perm.nodup_iff, invalidated, (C.iter.perm _).nodup_iff]
    exact visit_nodup _ _ _ _ hchanged
  refine ⟨nodup_append.2 ⟨hcached, hrecompile, ?_⟩, fun p => ?_⟩
  · rintro x hx y hy rfl
    exact (cached_iff.1 hx).2 hy
  · rw [mem_append, cached_iff]
    constructor
    · rintro (h | h)
      · exact h.1
      · exact mem_keys_of_recompile h
    · intro hp
      by_cases hmem : p ∈ (s.planned C).recompile
      · exact .inr hmem
      · exact .inl ⟨hp, hmem⟩

/-- The imports have no cycle. -/
def Sorts (packages : Table String (PackageSource σ)) : Prop :=
  (graph packages).topologicalSort.isSome = true

instance (packages : Table String (PackageSource σ)) : Decidable (Sorts packages) := by
  unfold Sorts
  infer_instance

/-- **Dependencies come before dependents**, unless the imports have a cycle. -/
theorem plan_order (hsorts : Sorts s.packages) {l₁ l₂ : List String}
    (heq : (s.planned C).recompile = l₁ ++ p :: l₂) (himport : d ∈ importsOf s.packages p)
    (hd : d ∈ (s.planned C).recompile) : d ∈ l₁ := by
  obtain ⟨order, horder⟩ := isSome_iff_exists.1 hsorts
  obtain ⟨hnodup, hmem, hordered⟩ := DepGraph.topologicalSort_spec (has_graph s.packages) horder
  have hbuild : (graph s.packages).buildOrder = order := DepGraph.buildOrder_build horder
  have hsorted : (s.planned C).recompile.Pairwise fun p q => orderKey order p ≤ orderKey order q := by
    rw [← hbuild]
    exact pairwise_insertionSort _ _
  have hp : p ∈ (s.planned C).recompile := by simp [heq]
  have hkey : ∀ x ∈ (s.planned C).recompile, orderKey order x = order.idxOf x :=
    fun x hx => if_pos ((hmem x).2 (mem_keys_of_recompile hx))
  -- In the build order the import stands before the package.
  have hbefore : order.idxOf d < order.idxOf p := by
    obtain ⟨o₁, o₂, ho⟩ := append_of_mem ((hmem p).2 (mem_keys_of_recompile hp))
    have hinner : d ∈ (graph s.packages).innerDependencies p := by
      refine mem_filter.2 ⟨?_, ?_⟩
      · exact ((has_graph s.packages).dependencies p d).2
          ⟨mem_keys_of_recompile hp, mem_edges.2 himport⟩
      · simpa using ((has_graph s.packages).packages d).2 (mem_keys_of_recompile hd)
    have hd₁ : d ∈ o₁ := hordered o₁ p o₂ ho d hinner
    have hp₁ : p ∉ o₁ := by
      rw [ho] at hnodup
      exact fun hp₁ => (nodup_append.1 hnodup).2.2 p hp₁ p (by simp) rfl
    have hidx : order.idxOf p = o₁.length := by
      rw [ho, idxOf_append_of_notMem hp₁, idxOf_cons_self, add_zero]
    rw [hidx, ho, idxOf_append_of_mem hd₁]
    exact idxOf_lt_length_of_mem hd₁
  rw [heq] at hsorted hd
  rcases mem_append.1 hd with hd | hd
  · exact hd
  · rcases mem_cons.1 hd with rfl | hd
    · exact absurd hbefore (lt_irrefl _)
    · have hle := rel_of_pairwise_cons (pairwise_append.1 hsorted).2.1 hd
      rw [hkey p hp, hkey d (by simp [heq, hd])] at hle
      omega

variable {compiled : List String}

theorem prefix_closed (hsorts : Sorts s.packages)
    (htaken : compiled <+: (s.planned C).recompile) (hp : p ∈ compiled)
    (hq : q ∈ reach s.packages p) : q ∈ compiled ∨ q ∉ (s.planned C).recompile := by
  rw [mem_reach_iff] at hq
  induction hq with
  | refl => exact .inl hp
  | @tail x y _ hlast ih =>
    by_cases hy : y ∈ (s.planned C).recompile
    · rcases ih with hx | hx
      · obtain ⟨l₁, l₂, rfl⟩ := append_of_mem hx
        obtain ⟨rest, hrest⟩ := htaken
        have heq : (s.planned C).recompile = l₁ ++ x :: (l₂ ++ rest) := by simp [← hrest]
        exact .inl (mem_append_left _ (plan_order hsorts heq hlast hy))
      · exact absurd (recompile_of_import hy hlast) hx
    · exact .inr hy

section

variable (C : Compiler σ) (s : Workspace σ)

/-- The entries that stay on disk when a build has compiled the packages. -/
def leftEntries (compiled : List String) (saved : Bool) : List (Path × String × Fingerprint) :=
  ((s.disk.indexes.entries.filter fun i => ¬ (i.1 = s.root C ∧ saved = true)).flatMap fun i =>
    i.2.packages.entries.map fun e => (i.1, e.1, e.2.inputFingerprint)) ++
  if saved then ((s.session C).cache.index.packages.entries.filter (·.1 ∉ compiled)).map
    fun e => (s.root C, e.1, e.2.inputFingerprint) else []

/-- No file is written for two packages or two fingerprints. -/
def Apart (compiled : List String) (saved : Bool) : Prop :=
  (∀ x ∈ s.leftEntries C compiled saved, ∀ p ∈ compiled, ∀ k ∈ [ArtifactKind.ir, .bytecode],
    artifactPath x.1 x.2.1 x.2.2 k = artifactPath (s.root C) p (s.fingerprintOf C p) k →
      x = (s.root C, p, s.fingerprintOf C p)) ∧
  ∀ p ∈ compiled, ∀ q ∈ compiled, ∀ k ∈ [ArtifactKind.ir, .bytecode],
    artifactPath (s.root C) p (s.fingerprintOf C p) k =
      artifactPath (s.root C) q (s.fingerprintOf C q) k → p = q

/-- No entry that stays in the index was compiled against another version of a package that is
compiled now. -/
def Versions (compiled : List String) : Prop :=
  ∀ t ∈ (s.opened C).entries, t.1 ∉ compiled → ∀ q ∈ compiled, ∀ o ∈ t.2.lookup q,
    o.map (fun src => C.fingerprint src.text) = some (s.fingerprintOf C q)

/-- An entry on disk whose files are written again was compiled from the present sources. -/
def Rewrites (compiled : List String) : Prop :=
  ∀ p ∈ compiled, ∀ i ∈ s.disk.indexes.lookup (s.root C), ∀ e ∈ i.packages.lookup p,
    e.inputFingerprint = s.fingerprintOf C p →
      i.configFingerprint = s.inputs.fingerprint ∧
      ∀ T ∈ s.built.lookup (s.root C), ∀ S ∈ T.lookup p, ∀ o ∈ S.entries,
        o.2 = s.packages.lookup o.1

/-- A package with the fingerprint of one that an entry was compiled from is that one. -/
def Known (packages : Table String (PackageSource σ)) : Prop :=
  ∀ i ∈ s.built.entries, ∀ t ∈ i.2.entries, ∀ o ∈ t.2.entries, ∀ src ∈ o.2,
    ∀ src' ∈ packages.lookup o.1, C.fingerprint src.text = C.fingerprint src'.text → src = src'

/-- What a package depends on and the project does not have, the index does not have either. -/
def Closed : Prop :=
  ∀ p ∈ s.packages.keys, ∀ q ∈ reach s.packages p,
    s.packages.lookup q = none → (s.session C).get q = none

/-- **The condition on an edit or a build.** -/
def Meets : Edit σ → Prop
  | .edit packages inputs => Sorts packages ∧ s.Known C packages ∧
      Closed C { s with packages := packages, inputs := inputs }
  | .build compiled _ saved => s.Apart C compiled saved ∧
      (saved = true → s.Versions C compiled) ∧ (saved = false → s.Rewrites C compiled)

variable [DecidableEq σ]

instance (compiled : List String) (saved : Bool) : Decidable (s.Apart C compiled saved) := by
  unfold Apart
  infer_instance

instance (compiled : List String) : Decidable (s.Versions C compiled) := by
  unfold Versions
  infer_instance

instance (compiled : List String) : Decidable (s.Rewrites C compiled) := by
  unfold Rewrites
  infer_instance

instance (packages : Table String (PackageSource σ)) : Decidable (s.Known C packages) := by
  unfold Known
  infer_instance

instance : Decidable (s.Closed C) := by
  unfold Closed
  infer_instance

instance : ∀ e, Decidable (s.Meets C e)
  | .edit _ _ => inferInstanceAs (Decidable (_ ∧ _ ∧ _))
  | .build _ _ _ => inferInstanceAs (Decidable (_ ∧ _ ∧ _))

end

/-! ## The cache after a build -/

theorem session_index (C : Compiler σ) (s : Workspace σ) : (s.session C).cache.index.packages = ∅ ∨
    ∃ i, s.disk.indexes.lookup (s.root C) = some i ∧
      i.configFingerprint = s.inputs.fingerprint ∧ (s.session C).cache.index = i := by
  unfold session World.openCache root
  cases hi : s.disk.indexes.lookup (cacheRoot C.projectRoot s.inputs) with
  | none => exact .inl (by simp [hi, CacheIndex.new])
  | some i =>
    by_cases hcond : (!i.isCompatible || decide (i.configFingerprint ≠ s.inputs.fingerprint)) = true
    · left
      simp only [hi, if_pos hcond]
      rfl
    · right
      have hconfig : i.configFingerprint = s.inputs.fingerprint := by
        by_contra hne
        exact hcond (by simp [hne])
      exact ⟨i, rfl, hconfig, by simp only [hi, if_neg hcond]⟩

variable {e : CachedPackage}

theorem session_get (h : (s.session C).get p = some e) :
    ∃ i, s.disk.indexes.lookup (s.root C) = some i ∧
      i.configFingerprint = s.inputs.fingerprint ∧ (s.session C).cache.index = i ∧
      i.packages.lookup p = some e := by
  rcases session_index C s with hempty | ⟨i, hi, hconfig, heq⟩
  · exact absurd h (by simp [World.get, hempty])
  · exact ⟨i, hi, hconfig, heq, heq ▸ h⟩

section

variable (C : Compiler σ) (s : Workspace σ)

/-- Where the entry of a package has its file. -/
def fileOf (p : String) (k : ArtifactKind) : Path :=
  artifactPath (s.root C) p (s.fingerprintOf C p) k

/-- How an entry names a file. -/
def relOf (root path : Path) : Path := (path.stripPrefix root).getD path

/-- The entry that a build makes. -/
def entryOf (now : Nat) (p : String) : CachedPackage where
  name := p
  inputFingerprint := s.fingerprintOf C p
  createdAt := now
  artifacts :=
    { ir := some (relOf (s.root C) (s.fileOf C p .ir))
      bytecode := some (relOf (s.root C) (s.fileOf C p .bytecode)) }

end

variable {w : World} {path : Path}

/-- What stays and what changes when packages are compiled. -/
structure Built (w w' : World) : Prop where
  root : w'.cache.root = w.cache.root
  config : w'.cache.index.configFingerprint = w.cache.index.configFingerprint
  indexes : w'.disk.indexes = w.disk.indexes

theorem store_spec (k : ArtifactKind) (f : Fingerprint) (data : Bytes) (hget : w.get p = some e) :
    Built w (w.store k p f data) ∧ (w.store k p f data).cache.dirty = true ∧
    (∀ q, (w.store k p f data).get q = if q = p then
        some { e with
          artifacts := e.artifacts.set (relOf w.cache.root (artifactPath w.cache.root p f k)) k }
      else w.get q) ∧ ∀ path, (w.store k p f data).file path =
      if path = artifactPath w.cache.root p f k then some data else w.file path := by
  unfold World.store
  rw [hget]
  exact ⟨⟨rfl, rfl, rfl⟩, rfl, fun q => lookup_insert_eq _ _ _ _,
    fun path => lookup_insert_eq _ _ _ _⟩

theorem buildPackage_spec (now : Nat) (hroot : w.cache.root = s.root C) (p : String) :
    Built w (s.buildPackage C now w p) ∧ (s.buildPackage C now w p).cache.dirty = true ∧
    (∀ q, (s.buildPackage C now w p).get q = if q = p then some (s.entryOf C now p) else w.get q) ∧
    ∀ path, (s.buildPackage C now w p).file path =
      if path = s.fileOf C p .bytecode then some (s.scratch C p .bytecode)
      else if path = s.fileOf C p .ir then some (s.scratch C p .ir) else w.file path := by
  set f := s.fingerprintOf C p with hf
  set w₀ := markCompiled w p f now with hw₀
  have hget₀ : ∀ q, w₀.get q = if q = p then some ⟨p, f, now, .none⟩ else w.get q :=
    fun q => lookup_insert_eq _ _ _ _
  have hp₀ : w₀.get p = some ⟨p, f, now, .none⟩ := (hget₀ p).trans (if_pos rfl)
  have hstore₀ : sessionStore .ir w₀ p (s.scratch C p .ir) =
      w₀.store .ir p f (s.scratch C p .ir) := by
    simp [sessionStore, hp₀]
  obtain ⟨hb₁, -, hget₁, hfile₁⟩ :=
    store_spec .ir f (s.scratch C p .ir) hp₀
  set w₁ := w₀.store .ir p f (s.scratch C p .ir) with hw₁
  have hp₁ := (hget₁ p).trans (if_pos rfl)
  have hstore₁ : sessionStore .bytecode w₁ p (s.scratch C p .bytecode) =
      w₁.store .bytecode p f (s.scratch C p .bytecode) := by
    simp [sessionStore, hp₁]
  obtain ⟨hb₂, hdirty, hget₂, hfile₂⟩ :=
    store_spec .bytecode f (s.scratch C p .bytecode) hp₁
  have heq : s.buildPackage C now w p = w₁.store .bytecode p f (s.scratch C p .bytecode) := by
    rw [← hstore₁, ← hstore₀]
    rfl
  have hroot₀ : w₀.cache.root = s.root C := hroot
  have hroot₁ : w₁.cache.root = s.root C := hb₁.root.trans hroot₀
  rw [heq]
  refine ⟨⟨hb₂.root.trans hb₁.root, hb₂.config.trans hb₁.config, hb₂.indexes.trans hb₁.indexes⟩,
    hdirty, fun q => ?_, fun path => ?_⟩
  · rw [hget₂, hroot₁, hget₁, hget₀]
    by_cases hq : q = p
    · simp [hq, hroot₀, entryOf, fileOf, relOf, CachedArtifacts.set, CachedArtifacts.none, hf]
    · simp [hq]
  · rw [hfile₂, hroot₁, hfile₁, hroot₀]
    rfl

theorem foldl_buildPackage (now : Nat) (compiled : List String) (hroot : w.cache.root = s.root C) :
    Built w (compiled.foldl (s.buildPackage C now) w) ∧
    (compiled ≠ [] → (compiled.foldl (s.buildPackage C now) w).cache.dirty = true) ∧
    (∀ q, (compiled.foldl (s.buildPackage C now) w).get q =
      if q ∈ compiled then some (s.entryOf C now q) else w.get q) ∧
    ∀ path, (∀ p ∈ compiled, ∀ k, path ≠ s.fileOf C p k) →
      (compiled.foldl (s.buildPackage C now) w).file path = w.file path := by
  induction compiled generalizing w with
  | nil => exact ⟨⟨rfl, rfl, rfl⟩, by simp, by simp, fun path _ => rfl⟩
  | cons p ps ih =>
    obtain ⟨hb, hdirty, hget, hfile⟩ := buildPackage_spec now hroot p
    obtain ⟨hb', hdirty', hget', hfile'⟩ := ih (hb.root.trans hroot)
    refine ⟨⟨hb'.root.trans hb.root, hb'.config.trans hb.config, hb'.indexes.trans hb.indexes⟩,
      fun _ => ?_, fun q => ?_, fun path hpath => ?_⟩
    · by_cases hps : ps = []
      · rw [hps]
        exact hdirty
      · exact hdirty' hps
    · rw [foldl_cons, hget', hget]
      by_cases hq : q = p <;> by_cases hmem : q ∈ ps <;> simp [hq, hmem]
    · rw [foldl_cons, hfile' path fun q hq => hpath q (mem_cons_of_mem p hq), hfile,
        if_neg (hpath p mem_cons_self .bytecode), if_neg (hpath p mem_cons_self .ir)]

variable {k : ArtifactKind}

theorem kind_of_fileOf {k' : ArtifactKind} (h : s.fileOf C p k = s.fileOf C q k') : k = k' :=
  @kind_of_path ⟨s.root C, p, s.fingerprintOf C p, k⟩ ⟨s.root C, q, s.fingerprintOf C q, k'⟩ h

variable {now : Nat}

theorem file_foldl_buildPackage (hroot : w.cache.root = s.root C)
    (hapart : ∀ p ∈ compiled, ∀ q ∈ compiled, ∀ k, s.fileOf C p k = s.fileOf C q k → p = q) (hp : p ∈ compiled) :
    (compiled.foldl (s.buildPackage C now) w).file (s.fileOf C p k) = some (s.scratch C p k) := by
  induction compiled generalizing w with
  | nil => cases hp
  | cons x xs ih =>
    obtain ⟨hb, -, -, hfile⟩ := buildPackage_spec now hroot x
    have hroot' := hb.root.trans hroot
    by_cases hxs : p ∈ xs
    · exact ih hroot' (fun q hq q' hq' => hapart q (by simp [hq]) q' (by simp [hq'])) hxs
    · obtain rfl : p = x := (mem_cons.1 hp).resolve_right hxs
      have hlater : ∀ q ∈ xs, ∀ k', s.fileOf C p k ≠ s.fileOf C q k' := by
        intro q hq k' heq
        obtain rfl : k = k' := kind_of_fileOf heq
        have hpq := hapart p hp q (by simp [hq]) k heq
        exact hxs (hpq ▸ hq)
      rw [foldl_cons, (foldl_buildPackage now xs hroot').2.2.2 _ hlater, hfile]
      cases k with
      | ir =>
        have hne : s.fileOf C p .ir ≠ s.fileOf C p .bytecode := by
          intro heq
          exact absurd (kind_of_fileOf heq) (by simp)
        rw [if_neg hne, if_pos rfl]
      | bytecode => rw [if_pos rfl]

/-- The files of an entry are what compiling the sources of its snapshot gives. -/
structure Stored (C : Compiler σ) (s : Workspace σ) (r : Path) (config p : String)
    (e : CachedPackage) (S : Snapshot σ) : Prop where
  source : ∃ packages src, S = snapshot packages p ∧ packages.lookup p = some src ∧
    e.inputFingerprint = C.fingerprint src.text
  file : ∀ k, ∃ rel, e.artifacts.get k = some rel ∧
    r.join rel = artifactPath r p e.inputFingerprint k ∧
    ∀ d, s.disk.files.lookup (artifactPath r p e.inputFingerprint k) = some d →
      d = C.compile config p (view S) k

/-- The entries of an index, with a snapshot for each; what an entry depends on has an entry of
the version in the snapshot. -/
def Entries (C : Compiler σ) (s : Workspace σ) (r : Path) (i : CacheIndex)
    (T : Table String (Snapshot σ)) : Prop :=
  ∀ p e, i.packages.lookup p = some e → ∃ S, T.lookup p = some S ∧
    Stored C s r i.configFingerprint p e S ∧
    ∀ q o, S.lookup q = some o → (i.packages.lookup q).map CachedPackage.inputFingerprint =
      o.map fun src => C.fingerprint src.text

structure Sound (C : Compiler σ) (s : Workspace σ) : Prop where
  entries : ∀ r i, s.disk.indexes.lookup r = some i →
    ∃ T, s.built.lookup r = some T ∧ Entries C s r i T
  known : s.Known C s.packages
  sorts : Sorts s.packages
  closed : s.Closed C

variable {r : Path} {T : Table String (Snapshot σ)} {S : Snapshot σ} {src : PackageSource σ}

theorem Known.eq {packages : Table String (PackageSource σ)} (h : s.Known C packages)
    {src' : PackageSource σ}
    (hT : s.built.lookup r = some T) (hS : T.lookup p = some S)
    (hq : S.lookup q = some (some src)) (hq' : packages.lookup q = some src')
    (hfp : C.fingerprint src.text = C.fingerprint src'.text) : src = src' :=
  h ⟨r, T⟩ ((mem_entries_iff _ _ _).2 hT) ⟨p, S⟩ ((mem_entries_iff _ _ _).2 hS) ⟨q, some src⟩
    ((mem_entries_iff _ _ _).2 hq) src rfl src' hq' hfp

theorem fingerprintOf_eq (h : s.packages.lookup p = some src) :
    s.fingerprintOf C p = C.fingerprint src.text := by
  simp [fingerprintOf, h]

theorem entry_of_hit (h : w.status p f = .hit) :
    ∃ e, w.get p = some e ∧ e.inputFingerprint = f ∧ w.artifactsExist e = true := by
  unfold World.status at h
  cases hget : w.get p with
  | none => exact absurd h (by simp [hget])
  | some e =>
    simp only [hget] at h
    split at h
    · cases h
    · rename_i hfp
      split at h
      · cases h
      · rename_i hexist
        exact ⟨e, rfl, Fingerprint.ext (not_not.1 hfp), by simpa using hexist⟩

theorem Sound.agree (hs : Sound C s) (hp : p ∈ (s.planned C).cached) :
    ∃ e, ∃ i : CacheIndex, ∃ packages, (s.session C).get p = some e ∧ (s.session C).artifactsExist e = true ∧
      Stored C s (s.root C) i.configFingerprint p e (snapshot packages p) ∧
      i.configFingerprint = s.inputs.fingerprint ∧
      ∀ q ∈ reach s.packages p, packages.lookup q = s.packages.lookup q := by
  obtain ⟨hkey, hnot⟩ := cached_iff.1 hp
  obtain ⟨e, hget, hfp, hexist⟩ := entry_of_hit (hit_of_not_recompile hkey hnot)
  obtain ⟨i, hi, hconfig, hindex, hlook⟩ := session_get hget
  obtain ⟨T, hT, hentries⟩ := hs.entries _ i hi
  obtain ⟨S, hS, hstored, hversions⟩ := hentries p e hlook
  obtain ⟨packages, src, rfl, hsrc, hefp⟩ := hstored.source
  refine ⟨e, i, packages, hget, hexist, hstored, hconfig, ?_⟩
  have hlookS : ∀ q ∈ reach packages p,
      (snapshot packages p).lookup q = some (packages.lookup q) := by
    intro q hq
    rw [snapshot, lookup_tabulate, if_pos hq]
  -- A dependency that is there is a hit too, and has the version of the snapshot.
  have hsame : ∀ q, q ∈ reach packages p → q ∉ (s.planned C).recompile →
      (i.packages.lookup q).map CachedPackage.inputFingerprint =
        (packages.lookup q).map (fun src => C.fingerprint src.text) →
      p ∈ s.packages.keys → q ∈ reach s.packages p →
      packages.lookup q = s.packages.lookup q := by
    intro q hq hqnot hver hpkey hqreach
    have hgetq : (s.session C).get q = i.packages.lookup q := by
      rw [World.get, hindex]
    cases hnow : s.packages.lookup q with
    | none =>
      have hnone := hs.closed p hpkey q hqreach hnow
      rw [hgetq] at hnone
      rw [hnone, map_none] at hver
      cases hold : packages.lookup q with
      | none => rfl
      | some src₁ => simp [hold] at hver
    | some src₂ =>
      have hqkey : q ∈ s.packages.keys := mem_keys_iff.2 (by simp [hnow])
      obtain ⟨e₂, hget₂, hfp₂, -⟩ := entry_of_hit (hit_of_not_recompile hqkey hqnot)
      rw [← hgetq, hget₂, map_some, hfp₂, fingerprintOf_eq hnow] at hver
      cases hold : packages.lookup q with
      | none => simp [hold] at hver
      | some src₁ =>
        rw [hold, map_some] at hver
        have hq₁ : (snapshot packages p).lookup q = some (some src₁) := by
          rw [hlookS q hq, hold]
        rw [hs.known.eq hT hS hq₁ hnow (some.inj hver).symm]
  intro q hq
  have hall : packages.lookup q = s.packages.lookup q ∧ q ∈ reach packages p ∧
      q ∉ (s.planned C).recompile := by
    rw [mem_reach_iff] at hq
    induction hq with
    | refl =>
      have hself : p ∈ reach packages p := mem_reach_iff.2 .refl
      exact ⟨hsame p hself hnot (hversions p _ (hlookS p hself)) hkey (mem_reach_iff.2 .refl),
        hself, hnot⟩
    | @tail x y hpath hlast ih =>
      obtain ⟨heq, hx, hxnot⟩ := ih
      have himport : y ∈ importsOf packages x := by
        unfold importsOf at hlast ⊢
        rwa [heq]
      have hy : y ∈ reach packages p := mem_reach_iff.2 ((mem_reach_iff.1 hx).tail himport)
      have hynot : y ∉ (s.planned C).recompile := fun hmem => hxnot (recompile_of_import hmem hlast)
      exact ⟨hsame y hy hynot (hversions y _ (hlookS y hy)) hkey
        (mem_reach_iff.2 (hpath.tail hlast)), hy, hynot⟩
  exact hall.1

/-- **What the plan takes from the cache is what compiling would give.** -/
theorem Sound.cached (hs : Sound C s) (hp : p ∈ (s.planned C).cached) (k : ArtifactKind) :
    (s.session C).load k p = some (s.scratch C p k) := by
  obtain ⟨e, i, packages, hget, hexist, hstored, hconfig, hagree⟩ := hs.agree hp
  obtain ⟨rel, hrel, hjoin, hfile⟩ := hstored.file k
  have hread : (s.session C).read rel = s.disk.files.lookup
      (artifactPath (s.root C) p e.inputFingerprint k) := by
    rw [← hjoin]
    rfl
  have hthere : ((s.session C).read rel).isSome = true :=
    all_eq_true.1 hexist rel (CachedArtifacts.mem_toList.2 ⟨k, hrel⟩)
  obtain ⟨d, hd⟩ := isSome_iff_exists.1 hthere
  have hview : view (snapshot packages p) = view (snapshot s.packages p) := view_congr hagree
  have hdata := hfile d (hread.symm.trans hd)
  rw [hconfig, hview] at hdata
  simp [World.load, hget, hrel, hd, hdata, scratch]

theorem Sound.fresh (hs : Sound C s) : s.Fresh C where
  cached _ hp k := hs.cached hp k
  nodup := plan_partition.1
  all := plan_partition.2
  order _ _ _ heq _ himport hd := plan_order hs.sorts heq himport hd

/-! ## A build keeps the invariant -/

theorem known_of_lookup {packages : Table String (PackageSource σ)}
    (h : ∀ r T p S q src src', s.built.lookup r = some T → T.lookup p = some S →
      S.lookup q = some (some src) → packages.lookup q = some src' →
      C.fingerprint src.text = C.fingerprint src'.text → src = src') : s.Known C packages := by
  rintro ⟨r, T⟩ hT ⟨p, S⟩ hS ⟨q, o⟩ hq src ho src' hq' hfp
  obtain rfl : o = some src := ho
  exact h r T p S q src src' ((mem_entries_iff _ _ _).1 hT) ((mem_entries_iff _ _ _).1 hS)
    ((mem_entries_iff _ _ _).1 hq) hq' hfp

theorem lookup_foldl_snapshot (compiled : List String) (T : Table String (Snapshot σ))
    (f : String → Snapshot σ) (q : String) :
    (compiled.foldl (fun T p => T.insert p (f p)) T).lookup q =
      if q ∈ compiled then some (f q) else T.lookup q := by
  induction compiled generalizing T with
  | nil => rfl
  | cons p ps ih =>
    rw [foldl_cons, ih, lookup_insert_eq]
    by_cases hq : q = p <;> by_cases hps : q ∈ ps <;> simp [hq, hps]

theorem session_config (C : Compiler σ) (s : Workspace σ) :
    (s.session C).cache.index.configFingerprint = s.inputs.fingerprint := by
  unfold session World.openCache
  cases hi : s.disk.indexes.lookup (cacheRoot C.projectRoot s.inputs) with
  | none => simp [hi, CacheIndex.new]
  | some i =>
    by_cases hcond : (!i.isCompatible || decide (i.configFingerprint ≠ s.inputs.fingerprint)) = true
    · simp only [hi, if_pos hcond]
      rfl
    · simp only [hi, if_neg hcond]
      by_contra hne
      exact hcond (by simp [hne])

theorem Apart.file_ne {saved : Bool} (h : s.Apart C compiled saved)
    (hleft : (r, p, f) ∈ s.leftEntries C compiled saved)
    (hne : ¬ (r = s.root C ∧ p ∈ compiled ∧ f = s.fingerprintOf C p)) :
    ∀ q ∈ compiled, ∀ k', artifactPath r p f k ≠ s.fileOf C q k' := by
  intro q hq k' heq
  obtain rfl : k = k' := @kind_of_path ⟨r, p, f, k⟩ ⟨s.root C, q, s.fingerprintOf C q, k'⟩ heq
  have hkey := h.1 (r, p, f) hleft q hq k (by cases k <;> simp) heq
  simp only [Prod.mk.injEq] at hkey
  obtain ⟨hr, rfl, hf⟩ := hkey
  exact hne ⟨hr, hq, hf⟩

theorem Apart.same {saved : Bool} (h : s.Apart C compiled saved) :
    ∀ p ∈ compiled, ∀ q ∈ compiled, ∀ k, s.fileOf C p k = s.fileOf C q k → p = q :=
  fun p hp q hq k heq => h.2 p hp q hq k (by cases k <;> simp) heq

theorem mem_left_disk {saved : Bool} {i : CacheIndex} (hi : s.disk.indexes.lookup r = some i)
    (he : i.packages.lookup p = some e) (hr : ¬ (r = s.root C ∧ saved = true)) :
    (r, p, e.inputFingerprint) ∈ s.leftEntries C compiled saved := by
  refine mem_append_left _ (mem_flatMap.2 ⟨⟨r, i⟩, ?_, ?_⟩)
  · exact mem_filter.2 ⟨(mem_entries_iff _ _ _).2 hi, decide_eq_true hr⟩
  · exact mem_map.2 ⟨⟨p, e⟩, (mem_entries_iff _ _ _).2 he, rfl⟩

theorem mem_left_session (he : (s.session C).get p = some e) (hp : p ∉ compiled) :
    (s.root C, p, e.inputFingerprint) ∈ s.leftEntries C compiled true := by
  refine mem_append_right _ ?_
  exact mem_map.2 ⟨⟨p, e⟩, mem_filter.2 ⟨(mem_entries_iff _ _ _).2 he, by simpa using hp⟩, rfl⟩

variable {s' : Workspace σ}

theorem Stored.frame {config : String} (h : Stored C s r config p e S)
    (hfile : ∀ k, s'.disk.files.lookup (artifactPath r p e.inputFingerprint k) =
      s.disk.files.lookup (artifactPath r p e.inputFingerprint k)) :
    Stored C s' r config p e S := by
  refine ⟨h.source, fun k => ?_⟩
  obtain ⟨rel, hrel, hjoin, hd⟩ := h.file k
  exact ⟨rel, hrel, hjoin, fun d hd' => hd d ((hfile k).symm.trans hd')⟩

theorem Sound.killed (hs : Sound C s)
    (hapart : s.Apart C compiled false) (hrewrites : s.Rewrites C compiled) :
    Sound C { s with disk := (compiled.foldl (s.buildPackage C now) (s.session C)).disk } := by
  set w := compiled.foldl (s.buildPackage C now) (s.session C) with hw
  have hroot : (s.session C).cache.root = s.root C := rfl
  obtain ⟨hbuilt, -, -, hfile⟩ := foldl_buildPackage now compiled hroot
  have hindexes : w.disk.indexes = s.disk.indexes := hbuilt.indexes
  have hsession : ∀ q, (session C { s with disk := w.disk }).get q = (s.session C).get q := by
    intro q
    simp only [session, World.openCache, World.get, hindexes]
  refine ⟨fun r i hi => ?_, hs.known, hs.sorts, ?_⟩
  · have hi : s.disk.indexes.lookup r = some i := hindexes ▸ hi
    obtain ⟨T, hT, hentries⟩ := hs.entries r i hi
    refine ⟨T, hT, fun p e he => ?_⟩
    obtain ⟨S, hS, hstored, hversions⟩ := hentries p e he
    refine ⟨S, hS, ?_, hversions⟩
    have hleft : (r, p, e.inputFingerprint) ∈ s.leftEntries C compiled false :=
      mem_left_disk hi he (by simp)
    by_cases hown : r = s.root C ∧ p ∈ compiled ∧ e.inputFingerprint = s.fingerprintOf C p
    · -- The files of this entry were written again.
      obtain ⟨rfl, hp, hfp⟩ := hown
      obtain ⟨hconfig, hagree⟩ := hrewrites p hp i hi e he hfp
      obtain ⟨packages, src, rfl, hsrc, hefp⟩ := hstored.source
      have hview : view (snapshot s.packages p) = view (snapshot packages p) := by
        refine view_congr fun q hq => ?_
        have hlook : (snapshot packages p).lookup q = some (packages.lookup q) := by
          rw [snapshot, lookup_tabulate, if_pos hq]
        exact (hagree T hT _ hS ⟨q, packages.lookup q⟩ ((mem_entries_iff _ _ _).2 hlook)).symm
      refine ⟨hstored.source, fun k => ?_⟩
      obtain ⟨rel, hrel, hjoin, -⟩ := hstored.file k
      refine ⟨rel, hrel, hjoin, fun d hd => ?_⟩
      have hwritten : w.file (s.fileOf C p k) = some (s.scratch C p k) :=
        file_foldl_buildPackage hroot hapart.same hp
      rw [hfp] at hd
      rw [hconfig, ← hview]
      exact some.inj (hd.symm.trans hwritten)
    · exact hstored.frame fun k => hfile _ (hapart.file_ne hleft hown)
  · intro p hp q hq hnone
    rw [hsession]
    exact hs.closed p hp q hq hnone

theorem opened_eq (hget : (s.session C).get p = some e) (hT : s.built.lookup (s.root C) = some T) :
    s.opened C = T := by
  have hne : (s.session C).cache.index.packages.entries ≠ [] :=
    ne_nil_of_mem ((mem_entries_iff _ _ _).2 hget)
  rw [opened, if_neg hne, hT, getD_some]

theorem Sound.session_entry (hs : Sound C s) (hget : (s.session C).get p = some e) :
    ∃ S, (s.opened C).lookup p = some S ∧ Stored C s (s.root C) s.inputs.fingerprint p e S ∧
      ∀ q o, S.lookup q = some o → ((s.session C).get q).map CachedPackage.inputFingerprint =
        o.map fun src => C.fingerprint src.text := by
  obtain ⟨i, hi, hconfig, hindex, hlook⟩ := session_get hget
  obtain ⟨T, hT, hentries⟩ := hs.entries _ i hi
  obtain ⟨S, hS, hstored, hversions⟩ := hentries p e hlook
  refine ⟨S, ?_, hconfig ▸ hstored, fun q o hq => ?_⟩
  · rw [opened_eq hget hT, hS]
  · rw [World.get, hindex]
    exact hversions q o hq

theorem stored_entryOf (hp : p ∈ s.packages.keys)
    (hfile : ∀ k, s'.disk.files.lookup (s.fileOf C p k) = some (s.scratch C p k)) :
    Stored C s' (s.root C) s.inputs.fingerprint p (s.entryOf C now p) (snapshot s.packages p) := by
  obtain ⟨src, hsrc⟩ := isSome_iff_exists.1 (mem_keys_iff.1 hp)
  refine ⟨⟨s.packages, src, rfl, hsrc, fingerprintOf_eq hsrc⟩, fun k => ?_⟩
  have hinside := artifactPath_inside ⟨s.root C, p, s.fingerprintOf C p, k⟩
  refine ⟨relOf (s.root C) (s.fileOf C p k), by cases k <;> rfl,
    Path.join_stripPrefix hinside, fun d hd => ?_⟩
  exact some.inj (hd.symm.trans (hfile k))

theorem Sound.versions_compiled (hs : Sound C s)
    (htaken : compiled <+: (s.planned C).recompile) (hp : p ∈ compiled)
    {o : Option (PackageSource σ)} (hq : (snapshot s.packages p).lookup q = some o) :
    ((compiled.foldl (s.buildPackage C now) (s.session C)).get q).map
      CachedPackage.inputFingerprint = o.map fun src => C.fingerprint src.text := by
  have hpkey : p ∈ s.packages.keys := mem_keys_of_recompile (htaken.subset hp)
  rw [snapshot, lookup_tabulate] at hq
  split at hq
  · rename_i hreach
    cases hq
    have hroot : (s.session C).cache.root = s.root C := rfl
    rw [(foldl_buildPackage now compiled hroot).2.2.1 q]
    cases hnow : s.packages.lookup q with
    | none =>
      have hnot : q ∉ compiled := by
        intro hmem
        have hkey := mem_keys_iff.1 (mem_keys_of_recompile (htaken.subset hmem))
        simp [hnow] at hkey
      rw [if_neg hnot, hs.closed p hpkey q hreach hnow]
      rfl
    | some src =>
      split_ifs with hmem
      · exact congrArg some (fingerprintOf_eq hnow)
      · have hnot := (prefix_closed hs.sorts htaken hp hreach).resolve_left hmem
        have hkey : q ∈ s.packages.keys := mem_keys_iff.2 (by simp [hnow])
        obtain ⟨e, hget, hfp, -⟩ := entry_of_hit (hit_of_not_recompile hkey hnot)
        rw [hget, map_some, hfp, fingerprintOf_eq hnow]
        rfl
  · cases hq

theorem Sound.saved (hs : Sound C s)
    (htaken : compiled <+: (s.planned C).recompile) (hne : compiled ≠ [])
    (hapart : s.Apart C compiled true) (hver : s.Versions C compiled) : Sound C { s with
      disk := (compiled.foldl (s.buildPackage C now) (s.session C)).flush.disk
      built := s.built.insert (s.root C)
        (compiled.foldl (fun T p => T.insert p (snapshot s.packages p)) (s.opened C)) } := by
  set w := compiled.foldl (s.buildPackage C now) (s.session C) with hw
  set T' := compiled.foldl (fun T p => T.insert p (snapshot s.packages p)) (s.opened C) with hT'
  set s' : Workspace σ := { s with
    disk := w.flush.disk
    built := s.built.insert (s.root C) T' } with hs'
  have hroot : (s.session C).cache.root = s.root C := rfl
  obtain ⟨hbuilt, hdirty, hget, hfile⟩ := foldl_buildPackage now compiled hroot
  have hflush : w.flush.disk = { w.disk with
      indexes := s.disk.indexes.insert (s.root C) w.cache.index } := by
    rw [World.flush, if_pos (hdirty hne), hbuilt.indexes, hbuilt.root]
    rfl
  have hfiles : ∀ path, s'.disk.files.lookup path = w.file path := by
    intro path
    rw [hs', hflush]
    rfl
  have hindexes : ∀ r, s'.disk.indexes.lookup r =
      if r = s.root C then some w.cache.index else s.disk.indexes.lookup r := by
    intro r
    rw [hs', hflush]
    exact lookup_insert_eq _ _ _ _
  have hlookT : ∀ q, T'.lookup q =
      if q ∈ compiled then some (snapshot s.packages q) else (s.opened C).lookup q :=
    lookup_foldl_snapshot compiled _ _
  have hconfig : w.cache.index.configFingerprint = s.inputs.fingerprint :=
    hbuilt.config.trans (session_config C s)
  -- Every index on the disk: the one just saved, and those of other configurations.
  refine ⟨fun r i hi => ?_, ?_, hs.sorts, ?_⟩
  · rw [hindexes] at hi
    by_cases hr : r = s.root C
    · subst hr
      rw [if_pos rfl] at hi
      cases hi
      refine ⟨T', AList.lookup_insert _, fun p e he => ?_⟩
      have he : w.get p = some e := he
      rw [hget] at he
      rw [hconfig]
      -- Compiled in this build, or kept from the index that the session has opened.
      split_ifs at he with hp
      · cases he
        refine ⟨_, (hlookT p).trans (if_pos hp), ?_, fun q o hq => ?_⟩
        · refine stored_entryOf (mem_keys_of_recompile (htaken.subset hp)) fun k => ?_
          rw [hfiles]
          exact file_foldl_buildPackage hroot hapart.same hp
        · exact hs.versions_compiled htaken hp hq
      · obtain ⟨S, hS, hstored, hversions⟩ := hs.session_entry he
        refine ⟨S, (hlookT p).trans ((if_neg hp).trans hS), hstored.frame fun k => ?_,
          fun q o hq => ?_⟩
        · rw [hfiles]
          exact hfile _ (hapart.file_ne (mem_left_session he hp) fun h => hp h.2.1)
        · change (w.get q).map _ = _
          rw [hget]
          by_cases hmem : q ∈ compiled
          · have hvers := hver ⟨p, S⟩ ((mem_entries_iff _ _ _).2 hS) hp q hmem o hq
            rw [if_pos hmem, hvers]
            rfl
          · rw [if_neg hmem]
            exact hversions q o hq
    -- Another configuration has its own directory, which the build leaves alone.
    · rw [if_neg hr] at hi
      obtain ⟨T, hT, hentries⟩ := hs.entries r i hi
      refine ⟨T, (AList.lookup_insert_ne hr).trans hT, fun p e he => ?_⟩
      obtain ⟨S, hS, hstored, hversions⟩ := hentries p e he
      refine ⟨S, hS, hstored.frame fun k => ?_, hversions⟩
      rw [hfiles]
      exact hfile _ (hapart.file_ne (mem_left_disk hi he fun h => hr h.1) fun h => hr h.1)
  -- Fingerprints: what a record says of a package is what was read when it was made.
  · refine known_of_lookup fun r T p S q src src' hT hS hq hq' hfp => ?_
    rw [lookup_insert_eq] at hT
    split_ifs at hT with hr
    · cases hT
      rw [hlookT] at hS
      split_ifs at hS with hp
      · cases hS
        rw [snapshot, lookup_tabulate] at hq
        split at hq
        · exact some.inj ((some.inj hq).symm.trans hq')
        · cases hq
      · have hTS : ∃ T, s.built.lookup (s.root C) = some T ∧ T.lookup p = some S := by
          unfold opened at hS
          split at hS
          · cases hS
          · cases hb : s.built.lookup (s.root C) with
            | none => simp [hb] at hS
            | some T => exact ⟨T, rfl, by simpa [hb] using hS⟩
        obtain ⟨T, hT, hS⟩ := hTS
        exact hs.known.eq hT hS hq hq' hfp
    · exact hs.known.eq hT hS hq hq' hfp
  -- An import that no source defines has no entry in the session to come.
  · intro p hp q hq hnone
    cases hg : (s'.session C).get q with
    | none => rfl
    | some e =>
      obtain ⟨i, hi, -, -, hlook⟩ := session_get hg
      have hi : s'.disk.indexes.lookup (s.root C) = some i := hi
      rw [hindexes, if_pos rfl] at hi
      cases hi
      have hwq : w.get q = some e := hlook
      rw [hget] at hwq
      by_cases hmem : q ∈ compiled
      · have hkey := mem_keys_iff.1 (mem_keys_of_recompile (htaken.subset hmem))
        have hnone' : s.packages.lookup q = none := hnone
        simp [hnone'] at hkey
      · rw [if_neg hmem, hs.closed p hp q hq hnone] at hwq
        cases hwq

/-- **One edit or build that meets its condition keeps the invariant.** -/
theorem sound_step (hs : Sound C s) (edit : Edit σ) (hmeets : s.Meets C edit)
    (hstep : s.step C edit = some s') : Sound C s' := by
  cases edit with
  | edit packages inputs =>
    cases hstep
    obtain ⟨hsorts, hknown, hclosed⟩ := hmeets
    refine ⟨fun r i hi => ?_, hknown, hsorts, hclosed⟩
    obtain ⟨T, hT, hentries⟩ := hs.entries r i hi
    refine ⟨T, hT, fun p e he => ?_⟩
    obtain ⟨S, hS, hstored, hversions⟩ := hentries p e he
    exact ⟨S, hS, hstored.frame fun _ => rfl, hversions⟩
  | build compiled now saved =>
    obtain ⟨hapart, hsaved, hkilled⟩ := hmeets
    rw [step] at hstep
    split at hstep
    · rename_i htaken
      split_ifs at hstep with hcond
      · cases hstep
        rw [hcond.1] at hapart
        exact hs.saved htaken hcond.2 hapart (hsaved hcond.1)
      · cases hstep
        cases saved with
        | false => exact hs.killed hapart (hkilled rfl)
        | true =>
          obtain rfl : compiled = [] := by simpa using hcond
          exact hs
    · cases hstep

/-- A project that has never been built. -/
def start (inputs : CompileInputs) : Workspace σ := ⟨∅, inputs, ⟨∅, ∅⟩, ∅⟩

theorem sound_start (C : Compiler σ) (inputs : CompileInputs) : Sound C (start inputs) where
  entries _ _ hi := absurd hi (by simp [start])
  known := by
    rintro i hi
    exact absurd hi (by simp [start])
  sorts := by
    rfl
  closed := by
    rintro p hp
    exact absurd hp (by simp [start])

/-- **In a run whose edits and builds all meet the condition every plan is right.** -/
theorem fresh_of_meets (C : Compiler σ) (inputs : CompileInputs) (edits : List (Edit σ))
    (hmeets : Along (step C) (Meets C) (start inputs) edits) :
    Always (step C) (Fresh C) (start inputs) edits := by
  have hsound : Always (step C) (Sound C) (start inputs) edits :=
    always_of_along (fun s edit s' hs hc hstep => sound_step hs edit hc hstep)
      (sound_start C inputs) hmeets
  exact hsound.mono fun s hs => hs.fresh

section Examples

/-- A compiler whose output lists the sources it has read. -/
def listing : Compiler Fingerprint where
  projectRoot := History.home
  iter := ⟨id, fun _ => .refl _⟩
  fingerprint := id
  compile _ p v k := (if k = .ir then 0 else 1) :: ["app", "lib", p].flatMap fun q =>
    (v q).elim [0] fun src => src.text.hash.toList.map fun c => UInt8.ofNat c.toNat

def project (app lib : Fingerprint) : Table String (PackageSource Fingerprint) :=
  ((∅ : Table String (PackageSource Fingerprint)).insert "app" ⟨app, ["lib"]⟩).insert "lib"
    ⟨lib, []⟩

/-- Both packages are built, `lib` is edited, and a build is saved before it comes to `app`. -/
def interrupted : List (Edit Fingerprint) :=
  [.edit (project History.early History.early) History.vm, .build ["lib", "app"] 1 true,
    .edit (project History.early History.late) History.vm, .build ["lib"] 2 true]

theorem interrupted_runs : (run (step listing) (start History.vm) interrupted).isSome = true := by
  decide +kernel

/-- **An interrupted build** makes the dependents of what it compiled look clean. -/
theorem interrupted_stale :
    ¬ Always (step listing) (Fresh listing) (start History.vm) interrupted := by
  intro hall
  have hfresh := hall.last (Option.some_get interrupted_runs).symm
  have hload := hfresh.cached "app" (by decide +kernel) .ir
  exact absurd hload (by decide +kernel)

/-- The same edit, but the build is killed and the next one is not. -/
def rebuilt : List (Edit Fingerprint) :=
  [.edit (project History.early History.early) History.vm, .build ["lib", "app"] 1 true,
    .edit (project History.early History.late) History.vm, .build ["lib"] 2 false,
    .build ["lib", "app"] 3 true, .edit (project History.early History.late) ⟨"llvm", "c1"⟩,
    .build ["lib"] 4 true]

theorem rebuilt_fresh : Always (step listing) (Fresh listing) (start History.vm) rebuilt :=
  fresh_of_meets listing History.vm rebuilt (by decide +kernel)

end Examples

end Workspace

end Arth.Driver
