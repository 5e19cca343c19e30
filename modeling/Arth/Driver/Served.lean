import Arth.Lib.Runs
import Arth.Driver.ProjectCache

/-!
# What the cache serves

A run is a sequence of operations on one cache that may be dropped and opened again. Beside the
cache it keeps the bytes last stored for each package, fingerprint and kind of file, under each
root.

* `Meets` — an entry is inserted with the files stored for it and no others, a file is stored
  under the fingerprint of the entry, and no two entries share a file.
* `Sound`, `sound_step` — the invariant: a file that an entry names holds what was last stored.
* `served_of_meets` — a run whose operations all meet the condition serves only such bytes.
-/

namespace Arth.Driver

open KeyTable Runs List Option

/-- What a file is stored for. -/
structure Key where
  root : Path
  package : String
  fingerprint : Fingerprint
  kind : ArtifactKind
  deriving DecidableEq

def Key.path (κ : Key) : Path := artifactPath κ.root κ.package κ.fingerprint κ.kind

namespace Path

theorem startsWith_iff {p base : Path} :
    p.startsWith base = true ↔ p.absolute = base.absolute ∧ base.components <+: p.components := by
  simp [startsWith]

theorem joinStr_inside {p root : Path} (h : p.absolute = true ∨ p.startsWith root = true)
    (s : String) : (p.joinStr s).absolute = true ∨ (p.joinStr s).startsWith root = true := by
  unfold joinStr join
  split_ifs with habs
  · exact .inl habs
  · rcases h with h | h
    · exact .inl h
    · obtain ⟨habs, hpre⟩ := startsWith_iff.1 h
      exact .inr (startsWith_iff.2 ⟨habs, hpre.trans (prefix_append _ _)⟩)

theorem join_stripPrefix {p root : Path} (h : p.absolute = true ∨ p.startsWith root = true) :
    root.join ((p.stripPrefix root).getD p) = p := by
  unfold stripPrefix
  split_ifs with hstarts
  · obtain ⟨habs, rest, hrest⟩ := startsWith_iff.1 hstarts
    have hcomponents : root.components ++ p.components.drop root.components.length =
        p.components := by
      rw [← hrest, drop_left]
    simp [join, ← habs, hcomponents]
  · have habs : p.absolute = true := h.resolve_right hstarts
    simp [join, habs]

end Path

theorem artifactPath_inside (κ : Key) :
    κ.path.absolute = true ∨ κ.path.startsWith κ.root = true := by
  have hself : κ.root.startsWith κ.root = true :=
    Path.startsWith_iff.2 ⟨rfl, prefix_refl _⟩
  exact Path.joinStr_inside (Path.joinStr_inside (Path.joinStr_inside (.inr hself) _) _) _

theorem short_plain (f : Fingerprint) : ∀ c ∈ f.short.toList, c.isAlphanum = true := by
  have hall := all_eq_true.1 f.plain
  intro c hc
  unfold Fingerprint.short at hc
  split at hc
  · rw [String.toList_ofList] at hc
    exact hall c (mem_of_mem_take hc)
  · exact hall c hc

theorem components_file (f : Fingerprint) (k : ArtifactKind) :
    Path.ofString (f.short ++ k.suffix) = ⟨false, [f.short ++ k.suffix]⟩ := by
  have hslash : ∀ c ∈ (f.short ++ k.suffix).toList, c ≠ '/' := by
    intro c hc
    rw [String.toList_append] at hc
    rcases mem_append.1 hc with hc | hc
    · rintro rfl
      exact absurd (short_plain f _ hc) (by decide)
    · have hsuffix : ∀ c ∈ k.suffix.toList, c ≠ '/' := by
        cases k <;> simp [ArtifactKind.suffix]
      exact hsuffix c hc
  have hlong : 2 ≤ (f.short ++ k.suffix).toList.length := by
    cases k <;> simp [ArtifactKind.suffix]
  have hhead : (f.short ++ k.suffix).toList.head? ≠ some '/' :=
    fun h => hslash _ (mem_of_mem_head? h) rfl
  have hsplit : (f.short ++ k.suffix).toList.splitOn '/' = [(f.short ++ k.suffix).toList] := by
    apply splitOnP_eq_singleton
    simpa using hslash
  have hkeep : (f.short ++ k.suffix).toList ≠ [] ∧ (f.short ++ k.suffix).toList ≠ ['.'] := by
    constructor <;> intro h <;> rw [h] at hlong <;> simp at hlong
  simp only [Path.ofString, hsplit]
  simp [hhead, hkeep, -String.toList_append]

variable {κ : Key} {ps : List String}

theorem kind_of_path {κ' : Key} (h : κ.path = κ'.path) : κ.kind = κ'.kind := by
  have hlast : ∀ κ : Key, κ.path.components.getLast? =
      some (κ.fingerprint.short ++ κ.kind.suffix) := by
    intro κ
    simp [Key.path, artifactPath, Path.joinStr, Path.join, components_file]
  have hname : κ.fingerprint.short ++ κ.kind.suffix = κ'.fingerprint.short ++ κ'.kind.suffix := by
    have := (hlast κ).symm.trans ((congrArg (fun p => p.components.getLast?) h).trans (hlast κ'))
    exact some.inj this
  have hend := congrArg (fun s => s.toList.getLast?) hname
  cases hk : κ.kind <;> cases hk' : κ'.kind <;> simp [hk, hk', ArtifactKind.suffix] at hend ⊢

/-! ## The entries after each operation -/

namespace World

variable {w : World} {p : String} {path : Path} {d : Bytes}

/-- What a path leads to. -/
def file (w : World) (path : Path) : Option Bytes := w.disk.files.lookup path

@[simp] theorem get_setPackages (t : Table String CachedPackage) :
    (w.setPackages t).get p = t.lookup p := rfl

theorem file_removeFiles (rels : List Path) : (w.removeFiles rels).file path =
      if path ∈ rels.map w.cache.root.join then none else w.file path :=
  lookup_foldl_erase w.cache.root.join rels w.disk.files path

theorem get_remove (p q : String) : (w.remove p).get q = if q = p then none else w.get q := by
  unfold remove
  cases hp : w.get p with
  | none =>
    split_ifs with hq
    · rw [hq, hp]
    · rfl
  | some entry => exact lookup_erase_eq _ _ _

theorem file_remove (hfile : (w.remove p).file path = some d) : w.file path = some d := by
  unfold remove at hfile
  cases hp : w.get p with
  | none => simpa [hp] using hfile
  | some entry =>
    simp only [hp, file_removeFiles] at hfile
    split at hfile
    · cases hfile
    · exact hfile

theorem file_remove_kept
    (hkept : ∀ entry, w.get p = some entry → path ∉ entry.artifacts.toList.map w.cache.root.join) :
    (w.remove p).file path = w.file path := by
  unfold remove
  cases hp : w.get p with
  | none => rfl
  | some entry => exact (file_removeFiles _).trans (if_neg (hkept entry hp))

@[simp] theorem root_remove : (w.remove p).cache.root = w.cache.root := by
  unfold remove
  split <;> rfl

@[simp] theorem indexes_remove : (w.remove p).disk.indexes = w.disk.indexes := by
  unfold remove
  split <;> rfl

theorem foldl_remove (ps : List String) (w : World) :
    (ps.foldl remove w).cache.root = w.cache.root ∧
    (ps.foldl remove w).disk.indexes = w.disk.indexes ∧
    (∀ q, (ps.foldl remove w).get q = if q ∈ ps then none else w.get q) ∧
    ∀ path d, (ps.foldl remove w).file path = some d → w.file path = some d := by
  induction ps generalizing w with
  | nil => exact ⟨rfl, rfl, fun q => by simp, fun path d h => h⟩
  | cons p ps ih =>
    obtain ⟨hroot, hindexes, hget, hfile⟩ := ih (w.remove p)
    refine ⟨hroot.trans root_remove, hindexes.trans indexes_remove, fun q => ?_, fun path d h => ?_⟩
    · rw [foldl_cons, hget, get_remove]
      by_cases hq : q = p <;> by_cases hmem : q ∈ ps <;> simp [hq, hmem]
    · exact file_remove (hfile path d h)

theorem file_foldl_remove (hkept : ∀ p ∈ ps, ∀ entry, w.get p = some entry →
    path ∉ entry.artifacts.toList.map w.cache.root.join) :
    (ps.foldl remove w).file path = w.file path := by
  induction ps generalizing w with
  | nil => rfl
  | cons p ps ih =>
    rw [foldl_cons, ih, file_remove_kept (hkept p (by simp))]
    intro q hq entry hentry
    rw [get_remove] at hentry
    split at hentry
    · cases hentry
    · simpa using hkept q (by simp [hq]) entry hentry

theorem get_invalidate (ps : List String) (q : String) :
    (w.invalidate ps).get q = if q ∈ ps then none else w.get q :=
  (foldl_remove ps w).2.2.1 q

end World

/-! ## Runs -/

/-- A cache in use, and the bytes last stored under each key. -/
structure History where
  world : World
  log : Table Key Bytes

inductive Op where
  | insert (entry : CachedPackage)
  | store (k : ArtifactKind) (package : String) (f : Fingerprint) (data : Bytes)
  | invalidate (packages : List String)
  | gc (now maxAgeDays : Nat)
  | clear
  | flush
  | reopen (inputs : CompileInputs)

namespace World

/-- The indexes that may still answer: the open one, and those on disk that no flush is about to
replace. -/
def liveIndexes (w : World) : List (Path × CacheIndex) :=
  (w.cache.root, w.cache.index) ::
    ((w.disk.indexes.entries.map fun e => (e.1, e.2)).filter fun e =>
      e.1 ≠ w.cache.root ∨ w.cache.dirty = false)

/-- The keys whose files an entry of a live index names. -/
def liveKeys (w : World) : List Key :=
  w.liveIndexes.flatMap fun i => i.2.packages.entries.flatMap fun e =>
    [ArtifactKind.ir, .bytecode].filterMap fun k =>
      (e.2.artifacts.get k).map fun _ => ⟨i.1, e.1, e.2.inputFingerprint, k⟩

/-- The cache about to get another entry for the package. -/
def without (w : World) (package : String) : World :=
  w.setPackages (w.cache.index.packages.erase package)

/-- No live entry names the file of the key for another one. -/
def Free (w : World) (κ : Key) : Prop := ∀ κ' ∈ w.liveKeys, κ'.path = κ.path → κ' = κ

instance (w : World) (κ : Key) : Decidable (w.Free κ) := by
  unfold Free
  infer_instance

end World

namespace History

variable (projectRoot : Path)

/-- The first opening of the cache, in a project that has none. -/
def start (inputs : CompileInputs) : History where
  world := World.openCache ⟨∅, ∅⟩ projectRoot inputs
  log := ∅

def step (h : History) : Op → History
  | .insert entry => { h with world := h.world.insert entry }
  | .store k package f data =>
    { world := h.world.store k package f data
      log := h.log.insert ⟨h.world.cache.root, package, f, k⟩ data }
  | .invalidate packages => { h with world := h.world.invalidate packages }
  | .gc now maxAgeDays => { h with world := (h.world.gc now maxAgeDays).1 }
  | .clear => { h with world := h.world.clear }
  | .flush => { h with world := h.world.flush }
  | .reopen inputs => { h with world := World.openCache h.world.flush.disk projectRoot inputs }

def next (h : History) (op : Op) : Option History := some (h.step projectRoot op)

/-- A hit gives the bytes last stored for the package under the fingerprint, and the collection
of old entries takes no file that an entry it keeps refers to. -/
def Served (h : History) : Prop :=
  (∀ p f, h.world.status p f = .hit → ∀ k,
    h.world.load k p = h.log.lookup ⟨h.world.cache.root, p, f, k⟩) ∧
  ∀ now maxAgeDays p entry rel, (h.world.gc now maxAgeDays).1.get p = some entry →
    rel ∈ entry.artifacts.toList → (h.world.gc now maxAgeDays).1.read rel = h.world.read rel

/-- The file the entry names is the one stored for the key, with the bytes last stored. -/
def Names (h : History) (κ : Key) : Option Path → Prop
  | none => h.log.lookup κ = none
  | some rel => κ.root.join rel = κ.path ∧ (h.log.lookup κ).isSome = true ∧
      h.world.file κ.path = h.log.lookup κ

instance (h : History) (κ : Key) : ∀ rel, Decidable (h.Names κ rel)
  | none => inferInstanceAs (Decidable (_ = _))
  | some _ => inferInstanceAs (Decidable (_ ∧ _ ∧ _))

/-- A key without an entry in the open index that an entry on disk is waiting for. -/
def Awaited (h : History) (κ : Key) : Prop :=
  h.world.cache.dirty = false ∧ ∃ e ∈ h.world.disk.indexes.entries, e.1 = κ.root ∧
    ∃ entry ∈ e.2.packages.lookup κ.package,
      entry.inputFingerprint = κ.fingerprint ∧ entry.artifacts.get κ.kind = none

instance (h : History) (κ : Key) : Decidable (h.Awaited κ) := by
  unfold Awaited
  infer_instance

/-- When a file may be stored. -/
def MayStore (h : History) (κ : Key) : Option CachedPackage → Prop
  | some entry => entry.inputFingerprint = κ.fingerprint ∧ (h.world.without κ.package).Free κ
  | none => ¬ h.Awaited κ ∧ h.world.Free κ

instance (h : History) (κ : Key) : ∀ entry, Decidable (h.MayStore κ entry)
  | none => inferInstanceAs (Decidable (_ ∧ _))
  | some _ => inferInstanceAs (Decidable (_ ∧ _))

/-- **The condition on an operation.** An entry is inserted with the files stored for it and no
others, a file is stored under the fingerprint of the entry, and no two entries share a file. -/
def Meets (h : History) : Op → Prop
  | .insert entry => ∀ k ∈ [ArtifactKind.ir, .bytecode],
      let κ : Key := ⟨h.world.cache.root, entry.name, entry.inputFingerprint, k⟩
      h.Names κ (entry.artifacts.get k) ∧
        (entry.artifacts.get k ≠ none → (h.world.without entry.name).Free κ)
  | .store k package f _ =>
      h.MayStore ⟨h.world.cache.root, package, f, k⟩ (h.world.get package)
  | _ => True

instance (h : History) : ∀ op, Decidable (h.Meets op)
  | .insert _ => inferInstanceAs (Decidable (∀ _ ∈ _, _))
  | .store _ _ _ _ => inferInstanceAs (Decidable (MayStore _ _ _))
  | .invalidate _ => .isTrue trivial
  | .gc _ _ => .isTrue trivial
  | .clear => .isTrue trivial
  | .flush => .isTrue trivial
  | .reopen _ => .isTrue trivial

end History

/-! ## Live entries -/

namespace World

variable {w : World} {r path : Path} {p q : String} {e e' : CachedPackage} {d : Bytes}

/-- The entry of a package in a live index. -/
def Live (w : World) (r : Path) (p : String) (e : CachedPackage) : Prop :=
  (r = w.cache.root ∧ w.get p = some e) ∨
    ((r ≠ w.cache.root ∨ w.cache.dirty = false) ∧
      ∃ i, w.disk.indexes.lookup r = some i ∧ i.packages.lookup p = some e)

theorem mem_liveKeys : κ ∈ w.liveKeys ↔
    ∃ e, w.Live κ.root κ.package e ∧ e.inputFingerprint = κ.fingerprint ∧
      e.artifacts.get κ.kind ≠ none := by
  have hkind : ∀ k : ArtifactKind, k ∈ [ArtifactKind.ir, .bytecode] := by
    intro k
    cases k <;> simp
  simp only [liveKeys, mem_flatMap, mem_filterMap, map_eq_some_iff]
  constructor
  · rintro ⟨⟨r, i⟩, hi, ⟨p, e⟩, he, k, -, rel, hrel, rfl⟩
    refine ⟨e, ?_, rfl, by simp [hrel]⟩
    have hlook : i.packages.lookup p = some e := (mem_entries_iff _ _ _).1 he
    rcases mem_cons.1 hi with hi | hi
    · cases hi
      exact .inl ⟨rfl, hlook⟩
    · obtain ⟨hin, hor⟩ := mem_filter.1 hi
      obtain ⟨⟨r', i'⟩, hmem, heq⟩ := mem_map.1 hin
      cases heq
      exact .inr ⟨by simpa using hor, i', (mem_entries_iff _ _ _).1 hmem, hlook⟩
  · rintro ⟨e, hlive, hfp, hne⟩
    obtain ⟨rel, hrel⟩ := ne_none_iff_exists'.1 hne
    rcases hlive with ⟨hroot, hget⟩ | ⟨hor, i, hi, hlook⟩
    · refine ⟨(κ.root, w.cache.index), ?_, ⟨κ.package, e⟩, (mem_entries_iff _ _ _).2 hget,
        κ.kind, hkind _, rel, hrel, by rw [hfp]⟩
      exact mem_cons.2 (.inl (by rw [hroot]))
    · refine ⟨(κ.root, i), ?_, ⟨κ.package, e⟩, (mem_entries_iff _ _ _).2 hlook,
        κ.kind, hkind _, rel, hrel, by rw [hfp]⟩
      refine mem_cons.2 (.inr (mem_filter.2 ⟨mem_map.2 ⟨⟨κ.root, i⟩, ?_, rfl⟩, ?_⟩))
      · exact (mem_entries_iff _ _ _).2 hi
      · simpa using hor

theorem live_without : (w.without p).Live r q e ↔ w.Live r q e ∧ (r = w.cache.root → q ≠ p) ∧
    (r = w.cache.root → w.get q = some e) := by
  have hget : (w.without p).get q = if q = p then none else w.get q := lookup_erase_eq _ _ _
  unfold Live
  rw [hget]
  by_cases hroot : r = w.cache.root
  · by_cases hq : q = p <;> simp [hroot, hq, without, setPackages]
    exact .inl
  · simp [hroot, without, setPackages]

theorem live_set (h : (w.setPackages (w.cache.index.packages.insert p e)).Live r q e') :
    (r = w.cache.root ∧ q = p ∧ e' = e) ∨ (w.without p).Live r q e' := by
  rcases h with ⟨hroot, hget⟩ | ⟨hor, hi⟩
  · rw [get_setPackages, lookup_insert_eq] at hget
    split_ifs at hget with hq
    · exact .inl ⟨hroot, by assumption, (some.inj hget).symm⟩
    · exact .inr (.inl ⟨hroot, (lookup_erase_eq _ _ _).trans ((if_neg hq).trans hget)⟩)
  · exact .inr (.inr ⟨hor, hi⟩)

theorem live_invalidate (h : (w.invalidate ps).Live r p e) : w.Live r p e := by
  obtain ⟨hroot, hindexes, hget, -⟩ := foldl_remove ps w
  rcases h with ⟨hr, hp⟩ | ⟨hor, i, hi, hlook⟩
  · have hp : (ps.foldl remove w).get p = some e := hp
    rw [hget] at hp
    split at hp
    · cases hp
    · exact .inl ⟨hr.trans hroot, hp⟩
  · have hne : r ≠ (ps.foldl remove w).cache.root := hor.resolve_right (by simp [invalidate, setPackages])
    have hi : (ps.foldl remove w).disk.indexes.lookup r = some i := hi
    exact .inr ⟨.inl (by rwa [hroot] at hne), i, by rwa [hindexes] at hi, hlook⟩

theorem live_clear (h : w.clear.Live r p e) : w.Live r p e := by
  rcases h with ⟨-, hp⟩ | ⟨hor, hi⟩
  · exact absurd hp (by simp [clear])
  · exact .inr ⟨.inl (hor.resolve_right (by simp [clear, setPackages])), hi⟩

theorem live_flush (h : w.flush.Live r p e) : w.Live r p e := by
  unfold flush at h
  split at h
  · rcases h with ⟨hr, hp⟩ | ⟨-, i, hi, hlook⟩
    · exact .inl ⟨hr, hp⟩
    · simp only [lookup_insert_eq] at hi
      split_ifs at hi with hr
      · cases hi
        exact .inl ⟨hr, hlook⟩
      · exact .inr ⟨.inl hr, i, hi, hlook⟩
  · exact h

theorem file_clear (hd : w.clear.file path = some d) : w.file path = some d := by
  simp only [clear, file, setPackages, lookup_foldl_erase] at hd
  split at hd
  · cases hd
  · exact hd

theorem file_flush (hd : w.flush.file path = some d) : w.file path = some d := by
  unfold flush at hd
  split at hd <;> exact hd

theorem clean_flush : w.flush.cache.dirty = false := by
  unfold flush
  split
  · rfl
  · simpa using ‹¬ w.cache.dirty = true›

theorem live_openCache {disk : Disk} {projectRoot : Path} {inputs : CompileInputs}
    (h : (openCache disk projectRoot inputs).Live r p e) :
    ∃ i, disk.indexes.lookup r = some i ∧ i.packages.lookup p = some e := by
  rcases h with ⟨hr, hp⟩ | ⟨-, hi⟩
  · have hroot : r = cacheRoot projectRoot inputs := hr
    rw [hroot]
    unfold openCache get at hp
    cases hi : disk.indexes.lookup (cacheRoot projectRoot inputs) with
    | none => exact absurd hp (by simp [hi, CacheIndex.new])
    | some i =>
      simp only [hi] at hp
      split at hp
      · exact absurd hp (by simp [CacheIndex.new])
      · exact ⟨i, rfl, hp⟩
  · exact hi

end World

/-! ## The invariant -/

namespace History

variable {h : History} {w : World} {log : Table Key Bytes} {e : CachedPackage} {p : String}
    {f : Fingerprint}

/-- The file an entry names for the key holds the bytes last stored, if it is there; where the
entry names none, nothing has been stored. -/
def Holds (h : History) (κ : Key) : Option Path → Prop
  | none => h.log.lookup κ = none
  | some rel => κ.root.join rel = κ.path ∧
      ∃ d, h.log.lookup κ = some d ∧ ∀ d', h.world.file κ.path = some d' → d' = d

theorem Holds.frame {h' : History} {rel : Option Path} (hh : h.Holds κ rel)
    (hlog : h'.log.lookup κ = h.log.lookup κ)
    (hfile : ∀ d, h'.world.file κ.path = some d → h.world.file κ.path = some d) :
    h'.Holds κ rel := by
  cases rel with
  | none => exact hlog.trans hh
  | some rel =>
    obtain ⟨hjoin, d, hd, hlast⟩ := hh
    exact ⟨hjoin, d, hlog.trans hd, fun d' hd' => hlast d' (hfile d' hd')⟩

structure Sound (h : History) : Prop where
  holds : ∀ r p e, h.world.Live r p e → ∀ k,
    h.Holds ⟨r, p, e.inputFingerprint, k⟩ (e.artifacts.get k)
  apart : ∀ κ ∈ h.world.liveKeys, ∀ κ' ∈ h.world.liveKeys, κ.path = κ'.path → κ = κ'

theorem Sound.shrink (hs : Sound h) (hlive : ∀ r p e, w.Live r p e → h.world.Live r p e)
    (hfile : ∀ path d, w.file path = some d → h.world.file path = some d) :
    Sound { h with world := w } := by
  have hkeys : ∀ κ ∈ w.liveKeys, κ ∈ h.world.liveKeys := by
    intro κ hκ
    obtain ⟨e, he, hrest⟩ := World.mem_liveKeys.1 hκ
    exact World.mem_liveKeys.2 ⟨e, hlive _ _ _ he, hrest⟩
  constructor
  · intro r p e he k
    exact (hs.holds r p e (hlive r p e he) k).frame rfl (hfile _)
  · intro κ hκ κ' hκ'
    exact hs.apart κ (hkeys κ hκ) κ' (hkeys κ' hκ')

theorem Sound.write (hs : Sound ⟨w, log⟩) (data : Bytes) (hfree : w.Free κ)
    (hawait : ∀ e, w.Live κ.root κ.package e → e.inputFingerprint = κ.fingerprint →
      e.artifacts.get κ.kind ≠ none) :
    Sound ⟨{ w with disk := { w.disk with files := w.disk.files.insert κ.path data } },
      log.insert κ data⟩ := by
  refine ⟨?_, hs.apart⟩
  intro r p e he k
  have hlive : w.Live r p e := he
  have hholds := hs.holds r p e hlive k
  set κ' : Key := ⟨r, p, e.inputFingerprint, k⟩ with hκ'
  by_cases heq : κ' = κ
  · have hne : e.artifacts.get k ≠ none := by
      subst heq
      exact hawait e hlive rfl
    obtain ⟨rel, hrel⟩ := ne_none_iff_exists'.1 hne
    rw [hrel] at hholds ⊢
    refine ⟨hholds.1, data, ?_, ?_⟩
    · rw [heq]
      exact AList.lookup_insert log
    · intro d hd
      rw [heq] at hd
      have hfile : (w.disk.files.insert κ.path data).lookup κ.path = some d := hd
      rw [AList.lookup_insert] at hfile
      exact (some.inj hfile).symm
  · cases hrel : e.artifacts.get k with
    | none =>
      rw [hrel] at hholds
      exact (AList.lookup_insert_ne heq).trans hholds
    | some rel =>
      rw [hrel] at hholds
      have hmem : κ' ∈ w.liveKeys :=
        World.mem_liveKeys.2 ⟨e, hlive, rfl, by simp [hκ', hrel]⟩
      have hpath : κ'.path ≠ κ.path := fun hpath => heq (hfree κ' hmem hpath)
      refine hholds.frame (AList.lookup_insert_ne heq) fun d hd => ?_
      exact (AList.lookup_insert_ne hpath).symm.trans hd

theorem Sound.set (hs : Sound ⟨w.without p, log⟩)
    (hholds : ∀ k, Holds ⟨w, log⟩ ⟨w.cache.root, p, e.inputFingerprint, k⟩ (e.artifacts.get k))
    (hfree : ∀ k, e.artifacts.get k ≠ none →
      (w.without p).Free ⟨w.cache.root, p, e.inputFingerprint, k⟩) :
    Sound ⟨w.setPackages (w.cache.index.packages.insert p e), log⟩ := by
  have hkeys : ∀ κ ∈ (w.setPackages (w.cache.index.packages.insert p e)).liveKeys,
      (∃ k, κ = ⟨w.cache.root, p, e.inputFingerprint, k⟩ ∧ e.artifacts.get k ≠ none) ∨
        κ ∈ (w.without p).liveKeys := by
    rintro κ hκ
    obtain ⟨e', hlive, hfp, hne⟩ := World.mem_liveKeys.1 hκ
    rcases World.live_set hlive with ⟨hroot, hp, rfl⟩ | hlive
    · exact .inl ⟨κ.kind, by rw [← hroot, ← hp, hfp], hne⟩
    · exact .inr (World.mem_liveKeys.2 ⟨e', hlive, hfp, hne⟩)
  constructor
  · intro r q e' he' k
    rcases World.live_set he' with ⟨rfl, rfl, rfl⟩ | hlive
    · exact hholds k
    · exact hs.holds r q e' hlive k
  · intro κ hκ κ' hκ' hpath
    rcases hkeys κ hκ with ⟨k, rfl, hne⟩ | hold <;> rcases hkeys κ' hκ' with ⟨k', rfl, hne'⟩ | hold'
    · have hkind : k = k' := kind_of_path hpath
      rw [hkind]
    · exact (hfree k hne κ' hold' hpath.symm).symm
    · exact hfree k' hne' κ hold hpath
    · exact hs.apart κ hold κ' hold' hpath

theorem Sound.without (hs : Sound ⟨w, log⟩) (p : String) : Sound ⟨w.without p, log⟩ :=
  hs.shrink (fun _ _ _ he => (World.live_without.1 he).1) fun _ _ hd => hd

theorem Sound.insert (hs : Sound h) (hmeets : h.Meets (.insert e)) :
    Sound { h with world := h.world.insert e } := by
  have hall : ∀ k, h.Names ⟨h.world.cache.root, e.name, e.inputFingerprint, k⟩
        (e.artifacts.get k) ∧ (e.artifacts.get k ≠ none →
      (h.world.without e.name).Free ⟨h.world.cache.root, e.name, e.inputFingerprint, k⟩) := by
    intro k
    cases k with
    | ir => exact hmeets .ir (by simp)
    | bytecode => exact hmeets .bytecode (by simp)
  refine Sound.set (Sound.without hs e.name) ?_ fun k => (hall k).2
  intro k
  have hnames := (hall k).1
  cases hrel : e.artifacts.get k with
  | none =>
    rwa [hrel] at hnames
  | some rel =>
    rw [hrel] at hnames
    obtain ⟨hjoin, hstored, hfile⟩ := hnames
    obtain ⟨d, hd⟩ := isSome_iff_exists.1 hstored
    refine ⟨hjoin, d, hd, fun d' hd' => ?_⟩
    have : some d' = some d := hd'.symm.trans (hfile.trans hd)
    exact some.inj this

theorem Sound.store (hs : Sound h) {k : ArtifactKind} {data : Bytes}
    (hmay : h.MayStore ⟨h.world.cache.root, p, f, k⟩ (h.world.get p)) :
    Sound { world := h.world.store k p f data
            log := h.log.insert ⟨h.world.cache.root, p, f, k⟩ data } := by
  obtain ⟨w, log⟩ := h
  set κ : Key := ⟨w.cache.root, p, f, k⟩ with hκ
  set w' : World := { w with disk := { w.disk with files := w.disk.files.insert κ.path data } }
    with hw'
  -- the file is written whether or not the index knows the package
  have hstored : w'.file κ.path = some data := AList.lookup_insert _
  cases hget : w.get p with
  | none =>
    have hstore : w.store k p f data = w' := by simp [World.store, hget, hw', hκ, Key.path]
    rw [hget] at hmay
    rw [hstore]
    refine Sound.write hs data hmay.2 fun e hlive hfp hnone => hmay.1 ?_
    rcases hlive with ⟨-, he⟩ | ⟨hor, i, hi, he⟩
    · exact absurd (hget.symm.trans he) (by simp)
    · exact ⟨hor.resolve_left (by simp [hκ]), ⟨κ.root, i⟩, (mem_entries_iff _ _ _).2 hi, rfl, e,
        he, hfp, hnone⟩
  | some e =>
    rw [hget] at hmay
    obtain ⟨hfp, hfree⟩ := hmay
    obtain rfl : e.inputFingerprint = f := hfp
    set rel := (κ.path.stripPrefix w.cache.root).getD κ.path with hrel
    set e' : CachedPackage := { e with artifacts := e.artifacts.set rel k } with he'
    have hstore : w.store k p e.inputFingerprint data =
        w'.setPackages (w'.cache.index.packages.insert p e') := by
      simp [World.store, hget, hw', hκ, Key.path, he', hrel]
    rw [hstore]
    have hlive : w.Live w.cache.root p e := .inl ⟨rfl, hget⟩
    -- the other artifacts of the package stay where they are
    have hother : ∀ k', k' ≠ k → e.artifacts.get k' ≠ none →
        (⟨w.cache.root, p, e.inputFingerprint, k'⟩ : Key) ∈ w.liveKeys := by
      intro k' _ hne
      exact World.mem_liveKeys.2 ⟨e, hlive, rfl, hne⟩
    refine Sound.set (Sound.write (Sound.without hs p) data hfree ?_) ?_ ?_
    · intro e₁ he₁
      exact absurd rfl ((World.live_without.1 he₁).2.1 rfl)
    · intro k'
      by_cases hk : k' = k
      · subst hk
        rw [he', CachedArtifacts.get_set, if_pos rfl]
        refine ⟨Path.join_stripPrefix (artifactPath_inside κ), data, AList.lookup_insert log, ?_⟩
        intro d hd
        exact (some.inj (hstored.symm.trans hd)).symm
      · rw [he', CachedArtifacts.get_set, if_neg hk]
        have hne : (⟨w.cache.root, p, e.inputFingerprint, k'⟩ : Key) ≠ κ := by
          intro heq
          exact hk (congrArg Key.kind heq)
        refine (hs.holds _ p e hlive k').frame (AList.lookup_insert_ne hne) fun d hd => ?_
        have hpath : Key.path ⟨w.cache.root, p, e.inputFingerprint, k'⟩ ≠ κ.path := by
          intro hpath
          exact hk (kind_of_path hpath)
        exact (AList.lookup_insert_ne hpath).symm.trans hd
    · intro k' hne'
      by_cases hk : k' = k
      · subst hk
        exact hfree
      · rw [he', CachedArtifacts.get_set, if_neg hk] at hne'
        intro κ' hκ' hpath
        obtain ⟨e₁, he₁, hrest⟩ := World.mem_liveKeys.1 hκ'
        have hmem : κ' ∈ w.liveKeys :=
          World.mem_liveKeys.2 ⟨e₁, (World.live_without.1 he₁).1, hrest⟩
        exact hs.apart κ' hmem _ (hother k' hk hne') hpath

/-- **One operation that meets its condition keeps the invariant.** -/
theorem sound_step (projectRoot : Path) (hs : Sound h) (op : Op) (hmeets : h.Meets op) :
    Sound (h.step projectRoot op) := by
  cases op with
  | insert e => exact hs.insert hmeets
  | store k p f data => exact hs.store hmeets
  | invalidate ps =>
    exact hs.shrink (fun _ _ _ => World.live_invalidate) (World.foldl_remove ps _).2.2.2
  | gc now maxAgeDays =>
    exact hs.shrink (fun _ _ _ => World.live_invalidate) (World.foldl_remove _ _).2.2.2
  | clear => exact hs.shrink (fun _ _ _ => World.live_clear) (fun _ _ => World.file_clear)
  | flush => exact hs.shrink (fun _ _ _ => World.live_flush) (fun _ _ => World.file_flush)
  | reopen inputs =>
    refine hs.shrink (fun r p e he => ?_) (fun _ _ => World.file_flush)
    exact World.live_flush (.inr ⟨.inr World.clean_flush, World.live_openCache he⟩)

/-! ## What is served -/

theorem Sound.hit (hs : Sound h) (hhit : h.world.status p f = .hit) (k : ArtifactKind) :
    h.world.load k p = h.log.lookup ⟨h.world.cache.root, p, f, k⟩ := by
  unfold World.status at hhit
  cases hget : h.world.get p with
  | none => exact absurd hhit (by simp [hget])
  | some e =>
    simp only [hget] at hhit
    split at hhit
    · cases hhit
    · rename_i hfp
      split at hhit
      · cases hhit
      · rename_i hexist
        have hf : e.inputFingerprint = f := Fingerprint.ext (not_not.1 hfp)
        have hholds := hs.holds _ p e (.inl ⟨rfl, hget⟩) k
        rw [hf] at hholds
        cases hrel : e.artifacts.get k with
        | none =>
          rw [hrel] at hholds
          simpa [World.load, hget, hrel] using hholds.symm
        | some rel =>
          rw [hrel] at hholds
          obtain ⟨hjoin, d, hd, hlast⟩ := hholds
          have hthere : (h.world.read rel).isSome = true := by
            have hall : h.world.artifactsExist e = true := by simpa using hexist
            exact all_eq_true.1 hall rel (CachedArtifacts.mem_toList.2 ⟨k, hrel⟩)
          obtain ⟨d', hd'⟩ := isSome_iff_exists.1 hthere
          have hfile : h.world.file (Key.path ⟨h.world.cache.root, p, f, k⟩) = some d' := by
            rw [← hjoin]
            exact hd'
          simp [World.load, hget, hrel, hd', hd, hlast d' hfile]

theorem Sound.gc_keeps (hs : Sound h) {now maxAgeDays : Nat}
    {rel : Path} (hkept : (h.world.gc now maxAgeDays).1.get p = some e)
    (hrel : rel ∈ e.artifacts.toList) :
    (h.world.gc now maxAgeDays).1.read rel = h.world.read rel := by
  set ps := h.world.expired now maxAgeDays with hps
  have hroot : (h.world.gc now maxAgeDays).1.cache.root = h.world.cache.root :=
    (World.foldl_remove ps h.world).1
  have hget : (h.world.invalidate ps).get p = some e := hkept
  rw [World.get_invalidate] at hget
  split at hget
  · cases hget
  · rename_i hp
    have hkey : ∀ {q e₁ rel₁}, h.world.get q = some e₁ → rel₁ ∈ e₁.artifacts.toList →
        ∃ κ ∈ h.world.liveKeys, κ.package = q ∧ κ.path = h.world.cache.root.join rel₁ := by
      intro q e₁ rel₁ hq hrel₁
      obtain ⟨k, hk⟩ := CachedArtifacts.mem_toList.1 hrel₁
      have hlive : h.world.Live h.world.cache.root q e₁ := .inl ⟨rfl, hq⟩
      have hholds := hs.holds _ q e₁ hlive k
      rw [hk] at hholds
      exact ⟨⟨h.world.cache.root, q, e₁.inputFingerprint, k⟩,
        World.mem_liveKeys.2 ⟨e₁, hlive, rfl, by simp [hk]⟩, rfl, hholds.1.symm⟩
    unfold World.read
    rw [hroot]
    refine World.file_foldl_remove fun q hq e₁ he₁ hmem => hp ?_
    obtain ⟨rel₁, hrel₁, hpath⟩ := mem_map.1 hmem
    obtain ⟨κ, hκ, hκp, hκpath⟩ := hkey hget hrel
    obtain ⟨κ₁, hκ₁, hκ₁q, hκ₁path⟩ := hkey he₁ hrel₁
    have heq := hs.apart κ hκ κ₁ hκ₁ (hκpath.trans (hpath.symm.trans hκ₁path.symm))
    rw [← hκp, heq, hκ₁q]
    exact hq

theorem Sound.served (hs : Sound h) : h.Served :=
  ⟨fun _ _ hhit k => hs.hit hhit k, fun _ _ _ _ _ hkept hrel => hs.gc_keeps hkept hrel⟩

theorem sound_start (projectRoot : Path) (inputs : CompileInputs) :
    Sound (start projectRoot inputs) := by
  have hnone : ∀ r p e, ¬ (start projectRoot inputs).world.Live r p e := by
    intro r p e he
    obtain ⟨i, hi, -⟩ := World.live_openCache he
    cases hi
  constructor
  · intro r p e he
    exact absurd he (hnone r p e)
  · intro κ hκ
    obtain ⟨e, he, -⟩ := World.mem_liveKeys.1 hκ
    exact absurd he (hnone _ _ _)

/-- **A run whose operations all meet the condition serves what was last stored, and keeps the
files of the entries it keeps, in every state it reaches.** -/
theorem served_of_meets (projectRoot : Path) (inputs : CompileInputs) (ops : List Op)
    (hmeets : Along (next projectRoot) Meets (start projectRoot inputs) ops) :
    Always (next projectRoot) Served (start projectRoot inputs) ops := by
  have hsound : Always (next projectRoot) Sound (start projectRoot inputs) ops := by
    refine always_of_along ?_ (sound_start projectRoot inputs) hmeets
    intro h op h' hs hop hnext
    obtain rfl := Option.some.inj hnext
    exact sound_step projectRoot hs op hop
  exact hsound.mono fun _ hs => hs.served

section Examples

def home : Path := Path.ofString "/home/arth"

def vm : CompileInputs := ⟨"vm", "c0"⟩

def early : Fingerprint := ⟨"0123456789abcdef01", by decide +kernel⟩

def late : Fingerprint := ⟨"fedcba987654321010", by decide +kernel⟩

def marked (package : String) (f : Fingerprint) (createdAt : Nat) : CachedPackage :=
  ⟨package, f, createdAt, .none⟩

/-- Two builds, the second one after an edit, with the cache opened again in between. -/
def twoBuilds : List Op :=
  [.insert (marked "app.http" early 10), .store .ir "app.http" early [1],
    .store .bytecode "app.http" early [2], .insert (marked "app" early 10), .flush, .reopen vm,
    .insert (marked "app.http" late 5000000), .store .ir "app.http" late [3],
    .gc 5000000 30, .reopen ⟨"llvm", "c1"⟩, .reopen vm]

theorem twoBuilds_served : Always (next home) Served (start home vm) twoBuilds :=
  served_of_meets home vm twoBuilds (by decide +kernel)

/-- The package is marked again after its file was stored. -/
def markedAgain : List Op :=
  [.insert (marked "app" early 10), .store .ir "app" early [1], .insert (marked "app" early 20)]

/-- **A package marked again** is a hit, and its file is not found. -/
theorem markedAgain_unserved : ¬ Always (next home) Served (start home vm) markedAgain := by
  intro hall
  have hlast : run (next home) (start home vm) markedAgain =
    some (markedAgain.foldl (step home) (start home vm)) := rfl
  have hserved := (hall.last hlast).1 "app" early (by decide +kernel) .ir
  exact absurd hserved (by decide +kernel)

end Examples

end History

end Arth.Driver
