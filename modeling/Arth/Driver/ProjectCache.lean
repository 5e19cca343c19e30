import Arth.Lib.KeyTable

/-!
# The project cache

The compiler keeps what it has built under `target/.arth-cache/`, one directory for each
backend: an index with one entry for each package, and the files the entries name. A file is
named after its package and the first characters of the fingerprint it was built from. The
index is read when the cache is opened and written when it is flushed; a cache that is dropped
flushes itself.

* `status`, `load` — what the cache answers.
* `insert`, `store`, `invalidate`, `gc`, `clear`, `flush`, `openCache` — what changes it.
-/

namespace Arth.Driver

open KeyTable List

abbrev Bytes := List UInt8

/-- A path, by its components; an empty component and `.` name nothing. -/
structure Path where
  absolute : Bool
  components : List String
  deriving DecidableEq

namespace Path

def ofString (s : String) : Path where
  absolute := s.toList.head? == some '/'
  components := ((s.toList.splitOn '/').filter fun c => c ≠ [] ∧ c ≠ ['.']).map String.ofList

/-- An absolute path replaces what it is joined to. -/
def join (p q : Path) : Path :=
  if q.absolute then q else ⟨p.absolute, p.components ++ q.components⟩

def joinStr (p : Path) (s : String) : Path := p.join (ofString s)

def startsWith (p base : Path) : Bool :=
  p.absolute == base.absolute && base.components.isPrefixOf p.components

def stripPrefix (p base : Path) : Option Path :=
  if p.startsWith base then some ⟨false, p.components.drop base.components.length⟩ else none

end Path

/-! ## The index -/

def CACHE_FORMAT_VERSION : Nat := 1

/-- A hash in hexadecimal, or the word `temp` where the compiler has none. -/
@[ext]
structure Fingerprint where
  hash : String
  plain : hash.toList.all Char.isAlphanum = true
  deriving DecidableEq

/-- The first 16 characters. -/
def Fingerprint.short (f : Fingerprint) : String :=
  if 16 ≤ f.hash.toList.length then String.ofList (f.hash.toList.take 16) else f.hash

inductive ArtifactKind where
  | ir | bytecode
  deriving DecidableEq

def ArtifactKind.suffix : ArtifactKind → String
  | .ir => ".ir.bin"
  | .bytecode => ".bc.abc"

/-- The files of an entry, relative to the root of the cache. -/
structure CachedArtifacts where
  ir : Option Path
  bytecode : Option Path
  deriving DecidableEq

namespace CachedArtifacts

/-- The default: no files. -/
def none : CachedArtifacts := ⟨.none, .none⟩

def get (a : CachedArtifacts) : ArtifactKind → Option Path
  | .ir => a.ir
  | .bytecode => a.bytecode

def set (a : CachedArtifacts) (path : Path) : ArtifactKind → CachedArtifacts
  | .ir => { a with ir := path }
  | .bytecode => { a with bytecode := path }

theorem get_set (a : CachedArtifacts) (path : Path) (k k' : ArtifactKind) :
    (a.set path k).get k' = if k' = k then some path else a.get k' := by
  cases k <;> cases k' <;> rfl

def toList (a : CachedArtifacts) : List Path := a.ir.toList ++ a.bytecode.toList

theorem mem_toList {a : CachedArtifacts} {path : Path} :
    path ∈ a.toList ↔ ∃ k, a.get k = some path := by
  constructor
  · intro h
    rcases mem_append.1 h with h | h
    · exact ⟨.ir, by simpa [get] using h⟩
    · exact ⟨.bytecode, by simpa [get] using h⟩
  · rintro ⟨k | k, h⟩
    · exact mem_append.2 (.inl (by simpa [get] using h))
    · exact mem_append.2 (.inr (by simpa [get] using h))

end CachedArtifacts

/-- The compilation result of a package. -/
structure CachedPackage where
  name : String
  inputFingerprint : Fingerprint
  createdAt : Nat
  artifacts : CachedArtifacts
  deriving DecidableEq

structure CacheIndex where
  version : Nat
  configFingerprint : String
  packages : Table String CachedPackage

def CacheIndex.new (configFingerprint : String) : CacheIndex :=
  ⟨CACHE_FORMAT_VERSION, configFingerprint, ∅⟩

def CacheIndex.isCompatible (i : CacheIndex) : Bool := i.version == CACHE_FORMAT_VERSION

inductive PackageCacheStatus where
  | hit | miss | stale | corrupt
  deriving DecidableEq

structure GcStats where
  entriesRemoved : Nat
  bytesFreed : Nat
  entriesKept : Nat

/-! ## The cache and the disk -/

/-- What is on disk: the files of the packages, and the index of each root. -/
structure Disk where
  files : Table Path Bytes
  indexes : Table Path CacheIndex

/-- The open cache. -/
structure ProjectCache where
  root : Path
  index : CacheIndex
  dirty : Bool

/-- What of the build configuration the cache looks at. -/
structure CompileInputs where
  backend : String
  fingerprint : String

def packagesDir (root : Path) : Path := root.joinStr "packages"

def packageDir (root : Path) (package : String) : Path :=
  (packagesDir root).joinStr
    (String.ofList (package.toList.map fun c => if c = '.' then '/' else c))

/-- The file of one kind that belongs to a package and a fingerprint. -/
def artifactPath (root : Path) (package : String) (f : Fingerprint) (k : ArtifactKind) : Path :=
  (packageDir root package).joinStr (f.short ++ k.suffix)

def cacheRoot (projectRoot : Path) (inputs : CompileInputs) : Path :=
  ((projectRoot.joinStr "target").joinStr ".arth-cache").joinStr inputs.backend

structure World where
  disk : Disk
  cache : ProjectCache

namespace World

/-- The entry of a package. -/
def get (w : World) (package : String) : Option CachedPackage :=
  w.cache.index.packages.lookup package

def read (w : World) (rel : Path) : Option Bytes := w.disk.files.lookup (w.cache.root.join rel)

/-- Every file the entry names is there. -/
def artifactsExist (w : World) (entry : CachedPackage) : Bool :=
  entry.artifacts.toList.all fun rel => (w.read rel).isSome

def status (w : World) (package : String) (f : Fingerprint) : PackageCacheStatus :=
  match w.get package with
  | none => .miss
  | some entry =>
    if entry.inputFingerprint.hash ≠ f.hash then .stale
    else if !w.artifactsExist entry then .corrupt
    else .hit

def load (k : ArtifactKind) (w : World) (package : String) : Option Bytes :=
  ((w.get package).bind fun entry => entry.artifacts.get k).bind w.read

def loadIr : World → String → Option Bytes := load .ir

def loadBytecode : World → String → Option Bytes := load .bytecode

/-- The index with other entries, not yet written. -/
def setPackages (w : World) (packages : Table String CachedPackage) : World :=
  { w with cache := { w.cache with
      index := { w.cache.index with packages := packages }, dirty := true } }

def insert (w : World) (entry : CachedPackage) : World :=
  w.setPackages (w.cache.index.packages.insert entry.name entry)

/-- The file is written in any case; the entry learns of it if there is one. -/
def store (k : ArtifactKind) (w : World) (package : String) (f : Fingerprint) (data : Bytes) :
    World :=
  let path := artifactPath w.cache.root package f k
  let w' := { w with disk := { w.disk with files := w.disk.files.insert path data } }
  match w.get package with
  | some entry =>
    let rel := (path.stripPrefix w.cache.root).getD path
    w'.setPackages (w.cache.index.packages.insert package
      { entry with artifacts := entry.artifacts.set rel k })
  | none => w'

def storeIr : World → String → Fingerprint → Bytes → World := store .ir

def storeBytecode : World → String → Fingerprint → Bytes → World := store .bytecode

def removeFiles (w : World) (rels : List Path) : World :=
  { w with disk := { w.disk with
      files := rels.foldl (fun files rel => files.erase (w.cache.root.join rel)) w.disk.files } }

/-- One turn of the loop of `invalidate`. -/
def remove (w : World) (package : String) : World :=
  match w.get package with
  | some entry =>
    (w.setPackages (w.cache.index.packages.erase package)).removeFiles entry.artifacts.toList
  | none => w

def invalidate (w : World) (packages : List String) : World :=
  let w' := packages.foldl remove w
  w'.setPackages w'.cache.index.packages

/-- The entries made before the cutoff. -/
def expired (w : World) (now maxAgeDays : Nat) : List String :=
  (w.cache.index.packages.entries.filter fun e =>
    e.2.createdAt < now - maxAgeDays * 24 * 60 * 60).map (·.1)

def gc (w : World) (now maxAgeDays : Nat) : World × GcStats :=
  let toRemove := w.expired now maxAgeDays
  let freed := toRemove.flatMap fun p => ((w.get p).map fun e => e.artifacts.toList).getD []
  (w.invalidate toRemove,
    { entriesRemoved := toRemove.length
      bytesFreed := (freed.filterMap w.read).foldl (fun n data => n + data.length) 0
      entriesKept := w.cache.index.packages.entries.length - toRemove.length })

/-- Everything below the directory of the packages goes. -/
def clear (w : World) : World :=
  let below := fun path : Path => path.startsWith (packagesDir w.cache.root)
  let files := (w.disk.files.entries.filter fun e => below e.1).foldl
    (fun files e => files.erase e.1) w.disk.files
  { w with disk := { w.disk with files := files } }.setPackages ∅

def flush (w : World) : World :=
  if w.cache.dirty then
    { disk := { w.disk with indexes := w.disk.indexes.insert w.cache.root w.cache.index }
      cache := { w.cache with dirty := false } }
  else w

/-- `ProjectCache::open`: the index on disk, unless it is of another format or configuration. -/
def openCache (disk : Disk) (projectRoot : Path) (inputs : CompileInputs) : World :=
  let root := cacheRoot projectRoot inputs
  let index := match disk.indexes.lookup root with
    | some index =>
      if !index.isCompatible || index.configFingerprint ≠ inputs.fingerprint then
        CacheIndex.new inputs.fingerprint
      else index
    | none => CacheIndex.new inputs.fingerprint
  { disk := disk, cache := ⟨root, index, false⟩ }

end World

end Arth.Driver
