import Arth.Codegen.Emission
import Arth.Vm.Linker

/-!
# Async functions, from their declarations to the linked program

* `SourceFn.lower` — an async function becomes a wrapper that spawns a task and a body.
* `Package` — the modules compiled into one program, with their names qualified.
* `Build` — a main package linked with libraries, and the async functions in it.
-/

namespace Arth.Codegen

open Ir

def isIdentStart (c : Char) : Bool := c.isAlpha || c == '_'

def isIdentContinue (c : Char) : Bool := c.isAlphanum || c == '_'

/-- An identifier of the language. -/
structure Ident where
  text : String
  start : ∃ c cs, text.toList = c :: cs ∧ isIdentStart c
  continues : ∀ c ∈ text.toList, isIdentContinue c

def asyncBodySuffix : String := "$async_body"

/-! ## Lowering -/

/-- A lambda lifted out of a function body. -/
structure Lambda where
  id : Nat
  params : List Ty
  ret : Ty
  blocks : List BlockData

/-- A function with a body: its signature, the blocks its body is lowered to, the lambdas
and the string constants found in it. -/
structure SourceFn where
  name : Ident
  isAsync : Bool
  params : List Ty
  ret : Ty
  blocks : List BlockData
  lambdas : List Lambda
  strings : List String
  sourceFile : Option String

def Lambda.func (l : Lambda) (sourceFile : Option String) : Func :=
  ⟨"__lambda_" ++ toString l.id, l.params, l.ret, l.blocks, sourceFile⟩

namespace SourceFn

def bodyName (f : SourceFn) : String := f.name.text ++ asyncBodySuffix

/-- The function id the wrapper computes. -/
def fnId (f : SourceFn) : Int64 := computeStringHash (unqualifiedName f.bodyName)

/-- The wrapper forwards the id of the body, the number of arguments and the arguments. -/
def wrapperBlock (f : SourceFn) : BlockData :=
  let argc := f.params.length
  ⟨"entry", [⟨argc, .constI64 f.fnId⟩, ⟨argc + 1, .constI64 (Int64.ofNat argc)⟩,
      ⟨argc + 2, .call "__arth_task_spawn_fn" (argc :: (argc + 1) :: List.range argc) .i64⟩],
    .ret (some (argc + 2))⟩

def wrapper (f : SourceFn) : Func :=
  ⟨f.name.text, f.params, .i64, [f.wrapperBlock], f.sourceFile⟩

def inner (f : SourceFn) : Func := ⟨f.bodyName, f.params, f.ret, f.blocks, f.sourceFile⟩

def plain (f : SourceFn) : Func := ⟨f.name.text, f.params, f.ret, f.blocks, f.sourceFile⟩

/-- `lower_hir_func_to_ir_internal`. -/
def lower (f : SourceFn) : List Func :=
  (if f.isAsync then [f.wrapper, f.inner] else [f.plain]) ++
    f.lambdas.map fun l => l.func f.sourceFile

end SourceFn

/-- The closures of a function name its lambdas, the string constants start at `base`. -/
def qualifyInst (rename : List (String × String)) (base : Nat) (i : Inst) : Inst :=
  match i.kind with
  | .makeClosure func captures =>
    { i with kind := .makeClosure ((rename.reverse.lookup func).getD func) captures }
  | .constStr ix => { i with kind := .constStr (ix + base) }
  | _ => i

def qualifyBlock (rename : List (String × String)) (base : Nat) (b : BlockData) : BlockData :=
  { b with insts := b.insts.map (qualifyInst rename base) }

/-- The qualified name. The main program's entry keeps its own. -/
def qualifiedFuncName (isLibrary : Bool) (module name : String) : String :=
  if !isLibrary && name == "main" then name else module ++ "." ++ name

def qualifyFunc (isLibrary : Bool) (module : String) (rename : List (String × String))
    (base : Nat) (f : Func) : Func :=
  { f with
    name := qualifiedFuncName isLibrary module f.name
    blocks := f.blocks.map (qualifyBlock rename base) }

def qualify (isLibrary : Bool) (module : String) (base : Nat) (fs : List Func) : List Func :=
  let rename := (fs.filter fun f => isLibrary || f.name != "main").map fun f =>
    (f.name, qualifiedFuncName isLibrary module f.name)
  fs.map (qualifyFunc isLibrary module rename base)

/-! ## Packages -/

structure SourceModule where
  name : Ident
  funcs : List SourceFn

/-- The modules of one program, the providers, and the order in which its set of function
names is iterated. -/
structure Package where
  isLibrary : Bool
  modules : List SourceModule
  providers : List Provider
  iterate : List String → List String

/-- `main` is moved to the front. -/
def mainFirst (fs : List Func) : List Func :=
  match fs.findIdx? (·.name == "main") with
  | some i => (fs[i]?).toList ++ fs.eraseIdx i
  | none => fs

/-- Where `mainFirst` puts function `k`. -/
def mainFirstIx (fs : List Func) (k : Nat) : Nat :=
  match fs.findIdx? (·.name == "main") with
  | some i => if k < i then k + 1 else if k = i then 0 else k
  | none => k

/-- An async function, with the positions of its wrapper and its body. -/
structure AsyncFn where
  name : String
  wrapper : Nat
  body : Nat
  deriving DecidableEq

namespace Package

/-- The functions with the names of their modules, in the order they are lowered. -/
def sources (p : Package) : List (String × SourceFn) :=
  p.modules.flatMap fun m => m.funcs.map fun f => (m.name.text, f)

/-- The lowered functions, the first string constant at `base`. -/
def lowerAll (isLibrary : Bool) : Nat → List (String × SourceFn) → List Func
  | _, [] => []
  | base, (module, f) :: fs =>
    qualify isLibrary module base f.lower ++ lowerAll isLibrary (base + f.strings.length) fs

def lowered (p : Package) : List Func := lowerAll p.isLibrary 0 p.sources

def funcs (p : Package) : List Func :=
  if p.isLibrary then p.lowered else mainFirst p.lowered

/-- Where function `k` of the lowered ones ends up. -/
def place (p : Package) (k : Nat) : Nat :=
  if p.isLibrary then k else mainFirstIx p.lowered k

def ctx (p : Package) : Ctx where
  strings := p.sources.flatMap (·.2.strings)
  providers := p.providers
  funcNames := p.iterate (p.funcs.map (·.name))

def program (p : Package) : Program := compileIrToProgram p.ctx p.funcs

/-- The async functions among the lowered ones, which start at `k`. -/
def asyncAt : Nat → List (String × SourceFn) → List AsyncFn
  | _, [] => []
  | k, (_, f) :: fs =>
    (if f.isAsync then [⟨f.name.text, k, k + 1⟩] else []) ++ asyncAt (k + f.lower.length) fs

/-- The async functions with the entry offsets of wrapper and body, in a program whose code
starts at `base`. -/
def asyncFns (p : Package) (base : Nat) : List AsyncFn :=
  (asyncAt 0 p.sources).map fun a =>
    ⟨a.name, base + entryOffset p.ctx p.funcs (p.place a.wrapper),
      base + entryOffset p.ctx p.funcs (p.place a.body)⟩

end Package

/-- A library: its package, its exports and its name. -/
structure LibrarySource where
  package : Package
  exports : List ExportEntry
  id : String

structure Build where
  main : Package
  libraries : List LibrarySource

namespace Build

def program (b : Build) : Program :=
  (linkPrograms b.main.program
    (b.libraries.map fun l => ⟨l.package.program, l.exports, l.id⟩)).program

def asyncFrom : Nat → List Package → List AsyncFn
  | _, [] => []
  | base, p :: ps => p.asyncFns base ++ asyncFrom (base + p.program.code.length) ps

/-- The async functions of main program and libraries. -/
def asyncFns (b : Build) : List AsyncFn := asyncFrom 0 (b.main :: b.libraries.map (·.package))

end Build

/-- The function id at the first spawn of straight-line code. -/
def spawnId : List Op → Option Int64
  | .pushI64 id :: .pushI64 _ :: .taskSpawn :: _ => some id
  | .pushI64 _ :: ops => spawnId ops
  | .localSet _ :: ops => spawnId ops
  | _ => none

/-- **Async dispatch.** The id that the wrapper of an async function passes is mapped to the
entry offset of its body, and no two async functions have the same id. -/
structure Dispatches (b : Build) : Prop where
  body : ∀ f ∈ b.asyncFns, ∃ id, spawnId (b.program.code.drop f.wrapper) = some id ∧
    b.program.getAsyncBodyOffset id = some (UInt32.ofNat f.body)
  distinct : (b.asyncFns.map fun f => spawnId (b.program.code.drop f.wrapper)).Nodup

end Arth.Codegen
