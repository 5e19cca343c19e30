import Arth.Lib.KeyTable
import Arth.Lib.Runs
import Arth.Vm.Jit

/-!
# Compilation tiers

`jit.rs`: what `JitContext` knows of a function. A function starts in the interpreter, is
compiled to baseline and then to optimized code, and falls back when compiled code gives up;
after too many deoptimizations it is to stay in the interpreter.

* `FunctionMeta`, `JitContext` — the record of a function and the table of records.
* `compileFunctionAtTier` — the translation is that of `Arth.Jit.compile`; `Backend` is what
  the code generator answers.
* `Consistent` — tier, pointers and counter agree, and nothing is being compiled.
* `tiers_iff` — the runs of calls in which they always do.
-/

namespace Arth.Tiers

open Jit KeyTable Runs Option

def tier1Threshold : UInt32 := 100

def tier2Threshold : UInt32 := 1000

def maxDeoptsPerFunction : Nat := 10

inductive CompilationTier where
  | interpreter
  | baselineJit
  | optimizedJit
  deriving DecidableEq

inductive DeoptReason where
  | none
  | typeMismatch
  | overflow
  | divisionByZero
  | indexOutOfBounds
  | nullPointer
  | stackOverflow
  | unsupportedOperation
  | debugBreakpoint
  | explicitBailout
  | osrFailure
  | tooManyDeopts
  | unknown
  deriving DecidableEq

/-- The address of the code defined as `arth_fn_{offset}_{suffix}`, with the suffix of the
tier. A name is defined at most once, so that it stands for the address. -/
structure CodePtr where
  offset : UInt32
  tier : CompilationTier
  deriving DecidableEq

/-! ## One function -/

structure FunctionMeta where
  offset : UInt32
  callCount : UInt32
  tier : CompilationTier
  nativePtr : Option CodePtr
  tier1Ptr : Option CodePtr
  tier2Ptr : Option CodePtr
  paramCount : UInt32
  compiling : Bool
  tier1AtCount : UInt32
  deoptCount : Nat
  lastDeoptReason : DeoptReason
  jitDisabled : Bool

namespace FunctionMeta

def new (offset paramCount : UInt32) : FunctionMeta where
  offset := offset
  callCount := 0
  tier := .interpreter
  nativePtr := none
  tier1Ptr := none
  tier2Ptr := none
  paramCount := paramCount
  compiling := false
  tier1AtCount := 0
  deoptCount := 0
  lastDeoptReason := .none
  jitDisabled := false

def saturatingSucc (n : UInt32) : UInt32 := if n = 0xffffffff then n else n + 1

def saturatingSub (n m : UInt32) : UInt32 := if n ≤ m then 0 else n - m

/-- The tier to compile the function at, if its calls have become many enough. -/
def promotion (m : FunctionMeta) : Option CompilationTier :=
  if m.jitDisabled ∨ m.compiling then none
  else
    match m.tier with
    | .interpreter => if tier1Threshold ≤ m.callCount then some .baselineJit else none
    | .baselineJit =>
      if tier2Threshold ≤ saturatingSub m.callCount m.tier1AtCount then some .optimizedJit
      else none
    | .optimizedJit => none

def incrementCallCount (m : FunctionMeta) : Option CompilationTier × FunctionMeta :=
  let m := { m with callCount := saturatingSucc m.callCount }
  (m.promotion, m)

/-- Is the function disabled now? -/
def recordDeopt (m : FunctionMeta) (reason : DeoptReason) : Bool × FunctionMeta :=
  let m := { m with deoptCount := m.deoptCount + 1, lastDeoptReason := reason }
  if maxDeoptsPerFunction ≤ m.deoptCount then
    (true, { m with jitDisabled := true, nativePtr := none, tier := .interpreter })
  else (false, m)

def deoptimize (m : FunctionMeta) (reason : DeoptReason) : CompilationTier × FunctionMeta :=
  let (disabled, m) := m.recordDeopt reason
  if disabled then (.interpreter, m)
  else
    match m.tier with
    | .optimizedJit =>
      if m.tier1Ptr.isSome then
        (.baselineJit, { m with tier := .baselineJit, nativePtr := m.tier1Ptr, tier2Ptr := none })
      else (.interpreter, { m with tier := .interpreter, nativePtr := none })
    | .baselineJit =>
      (.interpreter, { m with tier := .interpreter, nativePtr := none, tier1Ptr := none })
    | .interpreter => (.interpreter, m)

/-- The pointer with which compiling at a tier returns at once. -/
def cached (m : FunctionMeta) : CompilationTier → Option CodePtr
  | .baselineJit => m.tier1Ptr
  | .optimizedJit => m.tier2Ptr
  | .interpreter => none

/-- The record after code was generated for a tier. -/
def compiled (m : FunctionMeta) (tier : CompilationTier) (ptr : CodePtr) : FunctionMeta :=
  let m :=
    match tier with
    | .baselineJit =>
      { m with tier1Ptr := some ptr, tier := .baselineJit, tier1AtCount := m.callCount }
    | .optimizedJit => { m with tier2Ptr := some ptr, tier := .optimizedJit }
    | .interpreter => m
  { m with nativePtr := some ptr, compiling := false }

end FunctionMeta

/-! ## All functions -/

/-- The statistics, without times and cache hits. -/
structure JitStats where
  functionsCompiled : Nat
  tier1Compilations : Nat
  tier2Compilations : Nat
  deoptCount : Nat
  deoptsByReason : DeoptReason → Nat
  functionsJitDisabled : Nat

structure JitContext where
  functions : Table UInt32 FunctionMeta
  /-- The names that the module has code for. -/
  defined : List CodePtr
  stats : JitStats

/-- `JitError` of the whole file. -/
inductive CompileError where
  | jit (error : JitError)
  | module (msg : String)

/-- The errors of the code generator's steps, `none` where a step succeeds. -/
structure Backend where
  declareError : Option String
  defineError : Option String
  finalizeError : Option String

namespace JitStats

def new : JitStats := ⟨0, 0, 0, 0, fun _ => 0, 0⟩

def countCompilation (s : JitStats) (tier : CompilationTier) : JitStats :=
  let s := { s with functionsCompiled := s.functionsCompiled + 1 }
  match tier with
  | .baselineJit => { s with tier1Compilations := s.tier1Compilations + 1 }
  | .optimizedJit => { s with tier2Compilations := s.tier2Compilations + 1 }
  | .interpreter => s

def countDeopt (s : JitStats) (reason : DeoptReason) (disabled : Bool) : JitStats :=
  { s with
    deoptCount := s.deoptCount + 1
    deoptsByReason := fun r => if r = reason then s.deoptsByReason r + 1 else s.deoptsByReason r
    functionsJitDisabled := if disabled then s.functionsJitDisabled + 1 else s.functionsJitDisabled }

end JitStats

namespace JitContext

def new : JitContext := ⟨∅, [], .new⟩

def modify (c : JitContext) (offset : UInt32) (f : FunctionMeta → FunctionMeta) : JitContext :=
  { c with functions := modifyAt offset f c.functions }

def registerFunction (c : JitContext) (offset paramCount : UInt32) : JitContext :=
  match c.functions.lookup offset with
  | some _ => c
  | none => { c with functions := c.functions.insert offset (.new offset paramCount) }

def getFunction (c : JitContext) (offset : UInt32) :
    (Option CodePtr × Option CompilationTier) × JitContext :=
  match c.functions.lookup offset with
  | some m =>
    let (tier, m) := m.incrementCallCount
    ((m.nativePtr, tier), c.modify offset fun _ => m)
  | none => ((none, none), c)

/-- From the bytecode to the finalized code, under a name that must be new. -/
def generate (c : JitContext) (p : Program) (ptr : CodePtr) (b : Backend) :
    Except CompileError CodePtr × JitContext :=
  match compile p ptr.offset with
  | .error e => (.error (.jit e), c)
  | .ok _ =>
    match b.declareError with
    | some msg => (.error (.module msg), c)
    | none =>
      if ptr ∈ c.defined then
        (.error (.jit (.codegen "Duplicate definition of identifier")), c)
      else
        match b.defineError with
        | some msg => (.error (.jit (.codegen msg)), c)
        | none =>
          let c := { c with defined := ptr :: c.defined }
          match b.finalizeError with
          | some msg => (.error (.module msg), c)
          | none => (.ok ptr, c)

def compileFunctionAtTier (c : JitContext) (p : Program) (offset : UInt32)
    (tier : CompilationTier) (b : Backend) : Except CompileError CodePtr × JitContext :=
  match (c.functions.lookup offset).bind (·.cached tier) with
  | some ptr => (.ok ptr, c)
  | none =>
    let c := c.modify offset fun m => { m with compiling := true }
    match c.generate p ⟨offset, tier⟩ b with
    -- the flag stays set
    | (.error e, c) => (.error e, c)
    | (.ok ptr, c) =>
      let c := c.modify offset fun m => m.compiled tier ptr
      (.ok ptr, { c with stats := c.stats.countCompilation tier })

def recordDeopt (c : JitContext) (offset : UInt32) (reason : DeoptReason) :
    Option CompilationTier × JitContext :=
  match c.functions.lookup offset with
  | none => (none, c)
  | some m =>
    let (tier, m) := m.deoptimize reason
    let c := c.modify offset fun _ => m
    (some tier, { c with stats := c.stats.countDeopt reason m.jitDisabled })

def forceDeoptToInterpreter (c : JitContext) (offset : UInt32) (reason : DeoptReason) :
    Bool × JitContext :=
  match c.functions.lookup offset with
  | none => (false, c)
  | some m =>
    let (disabled, m) := m.recordDeopt reason
    let m := { m with tier := .interpreter, nativePtr := none }
    let c := c.modify offset fun _ => m
    (true, { c with stats := c.stats.countDeopt reason disabled })

end JitContext

inductive Call where
  | register (offset paramCount : UInt32)
  | get (offset : UInt32)
  | compile (p : Program) (offset : UInt32) (tier : CompilationTier) (b : Backend)
  | recordDeopt (offset : UInt32) (reason : DeoptReason)
  | forceDeopt (offset : UInt32) (reason : DeoptReason)

def after (c : JitContext) : Call → JitContext
  | .register offset paramCount => c.registerFunction offset paramCount
  | .get offset => (c.getFunction offset).2
  | .compile p offset tier b => (c.compileFunctionAtTier p offset tier b).2
  | .recordDeopt offset reason => (c.recordDeopt offset reason).2
  | .forceDeopt offset reason => (c.forceDeoptToInterpreter offset reason).2

def next (c : JitContext) (call : Call) : Option JitContext := some (after c call)

/-- The pointer of a tier. -/
def FunctionMeta.ptrOf (m : FunctionMeta) : CompilationTier → Option CodePtr
  | .interpreter => none
  | .baselineJit => m.tier1Ptr
  | .optimizedJit => m.tier2Ptr

structure FunctionMeta.Consistent (m : FunctionMeta) : Prop where
  isSome_iff : m.nativePtr.isSome ↔ m.tier ≠ .interpreter
  native_eq : m.nativePtr = m.ptrOf m.tier
  native_of_disabled : m.jitDisabled → m.nativePtr = none
  not_compiling : m.compiling = false

/-- The disabled functions. -/
def JitContext.disabled (c : JitContext) : Finset UInt32 :=
  c.functions.keys.toFinset.filter fun offset => ∃ m ∈ c.functions.lookup offset, m.jitDisabled

structure Consistent (c : JitContext) : Prop where
  functions : ∀ offset m, c.functions.lookup offset = some m → m.Consistent
  counter : c.stats.functionsJitDisabled = c.disabled.card

/-- A compilation that fails leaves every record as it was. -/
def Untouched (c : JitContext) : Call → Prop
  | .compile p offset tier b =>
    ∀ e, (c.compileFunctionAtTier p offset tier b).1 = .error e → ∀ offset',
      (c.compileFunctionAtTier p offset tier b).2.functions.lookup offset' =
        c.functions.lookup offset'
  | _ => True

/-- No step of the compilation fails. -/
structure Builds (defined : List CodePtr) (p : Program) (ptr : CodePtr) (b : Backend) : Prop where
  translates : (compile p ptr.offset).isOk
  declares : b.declareError = none
  fresh : ptr ∉ defined
  defines : b.defineError = none
  finalizes : b.finalizeError = none

/-- A registered function is compiled to a tier of native code, without an error and not once
it is disabled, unless code of the tier is there; it is not deoptimized once it is disabled. -/
def Sound (c : JitContext) : Call → Prop
  | .compile p offset tier b =>
    ∀ m ∈ c.functions.lookup offset, m.cached tier = none →
      tier ≠ .interpreter ∧ m.jitDisabled = false ∧ Builds c.defined p ⟨offset, tier⟩ b
  | .recordDeopt offset _ => ∀ m ∈ c.functions.lookup offset, m.jitDisabled = false
  | .forceDeopt offset _ => ∀ m ∈ c.functions.lookup offset, m.jitDisabled = false
  | .register _ _ => True
  | .get _ => True

/-- What the calls keep in any case: the pointers are those of the function's own names, and
a function is disabled only after enough deoptimizations. -/
structure FunctionMeta.Known (offset : UInt32) (m : FunctionMeta) : Prop where
  tier1 : ∀ ptr ∈ m.tier1Ptr, ptr = ⟨offset, .baselineJit⟩
  tier2 : ∀ ptr ∈ m.tier2Ptr, ptr = ⟨offset, .optimizedJit⟩
  deopts : m.jitDisabled → maxDeoptsPerFunction ≤ m.deoptCount

def Known (c : JitContext) : Prop :=
  ∀ offset m, c.functions.lookup offset = some m → m.Known offset

/-! ### One record -/

namespace FunctionMeta

variable {m : FunctionMeta} {offset : UInt32} {m' : FunctionMeta}

theorem consistent_new (offset paramCount : UInt32) : (new offset paramCount).Consistent :=
  ⟨⟨nofun, absurd rfl⟩, rfl, nofun, rfl⟩

theorem known_new (offset paramCount : UInt32) : (new offset paramCount).Known offset :=
  ⟨nofun, nofun, nofun⟩

theorem consistent_of_interpreter (htier : m.tier = .interpreter) (hnative : m.nativePtr = none)
    (hidle : m.compiling = false) : m.Consistent := by
  refine ⟨?_, ?_, fun _ => hnative, hidle⟩
  · simp [htier, hnative]
  · rw [hnative, htier]
    rfl

theorem Consistent.congr (h : m.Consistent) (htier : m'.tier = m.tier)
    (hnative : m'.nativePtr = m.nativePtr) (hptrs : m'.ptrOf = m.ptrOf)
    (hdisabled : m'.jitDisabled = m.jitDisabled) (hidle : m'.compiling = m.compiling) :
    m'.Consistent := by
  refine ⟨?_, ?_, ?_, ?_⟩
  · rw [hnative, htier]
    exact h.isSome_iff
  · rw [hnative, htier, hptrs]
    exact h.native_eq
  · rw [hnative, hdisabled]
    exact h.native_of_disabled
  · rw [hidle]
    exact h.not_compiling

theorem Consistent.incrementCallCount (h : m.Consistent) : m.incrementCallCount.2.Consistent :=
  h.congr rfl rfl (by funext t; cases t <;> rfl) rfl rfl

theorem Known.incrementCallCount (h : m.Known offset) : m.incrementCallCount.2.Known offset :=
  ⟨h.tier1, h.tier2, h.deopts⟩

theorem fst_recordDeopt (reason : DeoptReason) :
    (m.recordDeopt reason).1 = decide (maxDeoptsPerFunction ≤ m.deoptCount + 1) := by
  simp only [recordDeopt]
  split_ifs with h <;> simpa using h

theorem jitDisabled_recordDeopt (reason : DeoptReason) :
    (m.recordDeopt reason).2.jitDisabled = ((m.recordDeopt reason).1 || m.jitDisabled) := by
  simp only [recordDeopt]
  split_ifs <;> rfl

theorem Known.recordDeopt (h : m.Known offset) (reason : DeoptReason) :
    (m.recordDeopt reason).2.Known offset := by
  simp only [FunctionMeta.recordDeopt]
  split_ifs with hmany
  · exact ⟨h.tier1, h.tier2, fun _ => hmany⟩
  · refine ⟨h.tier1, h.tier2, fun hdis => ?_⟩
    exact le_trans (h.deopts hdis) (Nat.le_succ _)

theorem Consistent.recordDeopt (h : m.Consistent) (reason : DeoptReason) :
    (m.recordDeopt reason).2.Consistent := by
  simp only [FunctionMeta.recordDeopt]
  split_ifs
  · exact consistent_of_interpreter rfl rfl h.not_compiling
  · exact h.congr rfl rfl (by funext t; cases t <;> rfl) rfl rfl

/-- What is left of a function after a deoptimization that did not disable it. -/
inductive Fallback (m : FunctionMeta) : FunctionMeta → Prop where
  | same : Fallback m m
  | baseline (h : m.tier1Ptr.isSome) :
    Fallback m { m with tier := .baselineJit, nativePtr := m.tier1Ptr, tier2Ptr := none }
  | interpreter (tier1Ptr : Option CodePtr) (h : tier1Ptr = m.tier1Ptr ∨ tier1Ptr = none) :
    Fallback m { m with tier := .interpreter, nativePtr := none, tier1Ptr := tier1Ptr }

theorem deoptimize_cases (m : FunctionMeta) (reason : DeoptReason) :
    (m.deoptimize reason).2 = (m.recordDeopt reason).2 ∨ (m.recordDeopt reason).1 = false ∧
        Fallback (m.recordDeopt reason).2 (m.deoptimize reason).2 := by
  simp only [deoptimize]
  split
  · exact .inl rfl
  · rename_i hmany
    refine .inr ⟨Bool.not_eq_true _ ▸ hmany, ?_⟩
    split
    · split_ifs with hsome
      · exact .baseline hsome
      · exact .interpreter _ (.inl rfl)
    · exact .interpreter _ (.inr rfl)
    · exact .same

theorem Known.fallback (h : m.Known offset) (hm' : Fallback m m') : m'.Known offset := by
  cases hm' with
  | same => exact h
  | baseline => exact ⟨h.tier1, nofun, h.deopts⟩
  | interpreter tier1Ptr hptr =>
    refine ⟨?_, h.tier2, h.deopts⟩
    rcases hptr with rfl | rfl
    · exact h.tier1
    · exact nofun

theorem Known.deoptimize (h : m.Known offset) (reason : DeoptReason) :
    (m.deoptimize reason).2.Known offset := by
  rcases deoptimize_cases m reason with heq | ⟨-, hfall⟩
  · rw [heq]
    exact h.recordDeopt reason
  · exact (h.recordDeopt reason).fallback hfall

theorem jitDisabled_deoptimize (reason : DeoptReason) :
    (m.deoptimize reason).2.jitDisabled = ((m.recordDeopt reason).1 || m.jitDisabled) := by
  rw [← jitDisabled_recordDeopt]
  rcases deoptimize_cases m reason with heq | ⟨-, hfall⟩
  · rw [heq]
  · generalize (m.deoptimize reason).2 = m' at hfall ⊢
    cases hfall <;> rfl

theorem Consistent.deoptimize (h : m.Consistent) (hdis : m.jitDisabled = false)
    (reason : DeoptReason) : (m.deoptimize reason).2.Consistent := by
  have hrec := h.recordDeopt reason
  rcases deoptimize_cases m reason with heq | ⟨hmany, hfall⟩
  · rw [heq]
    exact hrec
  · have hdis' : (m.recordDeopt reason).2.jitDisabled = false := by
      rw [jitDisabled_recordDeopt, hmany, hdis]
      rfl
    generalize (m.deoptimize reason).2 = m' at hfall ⊢
    cases hfall with
    | same => exact hrec
    | baseline hsome =>
      refine ⟨⟨fun _ => nofun, fun _ => hsome⟩, rfl, fun h => ?_, hrec.not_compiling⟩
      exact nomatch hdis'.symm.trans h
    | interpreter => exact consistent_of_interpreter rfl rfl hrec.not_compiling

@[simp] theorem jitDisabled_compiled (tier : CompilationTier) (ptr : CodePtr) :
    (m.compiled tier ptr).jitDisabled = m.jitDisabled := by
  cases tier <;> rfl

theorem Known.compiled (h : m.Known offset) (tier : CompilationTier) :
    ({ m with compiling := true }.compiled tier ⟨offset, tier⟩).Known offset := by
  cases tier with
  | interpreter => exact ⟨h.tier1, h.tier2, h.deopts⟩
  | baselineJit => exact ⟨fun _ hptr => (some.inj hptr).symm, h.tier2, h.deopts⟩
  | optimizedJit => exact ⟨h.tier1, fun _ hptr => (some.inj hptr).symm, h.deopts⟩

theorem Known.consistent_compiled_iff (h : m.Known offset) (tier : CompilationTier) :
    ({ m with compiling := true }.compiled tier ⟨offset, tier⟩).Consistent ↔
      tier ≠ .interpreter ∧ m.jitDisabled = false := by
  constructor
  · intro hcons
    have hdis : m.jitDisabled = false := by
      rw [← Bool.not_eq_true]
      intro hdis
      have hnone := hcons.native_of_disabled ((jitDisabled_compiled _ _).trans hdis)
      cases hnone
    refine ⟨?_, hdis⟩
    rintro rfl
    -- the name of the new code is that of no tier's pointer
    have heq : some (⟨offset, .interpreter⟩ : CodePtr) = m.ptrOf m.tier := hcons.native_eq
    cases htier : m.tier with
    | interpreter =>
      rw [htier] at heq
      cases heq
    | baselineJit =>
      rw [htier] at heq
      exact absurd (h.tier1 _ heq.symm) (by simp)
    | optimizedJit =>
      rw [htier] at heq
      exact absurd (h.tier2 _ heq.symm) (by simp)
  · rintro ⟨htier, hdis⟩
    cases tier with
    | interpreter => exact absurd rfl htier
    | baselineJit | optimizedJit =>
      exact ⟨⟨fun _ => nofun, fun _ => rfl⟩, rfl, fun h => absurd (hdis.symm.trans h) nofun, rfl⟩

end FunctionMeta

/-! ### One call -/

section Calls

variable {c c' : JitContext} {offset : UInt32} {m m' : FunctionMeta}

theorem JitContext.mem_disabled {k : UInt32} :
    k ∈ c.disabled ↔ ∃ m, c.functions.lookup k = some m ∧ m.jitDisabled := by
  simp only [JitContext.disabled, Finset.mem_filter, List.mem_toFinset]
  constructor
  · rintro ⟨-, m, hm, hdis⟩
    exact ⟨m, hm, hdis⟩
  · rintro ⟨m, hm, hdis⟩
    exact ⟨(mem_iff_lookup _ _).2 ⟨m, hm⟩, m, hm, hdis⟩

/-- The call replaces the record `m` of a function by `m'`, and nothing else of the table. -/
structure Replaces (c : JitContext) (offset : UInt32) (m m' : FunctionMeta) (c' : JitContext) :
    Prop where
  before : c.functions.lookup offset = some m
  lookup : ∀ k, c'.functions.lookup k = if k = offset then some m' else c.functions.lookup k

theorem replaces_modify (hm : c.functions.lookup offset = some m)
    (f : FunctionMeta → FunctionMeta) (stats : JitStats) :
    Replaces c offset m (f m) { c.modify offset f with stats := stats } := by
  refine ⟨hm, fun k => ?_⟩
  simp only [JitContext.modify]
  rw [lookup_modifyAt]
  split_ifs with hk
  · rw [hk, hm]
    rfl
  · rfl

section

variable (h : Replaces c offset m m' c')
include h

theorem Replaces.after : c'.functions.lookup offset = some m' := by
  rw [h.lookup, if_pos rfl]

theorem Replaces.known (hc : Known c) (hm' : m.Known offset → m'.Known offset) : Known c' := by
  intro k r hr
  rw [h.lookup] at hr
  split_ifs at hr with hk
  · cases hr
    exact hk ▸ hm' (hc offset m h.before)
  · exact hc k r hr

theorem Replaces.keeps_iff (hc : Consistent c) :
    Consistent c' ↔ m'.Consistent ∧ c'.stats.functionsJitDisabled = c'.disabled.card := by
  refine ⟨fun hc' => ⟨hc'.functions _ _ h.after, hc'.counter⟩, fun hm' => ⟨?_, hm'.2⟩⟩
  intro k r hr
  rw [h.lookup] at hr
  split_ifs at hr
  · exact some.inj hr ▸ hm'.1
  · exact hc.functions k r hr

theorem Replaces.disabled_eq
    (hdis : m'.jitDisabled = m.jitDisabled) : c'.disabled = c.disabled := by
  ext k
  rw [JitContext.mem_disabled, JitContext.mem_disabled, h.lookup]
  split_ifs with hk
  · subst hk
    simp [h.before, hdis]
  · exact Iff.rfl

theorem Replaces.card_disabled (hdis : m.jitDisabled = false)
    (hdis' : m'.jitDisabled = true) : c'.disabled.card = c.disabled.card + 1 := by
  have hnew : offset ∉ c.disabled := by
    rw [JitContext.mem_disabled, h.before]
    rintro ⟨r, hr, hrdis⟩
    cases hr
    exact nomatch hdis.symm.trans hrdis
  have hset : c'.disabled = insert offset c.disabled := by
    ext k
    rw [Finset.mem_insert, JitContext.mem_disabled, JitContext.mem_disabled, h.lookup]
    split_ifs with hk
    · simp [hk, hdis']
    · simp [hk]
  rw [hset, Finset.card_insert_of_notMem hnew]

theorem Replaces.keeps_iff_of_counter (hc : Consistent c) (hdis : m'.jitDisabled = m.jitDisabled)
    (hstats : c'.stats.functionsJitDisabled = c.stats.functionsJitDisabled) :
    Consistent c' ↔ m'.Consistent := by
  rw [h.keeps_iff hc, h.disabled_eq hdis, hstats]
  exact and_iff_left hc.counter

theorem Replaces.countDeopt (hc : Consistent c) {disabled : Bool}
    {reason : DeoptReason} (hstats : c'.stats = c.stats.countDeopt reason disabled)
    (hdis' : m'.jitDisabled = (disabled || m.jitDisabled))
    (hcounted : m.jitDisabled = true → disabled = true)
    (hm' : m.jitDisabled = false → m'.Consistent) : Consistent c' ↔ m.jitDisabled = false := by
  have hcounter := hc.counter
  have hstats : c'.stats.functionsJitDisabled =
      if disabled then c.stats.functionsJitDisabled + 1 else c.stats.functionsJitDisabled := by
    rw [hstats]
    rfl
  rw [h.keeps_iff hc, hstats]
  by_cases hdis : m.jitDisabled = true
  · have hcount : disabled = true := hcounted hdis
    have hsame : m'.jitDisabled = m.jitDisabled := by rw [hdis', hdis, Bool.or_true]
    rw [if_pos hcount, h.disabled_eq hsame, hdis]
    constructor
    · rintro ⟨-, htwice⟩
      omega
    · exact nofun
  · rw [Bool.not_eq_true] at hdis
    rw [hdis, Bool.or_false] at hdis'
    refine iff_of_true ⟨hm' hdis, ?_⟩ hdis
    cases disabled with
    | true =>
      have hcard := h.card_disabled hdis hdis'
      rw [if_pos rfl]
      omega
    | false =>
      have hsame := h.disabled_eq (hdis'.trans hdis.symm)
      rw [hsame]
      exact hcounter

end

/-! ### Registering and looking up -/

theorem lookup_registerFunction (c : JitContext) (offset paramCount k : UInt32) :
    (c.registerFunction offset paramCount).functions.lookup k = c.functions.lookup k ∨
      (c.registerFunction offset paramCount).functions.lookup k =
        some (.new offset paramCount) ∧ c.functions.lookup k = none ∧ k = offset := by
  unfold JitContext.registerFunction
  split
  · exact .inl rfl
  · rename_i hnone
    rw [lookup_insert_eq]
    split_ifs with hk
    · exact .inr ⟨rfl, hk ▸ hnone, hk⟩
    · exact .inl rfl

theorem stats_registerFunction (c : JitContext) (offset paramCount : UInt32) :
    (c.registerFunction offset paramCount).stats = c.stats := by
  unfold JitContext.registerFunction
  split <;> rfl

theorem known_registerFunction (hc : Known c) (offset paramCount : UInt32) :
    Known (c.registerFunction offset paramCount) := by
  intro k r hr
  rcases lookup_registerFunction c offset paramCount k with heq | ⟨heq, -, rfl⟩
  · exact hc k r (heq ▸ hr)
  · rw [heq] at hr
    cases hr
    exact FunctionMeta.known_new _ _

theorem consistent_registerFunction (hc : Consistent c) (offset paramCount : UInt32) :
    Consistent (c.registerFunction offset paramCount) := by
  refine ⟨fun k r hr => ?_, ?_⟩
  · rcases lookup_registerFunction c offset paramCount k with heq | ⟨heq, -, -⟩
    · exact hc.functions k r (heq ▸ hr)
    · rw [heq] at hr
      cases hr
      exact FunctionMeta.consistent_new _ _
  · have hset : (c.registerFunction offset paramCount).disabled = c.disabled := by
      ext k
      rw [JitContext.mem_disabled, JitContext.mem_disabled]
      rcases lookup_registerFunction c offset paramCount k with heq | ⟨heq, hnone, -⟩
      · rw [heq]
      · rw [heq, hnone]
        simp [FunctionMeta.new]
    rw [stats_registerFunction, hset]
    exact hc.counter

theorem getFunction_cases (c : JitContext) (offset : UInt32) :
    (c.getFunction offset).2 = c ∨ ∃ m, Replaces c offset m m.incrementCallCount.2
      (c.getFunction offset).2 ∧ (c.getFunction offset).2.stats = c.stats := by
  unfold JitContext.getFunction
  split
  · rename_i m hm
    exact .inr ⟨m, replaces_modify hm (fun _ => m.incrementCallCount.2) c.stats, rfl⟩
  · exact .inl rfl

theorem generate_spec (c : JitContext) (p : Program) (ptr : CodePtr) (b : Backend) :
    (c.generate p ptr b).2.functions = c.functions ∧ (c.generate p ptr b).2.stats = c.stats ∧
      ((c.generate p ptr b).1 = .ok ptr ∧ Builds c.defined p ptr b ∨
        (∃ e, (c.generate p ptr b).1 = .error e) ∧ ¬ Builds c.defined p ptr b) := by
  unfold JitContext.generate
  cases hcompile : Jit.compile p ptr.offset with
  | error e =>
    refine ⟨rfl, rfl, .inr ⟨⟨_, rfl⟩, fun h => ?_⟩⟩
    have := h.translates
    rw [hcompile] at this
    cases this
  | ok f =>
    cases hdeclare : b.declareError with
    | some msg =>
      refine ⟨rfl, rfl, .inr ⟨⟨_, rfl⟩, fun h => ?_⟩⟩
      exact nomatch hdeclare.symm.trans h.declares
    | none =>
      split_ifs with hfresh
      · exact ⟨rfl, rfl, .inr ⟨⟨_, rfl⟩, fun h => h.fresh hfresh⟩⟩
      · cases hdefine : b.defineError with
        | some msg =>
          refine ⟨rfl, rfl, .inr ⟨⟨_, rfl⟩, fun h => ?_⟩⟩
          exact nomatch hdefine.symm.trans h.defines
        | none =>
          cases hfinalize : b.finalizeError with
          | some msg =>
            refine ⟨rfl, rfl, .inr ⟨⟨_, rfl⟩, fun h => ?_⟩⟩
            exact nomatch hfinalize.symm.trans h.finalizes
          | none =>
            refine ⟨rfl, rfl, .inl ⟨rfl, ?_, hdeclare, hfresh, hdefine, hfinalize⟩⟩
            rw [hcompile]
            rfl

/-- Compiling returns a cached pointer, or it succeeds or fails as the steps do; a failure
leaves the function marked. -/
theorem compile_cases (c : JitContext) (p : Program) (offset : UInt32) (tier : CompilationTier)
    (b : Backend) : (∃ m ptr, c.functions.lookup offset = some m ∧ m.cached tier = some ptr ∧
      c.compileFunctionAtTier p offset tier b = (.ok ptr, c)) ∨ (c.functions.lookup offset = none ∧
      (c.compileFunctionAtTier p offset tier b).2.stats.functionsJitDisabled =
        c.stats.functionsJitDisabled ∧
      ∀ k, (c.compileFunctionAtTier p offset tier b).2.functions.lookup k = c.functions.lookup k) ∨
    ∃ m m', m.cached tier = none ∧
      Replaces c offset m m' (c.compileFunctionAtTier p offset tier b).2 ∧
      (c.compileFunctionAtTier p offset tier b).2.stats.functionsJitDisabled =
        c.stats.functionsJitDisabled ∧
      (m' = { m with compiling := true }.compiled tier ⟨offset, tier⟩ ∧
          Builds c.defined p ⟨offset, tier⟩ b ∧ (c.compileFunctionAtTier p offset tier b).1.isOk ∨
        m' = { m with compiling := true } ∧ ¬ Builds c.defined p ⟨offset, tier⟩ b) := by
  unfold JitContext.compileFunctionAtTier
  cases hcached : (c.functions.lookup offset).bind (·.cached tier) with
  | some ptr =>
    obtain ⟨m, hm, hptr⟩ := bind_eq_some_iff.1 hcached
    exact .inl ⟨m, ptr, hm, hptr, rfl⟩
  | none =>
    refine .inr ?_
    obtain ⟨hfunctions, hstats, hresult⟩ := generate_spec
      (c.modify offset fun m => { m with compiling := true }) p ⟨offset, tier⟩ b
    have hcounter (s : JitStats) :
        (s.countCompilation tier).functionsJitDisabled = s.functionsJitDisabled := by
      cases tier <;> rfl
    dsimp only
    generalize (c.modify offset fun m => { m with compiling := true }).generate p ⟨offset, tier⟩ b =
      answer at hfunctions hstats hresult ⊢
    obtain ⟨result, c₁⟩ := answer
    have hlookup (k : UInt32) : c₁.functions.lookup k =
        if k = offset then (c.functions.lookup offset).map fun m => { m with compiling := true }
        else c.functions.lookup k := by
      rw [hfunctions, JitContext.modify, lookup_modifyAt]
      split_ifs with hk
      · rw [hk]
      · rfl
    cases hm : c.functions.lookup offset with
    | none =>
      refine .inl ⟨rfl, ?_⟩
      have hsame (k : UInt32) : c₁.functions.lookup k = c.functions.lookup k := by
        rw [hlookup]
        split_ifs with hk
        · rw [hk, hm]
          rfl
        · rfl
      rcases hresult with ⟨rfl, -⟩ | ⟨⟨e, rfl⟩, -⟩
      · refine ⟨(hcounter _).trans (congrArg _ hstats), fun k => ?_⟩
        simp only [JitContext.modify]
        rw [lookup_modifyAt, hsame]
        split_ifs with hk
        · rw [hk, hm]
          rfl
        · rfl
      · exact ⟨congrArg _ hstats, hsame⟩
    | some m =>
      rw [hm] at hcached
      refine .inr ⟨m, ?_⟩
      rcases hresult with ⟨rfl, hbuilds⟩ | ⟨⟨e, rfl⟩, hbuilds⟩
      · refine ⟨_, hcached, ⟨hm, fun k => ?_⟩, (hcounter _).trans (congrArg _ hstats),
          .inl ⟨rfl, hbuilds, rfl⟩⟩
        simp only [JitContext.modify]
        rw [lookup_modifyAt, hlookup]
        split_ifs
        · rw [hm]
          rfl
        · rfl
      · refine ⟨_, hcached, ⟨hm, fun k => ?_⟩, congrArg _ hstats, .inr ⟨rfl, hbuilds⟩⟩
        rw [hlookup, hm]
        rfl

theorem recordDeopt_of_lookup (hm : c.functions.lookup offset = some m) (reason : DeoptReason) :
    Replaces c offset m (m.deoptimize reason).2 (c.recordDeopt offset reason).2 ∧
      (c.recordDeopt offset reason).2.stats =
        c.stats.countDeopt reason (m.deoptimize reason).2.jitDisabled := by
  unfold JitContext.recordDeopt
  rw [hm]
  exact ⟨replaces_modify hm (fun _ => (m.deoptimize reason).2) _, rfl⟩

theorem forceDeopt_of_lookup (hm : c.functions.lookup offset = some m) (reason : DeoptReason) :
    Replaces c offset m { (m.recordDeopt reason).2 with tier := .interpreter, nativePtr := none }
        (c.forceDeoptToInterpreter offset reason).2 ∧
      (c.forceDeoptToInterpreter offset reason).2.stats =
        c.stats.countDeopt reason (m.recordDeopt reason).1 := by
  unfold JitContext.forceDeoptToInterpreter
  rw [hm]
  exact ⟨replaces_modify hm
    (fun _ => { (m.recordDeopt reason).2 with tier := .interpreter, nativePtr := none }) _, rfl⟩

theorem FunctionMeta.Known.fst_recordDeopt (h : m.Known offset) (hdis : m.jitDisabled = true)
    (reason : DeoptReason) : (m.recordDeopt reason).1 = true := by
  have hmany := h.deopts hdis
  rw [FunctionMeta.fst_recordDeopt]
  exact decide_eq_true (le_trans hmany (Nat.le_succ _))

end Calls

/-! ## Runs -/

theorem known_new : Known .new := by
  intro offset m hm
  cases hm

theorem consistent_new : Consistent .new := by
  refine ⟨fun offset m hm => ?_, rfl⟩
  cases hm

variable {c : JitContext}

theorem known_after (hc : Known c) (call : Call) : Known (after c call) := by
  cases call with
  | register offset paramCount => exact known_registerFunction hc offset paramCount
  | get offset =>
    rcases getFunction_cases c offset with heq | ⟨m, hrep, -⟩
    · simp only [after, heq]
      exact hc
    · exact hrep.known hc fun h => h.incrementCallCount
  | compile p offset tier b =>
    rcases compile_cases c p offset tier b with ⟨m, ptr, -, -, heq⟩ | ⟨-, -, hsame⟩ |
      ⟨m, m', -, hrep, -, ⟨rfl, -, -⟩ | ⟨rfl, -⟩⟩
    · simp only [after, heq]
      exact hc
    · exact fun k r hr => hc k r ((hsame k).symm.trans hr)
    · exact hrep.known hc fun h => h.compiled tier
    · exact hrep.known hc fun h => ⟨h.tier1, h.tier2, h.deopts⟩
  | recordDeopt offset reason =>
    cases hm : c.functions.lookup offset with
    | none =>
      simp only [after, JitContext.recordDeopt, hm]
      exact hc
    | some m => exact (recordDeopt_of_lookup hm reason).1.known hc fun h => h.deoptimize reason
  | forceDeopt offset reason =>
    cases hm : c.functions.lookup offset with
    | none =>
      simp only [after, JitContext.forceDeoptToInterpreter, hm]
      exact hc
    | some m =>
      refine (forceDeopt_of_lookup hm reason).1.known hc fun h => ?_
      have hrec := h.recordDeopt reason
      exact ⟨hrec.tier1, hrec.tier2, hrec.deopts⟩

theorem consistent_compile_iff (hknown : Known c) (hc : Consistent c)
    (p : Program) (offset : UInt32) (tier : CompilationTier) (b : Backend) :
    Consistent (after c (.compile p offset tier b)) ↔ Sound c (.compile p offset tier b) := by
  simp only [after, Sound]
  rcases compile_cases c p offset tier b with ⟨m, ptr, hm, hptr, heq⟩ | ⟨hm, hstats, hsame⟩ |
    ⟨m, m', hcached, hrep, hstats, hm'⟩
  · rw [heq, hm]
    refine iff_of_true hc fun m' hm' hnone => ?_
    cases hm'
    exact absurd (hptr.symm.trans hnone) (some_ne_none ptr)
  · rw [hm]
    refine iff_of_true ⟨fun k r hr => hc.functions k r ((hsame k).symm.trans hr), ?_⟩
      fun r hr => absurd hr (not_mem_none r)
    have hset : (c.compileFunctionAtTier p offset tier b).2.disabled = c.disabled := by
      ext k
      rw [JitContext.mem_disabled, JitContext.mem_disabled, hsame]
    rw [hstats, hset]
    exact hc.counter
  · have hcall : (∀ r ∈ c.functions.lookup offset, r.cached tier = none → tier ≠ .interpreter ∧
        r.jitDisabled = false ∧ Builds c.defined p ⟨offset, tier⟩ b) ↔ tier ≠ .interpreter ∧
          m.jitDisabled = false ∧ Builds c.defined p ⟨offset, tier⟩ b := by
      rw [hrep.before]
      refine ⟨fun h => h m rfl hcached, fun h r hr _ => ?_⟩
      exact some.inj hr ▸ h
    rw [hcall]
    rcases hm' with ⟨rfl, hbuilds, -⟩ | ⟨rfl, hbuilds⟩
    · rw [hrep.keeps_iff_of_counter hc (FunctionMeta.jitDisabled_compiled _ _) hstats,
        (hknown _ _ hrep.before).consistent_compiled_iff]
      exact ⟨fun h => ⟨h.1, h.2, hbuilds⟩, fun h => ⟨h.1, h.2.1⟩⟩
    · -- the failed compilation leaves the function marked
      rw [hrep.keeps_iff_of_counter hc rfl hstats]
      exact iff_of_false (fun h => Bool.noConfusion h.not_compiling) fun h => hbuilds h.2.2

theorem consistent_recordDeopt_iff (hc : Consistent c) (offset : UInt32) (reason : DeoptReason) :
    Consistent (after c (.recordDeopt offset reason)) ↔ Sound c (.recordDeopt offset reason) := by
  simp only [after, Sound]
  cases hm : c.functions.lookup offset with
  | none =>
    simp only [JitContext.recordDeopt, hm]
    exact iff_of_true hc fun r hr => absurd hr (not_mem_none r)
  | some m =>
    obtain ⟨hrep, hstats⟩ := recordDeopt_of_lookup hm reason
    have hdis := FunctionMeta.jitDisabled_deoptimize (m := m) reason
    simp only [mem_some_iff, forall_eq']
    refine hrep.countDeopt hc hstats ?_ ?_ fun h => (hc.functions _ _ hm).deoptimize h reason
    · rw [hdis, Bool.or_assoc, Bool.or_self]
    · intro h
      rw [hdis, h, Bool.or_true]

theorem consistent_forceDeopt_iff (hknown : Known c) (hc : Consistent c)
    (offset : UInt32) (reason : DeoptReason) :
    Consistent (after c (.forceDeopt offset reason)) ↔ Sound c (.forceDeopt offset reason) := by
  simp only [after, Sound]
  cases hm : c.functions.lookup offset with
  | none =>
    simp only [JitContext.forceDeoptToInterpreter, hm]
    exact iff_of_true hc fun r hr => absurd hr (not_mem_none r)
  | some m =>
    obtain ⟨hrep, hstats⟩ := forceDeopt_of_lookup hm reason
    have hrec := (hc.functions _ _ hm).recordDeopt reason
    simp only [mem_some_iff, forall_eq']
    refine hrep.countDeopt hc hstats (FunctionMeta.jitDisabled_recordDeopt reason) ?_ fun _ => ?_
    · exact fun h => (hknown _ _ hm).fst_recordDeopt h reason
    · exact FunctionMeta.consistent_of_interpreter rfl rfl hrec.not_compiling

/-- **One call.** A call keeps consistency if and only if it is sound. -/
theorem consistent_after_iff (hknown : Known c) (hc : Consistent c)
    (call : Call) : Consistent (after c call) ↔ Sound c call := by
  cases call with
  | register offset paramCount =>
    exact iff_of_true (consistent_registerFunction hc offset paramCount) trivial
  | get offset =>
    refine iff_of_true ?_ trivial
    rcases getFunction_cases c offset with heq | ⟨m, hrep, hstats⟩
    · simp only [after, heq]
      exact hc
    · refine (hrep.keeps_iff_of_counter hc rfl (congrArg _ hstats)).2 ?_
      exact (hc.functions _ _ hrep.before).incrementCallCount
  | compile p offset tier b => exact consistent_compile_iff hknown hc p offset tier b
  | recordDeopt offset reason => exact consistent_recordDeopt_iff hc offset reason
  | forceDeopt offset reason => exact consistent_forceDeopt_iff hknown hc offset reason

theorem untouched_of_sound {call : Call} (h : Sound c call) : Untouched c call := by
  cases call with
  | compile p offset tier b =>
    intro e herror k
    rcases compile_cases c p offset tier b with ⟨m, ptr, -, -, heq⟩ | ⟨-, -, hsame⟩ |
      ⟨m, m', hcached, hrep, -, ⟨-, -, hok⟩ | ⟨-, hbuilds⟩⟩
    · rw [heq]
    · exact hsame k
    · rw [herror] at hok
      cases hok
    · exact absurd (h m hrep.before hcached).2.2 hbuilds
  | _ => trivial

/-- **Tier metadata.** From a new context, the metadata is consistent throughout and no failed
compilation touches it if and only if every call is sound. -/
theorem tiers_iff (calls : List Call) :
    Always next Consistent .new calls ∧ Along next Untouched .new calls ↔
      Along next Sound .new calls := by
  have halways : Always next Consistent .new calls ↔ Along next Sound .new calls := by
    refine always_iff_along (I := Known) ?_ ?_ ?_ known_new consistent_new
    · intro c call c' hknown hnext
      obtain rfl := Option.some.inj hnext
      exact known_after hknown call
    · intro c call c' hknown hc hnext
      obtain rfl := Option.some.inj hnext
      exact consistent_after_iff hknown hc call
    · intro c call hstuck
      cases hstuck
  rw [halways, and_iff_left_iff_imp]
  exact Along.mono fun _ _ => untouched_of_sound

theorem failedCompile_marks : let p : Program := ⟨[], [], [], []⟩
    let calls : List Call := [.register 0 0, .compile p 0 .baselineJit ⟨none, none, none⟩]
    (∃ c m, run next .new calls = some c ∧ c.functions.lookup 0 = some m ∧ m.compiling = true) ∧
      ¬ (Always next Consistent .new calls ∧ Along next Untouched .new calls) := by
  intro p calls
  have hmarked : ∃ c m, run next .new calls = some c ∧ c.functions.lookup 0 = some m ∧
      m.compiling = true := ⟨_, _, rfl, rfl, rfl⟩
  refine ⟨hmarked, fun h => ?_⟩
  obtain ⟨c, m, hrun, hm, hcompiling⟩ := hmarked
  have hidle := ((h.1.last hrun).functions 0 m hm).not_compiling
  exact Bool.noConfusion (hidle.symm.trans hcompiling)

end Arth.Tiers
