import Arth.Ir.Cfg

/-!
# What an async function saves across its awaits

* `findAwaitPoints` — the marked awaits, and the calls of `__arth_await` without a mark.
* `buildDefUseInfo` — the last definition of every value and the places that list it as used.
* `AwaitPointInfo.computeLiveness` — the values saved for an await, by places in block order.
* `buildFrame` — the frame: a field for each parameter and each saved value, of 8 bytes each.
-/

namespace Arth.Ir

open KeyTable

/-- An instruction of a block, or its terminator when `inst` is the number of instructions. -/
structure Place where
  block : ℕ
  inst : ℕ
  deriving DecidableEq

/-- Before, in block order. -/
def Place.before (p q : Place) : Bool :=
  decide (p.block < q.block) || (p.block == q.block && decide (p.inst < q.inst))

structure AwaitPointInfo where
  blockIdx : ℕ
  instIdx : ℕ
  awaitCallIdx : Option ℕ
  awaitedValue : Option Value
  resultValue : Option Value
  liveValues : List Value
  deriving DecidableEq

def AwaitPointInfo.place (a : AwaitPointInfo) : Place := ⟨a.blockIdx, a.instIdx⟩

/-! ## Await points -/

def InstKind.isAwaitCall : InstKind → Bool
  | .call name _ _ => name == "__arth_await"
  | _ => false

/-- The search for the call that belongs to the mark at `k`: at most five instructions on, or past
constants and copies. -/
def scanAwaitCall (k : ℕ) : List (Inst × ℕ) → Option ℕ
  | [] => none
  | (inst, i) :: rest =>
    if inst.kind.isAwaitCall then some i
    else match inst.kind with
      | .constI64 _ | .constF64 _ | .copy _ => scanAwaitCall k rest
      | _ => if i ≤ k + 5 then scanAwaitCall k rest else none

def findAwaitCall (block : BlockData) (k : ℕ) : Option ℕ :=
  scanAwaitCall k (block.insts.zipIdx.drop (k + 1))

def extractAwaitedValue (block : BlockData) (callIdx : ℕ) : Option Value :=
  match block.insts[callIdx]?.map Inst.kind with
  | some (.call _ args _) => args.head?
  | _ => none

/-- One instruction of the search. -/
def addAwaitPoint (b : ℕ) (block : BlockData) (points : List AwaitPointInfo) (x : Inst × ℕ) :
    List AwaitPointInfo :=
  match x.1.kind with
  | .awaitPoint _ _ =>
    let call := findAwaitCall block x.2
    points ++ [
      { blockIdx := b
        instIdx := x.2
        awaitCallIdx := call
        awaitedValue := call.bind (extractAwaitedValue block)
        resultValue := call.bind fun i => block.insts[i]?.map Inst.result
        liveValues := [] }]
  | .call name _ _ =>
    if name = "__arth_await" then
      if points.any fun p => p.blockIdx == b && p.awaitCallIdx == some x.2 then points
      else points ++ [
        { blockIdx := b
          instIdx := x.2
          awaitCallIdx := some x.2
          awaitedValue := extractAwaitedValue block x.2
          resultValue := some x.1.result
          liveValues := [] }]
    else points
  | _ => points

def findAwaitPoints (f : Func) : List AwaitPointInfo :=
  let points := f.blocks.zipIdx.foldl
    (fun points s => s.1.insts.zipIdx.foldl (addAwaitPoint s.2 s.1) points) []
  points.insertionSort fun a b => b.place.before a.place = false

/-- The values an instruction is taken to use. -/
def extractUsedValues : InstKind → List Value
  | .copy v => [v]
  | .binary _ a b => [a, b]
  | .cmp _ a b => [a, b]
  | .strEq a b => [a, b]
  | .strConcat a b => [a, b]
  | .load v => [v]
  | .store p v => [p, v]
  | .call _ args _ => args
  | .externCall _ args _ _ => args
  | .makeClosure _ captures => captures
  | .closureCall closure args _ => closure :: args
  | .rcAlloc v => [v]
  | .rcInc h => [h]
  | .rcDec h _ => [h]
  | .rcLoad h => [h]
  | .rcStore h v => [h, v]
  | .rcGetCount h => [h]
  | .drop v _ => [v]
  | .condDrop v flag _ => [v, flag]
  | .fieldDrop v _ _ => [v]
  | .getTypeName v => [v]
  | .asyncFrameGetState p => [p]
  | .asyncFrameSetState p _ => [p]
  | .asyncFrameLoad p _ _ => [p]
  | .asyncFrameStore p _ v => [p, v]
  | .asyncFrameFree p => [p]
  | .asyncCheckCancelled task => [task]
  | .asyncYield task => [task]
  | .awaitPoint task _ => [task]
  | .providerNew _ values => values.map (·.2)
  | .providerFieldGet obj _ _ => [obj]
  | .providerFieldSet obj _ _ v => [obj, v]
  | .phi ops => ops.map (·.2)
  | .regionExit _ deinitCalls => deinitCalls.map (·.1)
  | _ => []

def extractTerminatorUses : Terminator → List Value
  | .ret (some v) => [v]
  | .condBr cond _ _ => [cond]
  | .switch scrut _ _ => [scrut]
  | .throw (some v) => [v]
  | .panic (some v) => [v]
  | .invoke _ args _ _ _ _ => args
  | .pollReturn _ (some v) => [v]
  | _ => []

abbrev DefTable := Table Value Place

abbrev UseTable := Table Value (List Place)

def recordUses (uses : UseTable) (p : Place) (vs : List Value) : UseTable :=
  vs.foldl (fun uses v => uses.insert v ((uses.lookup v).getD [] ++ [p])) uses

def recordInst (b : ℕ) (s : DefTable × UseTable) (x : Inst × ℕ) : DefTable × UseTable :=
  (s.1.insert x.1.result ⟨b, x.2⟩, recordUses s.2 ⟨b, x.2⟩ (extractUsedValues x.1.kind))

def recordBlock (s : DefTable × UseTable) (x : BlockData × ℕ) : DefTable × UseTable :=
  let s := x.1.insts.zipIdx.foldl (recordInst x.2) s
  (s.1, recordUses s.2 ⟨x.2, x.1.insts.length⟩ (extractTerminatorUses x.1.term))

def paramDefs (f : Func) : DefTable :=
  (List.range f.params.length).foldl (fun defs i => defs.insert i ⟨0, 0⟩) ∅

def buildDefUseInfo (f : Func) : DefTable × UseTable :=
  f.blocks.zipIdx.foldl recordBlock (paramDefs f, ∅)

def useSites (uses : UseTable) (v : Value) : List Place := (uses.lookup v).getD []

/-- The values saved for an await: those defined before it and used after it in block order, and
those used in a later block. -/
def liveValuesAt (info : DefTable × UseTable) (p : Place) : List Value :=
  let first := info.1.entries.filter fun e =>
    e.2.before p && (useSites info.2 e.1).any fun u => p.before u
  let second := info.1.entries.filter fun e =>
    !(first.map (·.1)).contains e.1 &&
      (useSites info.2 e.1).any fun u => decide (p.block < u.block)
  (first ++ second).map (·.1)

def AwaitPointInfo.computeLiveness (f : Func) (a : AwaitPointInfo) : AwaitPointInfo :=
  { a with liveValues := liveValuesAt (buildDefUseInfo f) a.place }

/-- The await points after `compute_liveness`. -/
def awaitPoints (f : Func) : List AwaitPointInfo :=
  (findAwaitPoints f).map (AwaitPointInfo.computeLiveness f)

/-- A value is in `cross_await_vars`. The name there, `ssa_` and the number, tells the value. -/
def CrossAwait (f : Func) (v : Value) : Prop := ∃ a ∈ awaitPoints f, v ∈ a.liveValues

/-! ## The frame -/

def userFieldsStart : ℕ := 32

structure AsyncFrameField where
  name : String
  offset : ℕ
  originalValue : Option Value

/-- The fields so far, the slots of the values, and the next offset, a `u32`. -/
structure FrameState where
  fields : List AsyncFrameField
  valueToField : Table Value ℕ
  nextFieldOffset : ℕ

def FrameState.add (s : FrameState) (name : String) (v : Value) : FrameState where
  fields := s.fields ++ [⟨name, s.nextFieldOffset, some v⟩]
  valueToField := s.valueToField.insert v s.nextFieldOffset
  nextFieldOffset := (s.nextFieldOffset + 8) % 2 ^ 32

def addParam (s : FrameState) (i : ℕ) : FrameState := s.add ("param_" ++ toString i) i

def addCrossAwait (s : FrameState) (v : Value) : FrameState := s.add ("ssa_" ++ toString v) v

/-- The frame, when the table of saved values is gone through in the order `order`. -/
def buildFrame (f : Func) (order : List Value) : FrameState :=
  let params := (List.range f.params.length).foldl addParam ⟨[], ∅, userFieldsStart⟩
  order.foldl addCrossAwait params

end Arth.Ir
