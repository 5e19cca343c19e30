import Arth.Codegen.Intrinsics
import Arth.Vm.Signature

/-!
# Emitting bytecode for one function

The state `Gen` of `compile_ir_to_program` inside one function, and `emit`, which runs one
`Piece` of an instruction's template: a call of `push_value`, of `ensure_local_for`, of
`str_index`, or one `code.push`.

* An `Item` is an emitted instruction with the patch the source registers for its
  position. The other fields say what the instruction was emitted for and are read by no
  definition of the code: where it comes from, the operand its control transfer should
  end up with, the height the operand stack should have before it, the values its template
  counts on it to take and leave, and its role in the data flow.
-/

namespace Arth.Codegen

open Ir

/-- A position the source registers in `patch_jumps`, `call_patches` or `closure_patches`. -/
inductive Patch where
  | block (b : Block)
  | call (name : String)
  | closure (name : String)
  deriving DecidableEq

/-- Where a control transfer should go: a block of the function, an instruction offset, or
a function by name. -/
inductive Goal where
  | block (b : Block)
  | offset (n : Nat)
  | func (name : String)
  deriving DecidableEq

/-- The part of a function an instruction is emitted for. -/
inductive Part where
  | prologue
  | inst (i : Nat)
  | term
  deriving DecidableEq

structure Site where
  func : Nat
  block : Block
  part : Part
  deriving DecidableEq

/-- The role of an instruction in the data flow: it reads a value, computes one, assigns a
phi, or takes the edge to a block. -/
inductive Mark where
  | none
  | reads (v : Ir.Value)
  | sets (v : Ir.Value)
  | phi (v : Ir.Value)
  | edge (b : Block)
  deriving DecidableEq

structure Item where
  op : Op
  patch : Option Patch
  goal : Option Goal
  site : Site
  height : Nat
  effect : Nat × Nat
  mark : Mark
  deriving DecidableEq

/-- A partial map, as the source's `HashMap`s. -/
abbrev PMap (α : Type) := Nat → Option α

def PMap.insert {α : Type} (m : PMap α) (k : Nat) (a : α) : PMap α :=
  fun i => if i = k then some a else m i

structure Gen where
  base : Nat
  code : List Item
  outStrings : List String
  constInt : PMap Int64
  constStr : PMap String
  constF64 : PMap F64
  valLocal : PMap Nat
  allocaSlot : PMap Nat
  nextLocal : Nat
  temp : Nat
  site : Site
  height : Nat

namespace Gen

/-- `code.len()`. -/
def pos (g : Gen) : Nat := g.base + g.code.length

end Gen

/-- `str_index`. -/
def strIndex (pool : List String) (s : String) : UInt32 × List String :=
  match pool.findIdx? (· == s) with
  | some i => (UInt32.ofNat i, pool)
  | none => (UInt32.ofNat pool.length, pool ++ [s])

/-- Values popped and pushed by an instruction that is not a call. -/
def effect : Op → Nat × Nat
  | .localGet _ => (0, 1)
  | .localSet _ => (1, 0)
  | .pop => (1, 0)
  | .throw => (1, 0)
  | .getException => (0, 1)
  | .hostCallIo o => ofSig o.sig
  | .hostCallNet o => ofSig o.sig
  | .hostCallTime o => (o.sig.map ofSig).getD (0, 0)
  | .hostCallDb o => ofSig o.sig
  | .hostCallMail o => ofSig o.sig
  | .hostCallCrypto o => ofSig o.sig
  | op => (op.sig.map ofSig).getD (0, 0)
where
  ofSig (sg : Sig) : Nat × Nat :=
    (sg.operands.length, match sg.results with | .none => 0 | _ => 1)

/-- The instructions that take the index of a string. -/
inductive TextOp where
  | sharedGetByName | print | printStrVal | printRaw | printRawStrVal | panic
  deriving DecidableEq

def TextOp.op (ix : UInt32) : TextOp → Op
  | .sharedGetByName => .sharedGetByName ix
  | .print => .print ix
  | .printStrVal => .printStrVal ix
  | .printRaw => .printRaw ix
  | .printRawStrVal => .printRawStrVal ix
  | .panic => .panic ix

/-- One step of a template. -/
inductive Piece where
  /-- `ensure_local_for` the result. -/
  | bind
  /-- `push_value`. -/
  | value (v : Ir.Value)
  | op (o : Op)
  /-- `o`, counted on to take and leave so many values. -/
  | run (o : Op) (taken left : Nat)
  /-- `LocalSet` and `LocalGet` of the result's local. -/
  | set
  | get
  /-- A fresh local, and `LocalSet` and `LocalGet` of it. -/
  | newTemp
  | setTemp
  | getTemp
  /-- `str_index`, alone or as the operand of a string push, an integer push or `o`. -/
  | intern (s : String)
  | text (s : String)
  | textIx (s : String)
  | withText (o : TextOp) (s : String)
  /-- A call of a native symbol, and of a function by name, with `argc` arguments on the
  stack. -/
  | native (s : String) (argc8 : UInt8) (floatMask : UInt32) (retKind : UInt8) (argc : Nat)
  | call (name : String) (argc results : Nat)
  | rcDecWithDeinit (name : String)
  | closureNew (func : String) (numCaptures : Nat)
  | handler (b : Block)
  /-- `JumpIfFalse` with the distance `n` to the instruction it should go to. -/
  | skipBy (n : Nat)
  /-- `JumpIfFalse` over the next `n` instructions. -/
  | skipTo (n : Nat)
  | jump (b : Block)
  /-- `LocalSet` of a phi's local. -/
  | phi (dst : Ir.Value)

namespace Gen

def push (g : Gen) (op : Op) (patch : Option Patch) (goal : Option Goal) (mark : Mark)
    (effect : Nat × Nat) : Gen :=
  { g with
    code := g.code ++ [⟨op, patch, goal, g.site, g.height, effect, mark⟩]
    height := g.height - effect.1 + effect.2 }

def pushOp (g : Gen) (op : Op) (mark : Mark) : Gen :=
  g.push op none none mark (effect op)

def intern (g : Gen) (s : String) : UInt32 × Gen :=
  let (ix, pool) := strIndex g.outStrings s
  (ix, { g with outStrings := pool })

/-- `ensure_local_for`. -/
def ensureLocalFor (g : Gen) (v : Ir.Value) : Gen :=
  match g.valLocal v with
  | some _ => g
  | none =>
    { g with valLocal := g.valLocal.insert v g.nextLocal, nextLocal := g.nextLocal + 1 }

/-- `push_value`: a local, else a known constant, else 0. -/
def pushValue (g : Gen) (v : Ir.Value) : Gen :=
  match g.valLocal v with
  | some ix => g.pushOp (.localGet (UInt32.ofNat ix)) (.reads v)
  | none =>
    match g.constInt v with
    | some c => g.pushOp (.pushI64 c) (.reads v)
    | none =>
      match g.constF64 v with
      | some f => g.pushOp (.pushF64 f) (.reads v)
      | none =>
        match g.constStr v with
        | some s =>
          let (ix, g) := g.intern s
          g.pushOp (.pushStr ix) (.reads v)
        | none => g.pushOp (.pushI64 0) (.reads v)

def local32 (g : Gen) (v : Ir.Value) : UInt32 := UInt32.ofNat ((g.valLocal v).getD 0)

/-- Run one step of the template of an instruction with the given result. -/
def emit (result : Ir.Value) (g : Gen) : Piece → Gen
  | .bind => g.ensureLocalFor result
  | .value v => g.pushValue v
  | .op o => g.pushOp o .none
  | .run o taken left => g.push o none none .none (taken, left)
  | .set => g.pushOp (.localSet (g.local32 result)) (.sets result)
  | .get => g.pushOp (.localGet (g.local32 result)) .none
  | .newTemp => { g with temp := g.nextLocal, nextLocal := g.nextLocal + 1 }
  | .setTemp => g.pushOp (.localSet (UInt32.ofNat g.temp)) .none
  | .getTemp => g.pushOp (.localGet (UInt32.ofNat g.temp)) .none
  | .intern s => (g.intern s).2
  | .text s => let (ix, g) := g.intern s; g.pushOp (.pushStr ix) .none
  | .textIx s => let (ix, g) := g.intern s; g.pushOp (.pushI64 (Int64.ofNat ix.toNat)) .none
  | .withText o s => let (ix, g) := g.intern s; g.pushOp (o.op ix) .none
  | .native s argc8 floatMask retKind argc =>
    let (ix, g) := g.intern s
    g.push (.externCall ix argc8 floatMask retKind) none none .none (argc, 1)
  | .call name argc results =>
    g.push (.call 0) (some (.call name)) (some (.func name)) .none (argc, results)
  | .rcDecWithDeinit name =>
    g.push (.rcDecWithDeinit 0) (some (.call name)) (some (.func name)) .none (1, 1)
  | .closureNew func n =>
    g.push (.closureNew 0 (UInt32.ofNat n)) (some (.closure func)) (some (.func func)) .none
      (0, 1)
  | .handler b => g.push (.setUnwindHandler 0) (some (.block b)) (some (.block b)) .none (0, 0)
  | .skipBy n =>
    g.push (.jumpIfFalse (UInt32.ofNat n)) none (some (.offset (g.pos + n))) .none (1, 0)
  | .skipTo n =>
    g.push (.jumpIfFalse (UInt32.ofNat (g.pos + n + 1))) none
      (some (.offset (g.pos + n + 1))) .none (1, 0)
  | .jump b => g.push (.jump 0) (some (.block b)) (some (.block b)) (.edge b) (0, 0)
  | .phi dst =>
    match g.valLocal dst with
    | some ix => g.pushOp (.localSet (UInt32.ofNat ix)) (.phi dst)
    | none => g

def emitAll (result : Ir.Value) (g : Gen) (ps : List Piece) : Gen :=
  ps.foldl (emit result) g

end Gen

end Arth.Codegen
