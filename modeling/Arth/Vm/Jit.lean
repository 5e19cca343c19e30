import Arth.Vm.Machine
import Mathlib

/-!
# The native compiler

`jit.rs`: the instructions of a function up to its first return are translated to one block
of native code, which `Op::Call` runs instead of interpreting the function.

* `compile` — `compile_function_at_tier`; both tiers translate the same block, which is
  built instruction by instruction over a simulated stack of value numbers.
* `runNative` — the native code: wrapping arithmetic, shifts modulo 64, and a trap of the
  process where `sdiv` and `srem` have no result.
* `jitArgCount` — how many arguments `Op::Call` passes; `interpretCall` — the call without
  the compiler.
-/

namespace Arth.Jit

inductive JitError where
  | functionNotFound (offset : UInt32)
  | unsupportedOpcode (op : Op)
  | codegen (msg : String)
  /-- The block has no terminator. -/
  | unterminated

def stackUnderflow : JitError := .codegen "Stack underflow"

def undefinedLocal (ix : UInt32) : JitError := .codegen s!"Undefined local {ix}"

def isRet : Op → Bool
  | .ret => true
  | _ => false

/-- The code up to and with the first return. -/
def functionOps : List Op → List Op
  | [] => []
  | op :: ops => if isRet op then [op] else op :: functionOps ops

/-- The local an instruction reads or writes. -/
def localOf : Op → Option UInt32
  | .localGet ix => some ix
  | .localSet ix => some ix
  | _ => none

def countLocal (n : UInt32) (op : Op) : UInt32 :=
  match localOf op with
  | some ix => max n (ix + 1)
  | none => n

def extractFunctionOps (p : Program) (offset : UInt32) : Except JitError (List Op × UInt32) :=
  match functionOps (p.code.drop offset.toNat) with
  | [] => .error (.functionNotFound offset)
  | ops => .ok (ops, ops.foldl countLocal 0)

/-! ## Native code -/

inductive IntCC where
  | signedLessThan | equal
  deriving DecidableEq

inductive BinOp where
  | iadd | isub | imul | sdiv | srem | ishl | sshr | band | bor | bxor
  deriving DecidableEq

/-- The instructions of the block. The value of an instruction is numbered after those of
the block's parameters and of the instructions before it. -/
inductive Ins where
  | iconst (n : Int64)
  | binary (o : BinOp) (a b : Nat)
  | icmp (cc : IntCC) (a b : Nat)
  | uextend (a : Nat)
  | useVar (var : UInt32)
  | defVar (var : UInt32) (a : Nat)
  | return_ (a : Nat)
  deriving DecidableEq

structure NativeFunction where
  params : UInt32
  body : List Ins
  deriving DecidableEq

inductive NativeResult where
  | value (n : Int64)
  | trap
  deriving DecidableEq

def BinOp.eval : BinOp → Int64 → Int64 → Option Int64
  | .iadd, a, b => some (a + b)
  | .isub, a, b => some (a - b)
  | .imul, a, b => some (a * b)
  | .sdiv, a, b => if b = 0 ∨ (a = Int64.minValue ∧ b = -1) then none else some (a / b)
  | .srem, a, b => if b = 0 then none else some (a % b)
  | .ishl, a, b => some (a <<< b)
  | .sshr, a, b => some (a >>> b)
  | .band, a, b => some (a &&& b)
  | .bor, a, b => some (a ||| b)
  | .bxor, a, b => some (a ^^^ b)

def IntCC.holds : IntCC → Int64 → Int64 → Bool
  | .signedLessThan, a, b => a < b
  | .equal, a, b => a = b

/-- `icmp` and `uextend` give 1 and 0. -/
def ofBool (b : Bool) : Int64 := if b then 1 else 0

/-- The block from one instruction on, with the values computed so far. -/
def runIns : List Ins → List Int64 → (UInt32 → Int64) → NativeResult
  | [], _, _ => .trap
  | .iconst n :: is, vals, vars => runIns is (vals ++ [n]) vars
  | .binary o a b :: is, vals, vars =>
    match o.eval (vals.getD a 0) (vals.getD b 0) with
    | some n => runIns is (vals ++ [n]) vars
    | none => .trap
  | .icmp cc a b :: is, vals, vars =>
    runIns is (vals ++ [ofBool (cc.holds (vals.getD a 0) (vals.getD b 0))]) vars
  | .uextend a :: is, vals, vars => runIns is (vals ++ [vals.getD a 0]) vars
  | .useVar ix :: is, vals, vars => runIns is (vals ++ [vars ix]) vars
  | .defVar ix a :: is, vals, vars => runIns is vals (Function.update vars ix (vals.getD a 0))
  | .return_ a :: _, vals, _ => .value (vals.getD a 0)

/-- The variable a local starts with: the parameter of its number. -/
def paramVars (args : List Int64) : UInt32 → Int64 := fun ix => args.getD ix.toNat 0

def runNative (f : NativeFunction) (args : List Int64) : NativeResult :=
  runIns f.body args (paramVars args)

/-! ## Translation -/

structure Builder where
  next : Nat
  stack : List Nat
  locals : List UInt32

/-- Push the value the next instruction gives. -/
def Builder.result (b : Builder) (st : List Nat) : Builder :=
  { b with next := b.next + 1, stack := b.next :: st }

def translateBinary (b : Builder) (o : BinOp) : Except JitError (List Ins × Builder) :=
  match b.stack with
  | y :: x :: st => .ok ([.binary o x y], b.result st)
  | _ => .error stackUnderflow

def translateCompare (b : Builder) (cc : IntCC) : Except JitError (List Ins × Builder) :=
  match b.stack with
  | y :: x :: st => .ok ([.icmp cc x y, .uextend b.next], { b with next := b.next + 1 }.result st)
  | _ => .error stackUnderflow

/-- One instruction of `translate_ops`; a return on an empty stack returns 0. -/
def translateOp (b : Builder) : Op → Except JitError (List Ins × Builder)
  | .pushI64 n => .ok ([.iconst n], b.result b.stack)
  | .pushBool v => .ok ([.iconst v.toUInt64.toInt64], b.result b.stack)
  | .addI64 => translateBinary b .iadd
  | .subI64 => translateBinary b .isub
  | .mulI64 => translateBinary b .imul
  | .divI64 => translateBinary b .sdiv
  | .modI64 => translateBinary b .srem
  | .shlI64 => translateBinary b .ishl
  | .shrI64 => translateBinary b .sshr
  | .andI64 => translateBinary b .band
  | .orI64 => translateBinary b .bor
  | .xorI64 => translateBinary b .bxor
  | .ltI64 => translateCompare b .signedLessThan
  | .eqI64 => translateCompare b .equal
  | .localGet ix =>
    if ix ∈ b.locals then .ok ([.useVar ix], b.result b.stack) else .error (undefinedLocal ix)
  | .localSet ix =>
    match b.stack with
    | v :: st => .ok ([.defVar ix v], { b with stack := st, locals := ix :: b.locals })
    | [] => .error stackUnderflow
  | .pop => .ok ([], { b with stack := b.stack.tail })
  | .ret =>
    match b.stack with
    | v :: st => .ok ([.return_ v], { b with stack := st })
    | [] => .ok ([.iconst 0, .return_ b.next], { b with next := b.next + 1 })
  | op => .error (.unsupportedOpcode op)

/-- The instructions of the block, which a return terminates; it is the last instruction of
the function. -/
def translateOps (b : Builder) : List Op → Except JitError (List Ins)
  | [] => .error .unterminated
  | op :: ops => do
    let (is, b') ← translateOp b op
    if isRet op then .ok is
    else
      let rest ← translateOps b' ops
      .ok (is ++ rest)

/-- The leading stores that pop the arguments into the locals, the last one first; `m` is
the number of locals still expected. -/
def skipCount : List Op → Nat → Nat
  | .localSet ix :: ops, m + 1 => if ix.toNat = m then skipCount ops m + 1 else 0
  | _, _ => 0

def prologueLength (ops : List Op) (paramCount : UInt32) : Nat :=
  skipCount ops (paramCount.toNat - 1 + 1)

/-- The block starts with its parameters as values and as the first locals. -/
def entryBlock (paramCount : UInt32) : Builder :=
  ⟨paramCount.toNat, [], (List.range paramCount.toNat).map UInt32.ofNat⟩

/-- `compile_function_at_tier`, the same at both tiers. -/
def compile (p : Program) (offset : UInt32) : Except JitError NativeFunction := do
  let (ops, paramCount) ← extractFunctionOps p offset
  let body ← translateOps (entryBlock paramCount) (ops.drop (prologueLength ops paramCount))
  .ok ⟨paramCount, body⟩

/-- `get_func_param_count`, the number of arguments `Op::Call` takes from the stack. The
scan is that of `scan_function_local_count`. -/
def jitArgCount (p : Program) (offset : UInt32) : Nat := scanFunctionLocalCount p offset

/-- `call_native`: the number of arguments is compared with the number registered for the
function, which is that of the first call, and not with the parameters of the code. -/
def callNative (f : NativeFunction) (args : List Int64) : Except JitError NativeResult :=
  if args.length ≤ 8 then .ok (runNative f args)
  else .error (.codegen s!"Too many arguments: {args.length} (max 8)")

variable {W : Type}

/-- Interpret until the return stack is down to `depth`. -/
def runUntilReturn (env : Env W) (depth : Nat) : Nat → State W → Outcome W
  | 0, _ => .hang
  | fuel + 1, s =>
    match env.program.code[s.ip]? with
    | none => .stop (finish env s)
    | some op =>
      match exec env op s with
      | .next s' => if s'.retStack.length = depth then .next s' else runUntilReturn env depth fuel s'
      | o => o

/-- `Op::Call` in the interpreter, up to the return of the function. The functions that
compile have no jump, so a turn for each instruction is enough. -/
def interpretCall (env : Env W) (offset : UInt32) (s : State W) : Outcome W :=
  match callOp env offset s with
  | .next s' => runUntilReturn env s.retStack.length (env.program.code.length + 1) s'
  | o => o

end Arth.Jit
