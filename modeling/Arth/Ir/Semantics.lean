import Arth.Vm.Machine
import Arth.Codegen.Compile
import Mathlib

/-!
# What a function of the intermediate representation does

* `State.turn`: one block of a function, from the assignment of its phis on the edge it is
  entered by to its terminator.
* Integer arithmetic is the interpreter's (`evalOp_binary`). What it computes from other
  operands, what the instructions that only look at memory read, and what the others do to
  the world are the parameter `Vm`.
* `trace` records every call, store and other effect, with the values of its operands.
-/

namespace Arth.Ir

/-- The values an instruction reads. -/
def InstKind.uses : InstKind → List Value
  | .copy v | .getTypeName v => [v]
  | .binary _ a b | .cmp _ a b | .strEq a b | .strConcat a b => [a, b]
  | .load p => [p]
  | .store p v => [p, v]
  | .structFieldGet ptr _ _ _ | .enumGetTag ptr _ | .enumSetTag ptr _ _
  | .enumGetPayload ptr _ _ => [ptr]
  | .structFieldSet ptr _ _ _ v | .enumSetPayload ptr _ _ v => [ptr, v]
  | .call _ args _ | .externCall _ args _ _ => args
  | .makeClosure _ captures => captures
  | .closureCall closure args _ => closure :: args
  | .phi ops => ops.map (·.2)
  | .drop v _ | .fieldDrop v _ _ => [v]
  | .condDrop v flag _ => [v, flag]
  | .rcAlloc v => [v]
  | .rcInc h | .rcDec h _ | .rcLoad h | .rcGetCount h => [h]
  | .rcStore h v => [h, v]
  | .regionExit _ deinitCalls => deinitCalls.map (·.1)
  | .asyncFrameFree p | .asyncFrameGetState p | .asyncFrameSetState p _
  | .asyncFrameLoad p _ _ => [p]
  | .asyncFrameStore p _ v => [p, v]
  | .asyncCheckCancelled task | .asyncYield task | .awaitPoint task _ => [task]
  | .providerNew _ values => values.map (·.2)
  | .providerFieldGet obj _ _ => [obj]
  | .providerFieldSet obj _ _ v => [obj, v]
  | .constI64 _ | .constF64 _ | .constStr _ | .alloca | .structAlloc _ | .enumAlloc _
  | .landingPad _ _ | .setUnwindHandler _ | .clearUnwindHandler | .regionEnter _
  | .asyncFrameAlloc _ _ => []

def InstKind.isPhi : InstKind → Bool
  | .phi _ => true
  | _ => false

def Terminator.uses : Terminator → List Value
  | .ret v | .throw v | .panic v | .pollReturn _ v => v.toList
  | .condBr cond _ _ => [cond]
  | .switch scrut _ _ => [scrut]
  | .invoke _ args _ _ _ _ => args
  | .br _ | .unreachable => []

/-- What stops the interpreter: the exit code, and the panic message if it leaves one. -/
structure Trap where
  code : Int
  message : Option String
  deriving DecidableEq

/-- What an instruction with an effect does: it gives a value, stops the run, or raises an
exception or a panic, which the world holds. -/
inductive Answer (W : Type) where
  | done (w : W) (v : Arth.Value)
  | trap (w : W) (t : Trap)
  | raise (w : W)

/-- The interpreter beyond integer arithmetic and control flow. What only looks at memory
cannot change the world. -/
structure Vm (W : Type) where
  constStr : Nat → Arth.Value
  arith : BinOp → Arth.Value → Arth.Value → Except Trap Arth.Value
  compare : CmpPred → Arth.Value → Arth.Value → Except Trap Bool
  concat : Arth.Value → Arth.Value → Except Trap Arth.Value
  look : Inst → List Arth.Value → W → Except Trap Arth.Value
  act : Inst → List Arth.Value → W → Answer W
  invoke : String → List Arth.Value → W → Answer W
  throw : Option Arth.Value → W → W
  panic : Option Arth.Value → W → W

variable {W : Type} (vm : Vm W)

/-- 64-bit arithmetic: it wraps around, and a zero divisor panics. -/
def i64Binary : BinOp → Int64 → Int64 → Except Trap Arth.Value
  | .add, a, b => .ok (.i64 (a + b))
  | .sub, a, b => .ok (.i64 (a - b))
  | .mul, a, b => .ok (.i64 (a * b))
  | .div, a, b => if b = 0 then .error ⟨2, some "division by zero"⟩ else .ok (.i64 (a / b))
  | .mod, a, b => if b = 0 then .error ⟨2, some "modulo by zero"⟩ else .ok (.i64 (a % b))
  | .shl, a, b => .ok (.i64 (a <<< b))
  | .shr, a, b => .ok (.i64 (a >>> b))
  | .and, a, b => .ok (.i64 (a &&& b))
  | .or, a, b => .ok (.i64 (a ||| b))
  | .xor, a, b => .ok (.i64 (a ^^^ b))

def Effect.ofExcept (w : W) : Except Trap Arth.Value → Effect W
  | .ok v => .done w [v]
  | .error t => .fail t.code

def i64Cmp : CmpPred → Int64 → Int64 → Bool
  | .eq, a, b => a = b
  | .ne, a, b => a ≠ b
  | .lt, a, b => a < b
  | .le, a, b => a ≤ b
  | .gt, a, b => b < a
  | .ge, a, b => b ≤ a

def Vm.binary (op : BinOp) : Arth.Value → Arth.Value → Except Trap Arth.Value
  | .i64 a, .i64 b => i64Binary op a b
  | a, b => vm.arith op a b

def Vm.cmp (pred : CmpPred) : Arth.Value → Arth.Value → Except Trap Bool
  | .i64 a, .i64 b => .ok (i64Cmp pred a b)
  | a, b => vm.compare pred a b

/-- `EqStr`: what is not two strings is unequal. -/
def strEq : Arth.Value → Arth.Value → Bool
  | .str a, .str b => a = b
  | _, _ => false

def Vm.concatStr : Arth.Value → Arth.Value → Except Trap Arth.Value
  | .str a, .str b => .ok (.str (a ++ b))
  | a, b => vm.concat a b

/-- `JumpIfFalse` takes a boolean only. -/
def truth : Arth.Value → Except Trap Bool
  | .bool b => .ok b
  | _ => .error ⟨1, none⟩

abbrev Regs := Value → Arth.Value

/-- The instructions that change nothing but the register of their result, and what they
leave there. The loads, the type name and the reads of a reference-counted cell are one
look at the memory; for the native structures, the enumerations and the async frames the
code generator emits no operation at all. -/
def Vm.compute (inst : Inst) (regs : Regs) (w : W) : Option (Except Trap Arth.Value) :=
  match inst.kind with
  | .constI64 n => some (.ok (.i64 n))
  | .constF64 x => some (.ok (.f64 x))
  | .constStr ix => some (.ok (vm.constStr ix))
  | .copy v => some (.ok (regs v))
  | .binary op a b => some (vm.binary op (regs a) (regs b))
  | .cmp pred a b => some ((vm.cmp pred (regs a) (regs b)).map .bool)
  | .strEq a b => some (.ok (.bool (strEq (regs a) (regs b))))
  | .strConcat a b => some (vm.concatStr (regs a) (regs b))
  | .alloca | .load _ | .structFieldGet .. | .enumGetTag .. | .enumGetPayload ..
  | .rcLoad _ | .rcGetCount _ | .getTypeName _ | .asyncFrameGetState _ | .asyncFrameLoad ..
  | .asyncCheckCancelled _ => some (vm.look inst (inst.kind.uses.map regs) w)
  | _ => none

/-- What a run can be seen to do. -/
inductive Event where
  | act (kind : InstKind) (args : List Arth.Value)
  | leave (term : Terminator) (args : List Arth.Value)

structure State (W : Type) where
  block : Block
  regs : Regs
  handlers : List Block
  world : W
  trace : List Event

/-- How a run ends. -/
inductive Exit where
  | returned (v : Option Arth.Value)
  | polled (r : PollResult) (v : Option Arth.Value)
  | trapped (t : Trap)
  | raised
  | unreachable
  deriving DecidableEq

/-- The end of a run: how, with which world, after which effects. -/
structure Final (W : Type) where
  exit : Exit
  world : W
  trace : List Event

def State.set (s : State W) (v : Value) (x : Arth.Value) : State W :=
  { s with regs := Function.update s.regs v x }

def State.final (s : State W) (e : Exit) : Final W := ⟨e, s.world, s.trace⟩

/-- Where one instruction leads. -/
inductive Flow (W : Type) where
  | next (s : State W)
  | raise (s : State W)
  | stop (r : Final W)

/-- An effect: it is recorded with its operands. -/
def State.answer (s : State W) (e : Event) (v : Option Value) : Answer W → Flow W
  | .done w x =>
    .next { s with
      world := w
      trace := e :: s.trace
      regs := v.elim s.regs fun v => Function.update s.regs v x }
  | .trap w t => .stop ⟨.trapped t, w, e :: s.trace⟩
  | .raise w => .raise { s with world := w, trace := e :: s.trace }

def Vm.exec (s : State W) (inst : Inst) : Flow W :=
  match inst.kind with
  -- assigned on the edge into the block
  | .phi _ => .next s
  | .setUnwindHandler target => .next { s with handlers := target :: s.handlers }
  | .clearUnwindHandler => .next { s with handlers := s.handlers.tail }
  | kind =>
    match vm.compute inst s.regs s.world with
    | some (.ok x) => .next (s.set inst.result x)
    | some (.error t) => .stop (s.final (.trapped t))
    | none =>
      s.answer (.act kind (kind.uses.map s.regs)) (some inst.result)
        (vm.act inst (kind.uses.map s.regs) s.world)

/-! ### One instruction -/

variable {vm} {s s' : State W} {inst : Inst}

theorem exec_regs (h : vm.exec s inst = .next s') {v : Ir.Value} (hv : v ≠ inst.result) :
    s'.regs v = s.regs v := by
  unfold Vm.exec at h
  split at h
  · cases h; rfl
  · cases h; rfl
  · cases h; rfl
  · split at h
    · cases h
      exact Function.update_of_ne hv _ _
    · cases h
    · unfold State.answer at h
      split at h
      · cases h
        exact Function.update_of_ne hv _ _
      · cases h
      · cases h

theorem exec_constI64 (r : Ir.Value) (n : Int64) :
    vm.exec s ⟨r, .constI64 n⟩ = .next (s.set r (.i64 n)) := rfl

theorem exec_compute {x : Arth.Value} (hc : vm.compute inst s.regs s.world = some (.ok x)) :
    vm.exec s inst = .next (s.set inst.result x) := by
  unfold Vm.exec
  split
  · rename_i hk
    rw [Vm.compute, hk] at hc
    cases hc
  · rename_i hk
    rw [Vm.compute, hk] at hc
    cases hc
  · rename_i hk
    rw [Vm.compute, hk] at hc
    cases hc
  · rw [hc]

variable (vm)

def Vm.execs : State W → List Inst → Flow W
  | s, [] => .next s
  | s, inst :: insts =>
    match vm.exec s inst with
    | .next s' => Vm.execs s' insts
    | other => other

variable {vm} in
theorem execs_next (h : vm.exec s inst = .next s') (insts : List Inst) :
    vm.execs s (inst :: insts) = vm.execs s' insts := by
  rw [Vm.execs, h]

/-- The operand of a phi for the edge from `src`. -/
def phiOperand (src : Block) : InstKind → Option Value
  | .phi ops => (ops.find? fun o => o.1 == src).map (·.2)
  | _ => none

/-- The phis of a block on the edge from `src`: all of them read the registers as they were
before it. -/
def assignPhis (src : Block) (old : Regs) : List Inst → Regs → Regs
  | [], regs => regs
  | inst :: insts, regs =>
    assignPhis src old insts <|
      (phiOperand src inst.kind).elim regs fun v => Function.update regs inst.result (old v)

theorem phiOperand_uses {src : Block} {kind : InstKind} {v : Value}
    (h : phiOperand src kind = some v) : v ∈ kind.uses := by
  cases kind with
  | phi ops =>
    obtain ⟨o, ho, rfl⟩ := Option.map_eq_some_iff.1 h
    exact List.mem_map_of_mem (List.mem_of_find?_eq_some ho)
  | _ => cases h

def Func.insts (f : Func) (b : Block) : List Inst := ((f.blocks[b]?).map (·.insts)).getD []

/-- Take the edge to `dst`. -/
def State.goto (f : Func) (s : State W) (dst : Block) : State W :=
  { s with block := dst, regs := assignPhis s.block s.regs (f.insts dst) s.regs }

/-- Raise: the innermost handler of the function goes on, else the run ends. -/
def State.unwind (f : Func) (s : State W) : State W ⊕ Final W :=
  match s.handlers with
  | h :: hs => .inl ({ s with handlers := hs }.goto f h)
  | [] => .inr (s.final .raised)

def switchTarget (x : Arth.Value) (default : Block) :
    List (Int64 × Block) → Except Trap Block
  | [] => .ok default
  | (n, b) :: cases => do
    if ← vm.cmp .eq x (.i64 n) then .ok b else switchTarget x default cases

def State.branch (f : Func) (s : State W) : Except Trap Block → State W ⊕ Final W
  | .ok b => .inl (s.goto f b)
  | .error t => .inr (s.final (.trapped t))

def Vm.leave (f : Func) (s : State W) (term : Terminator) : State W ⊕ Final W :=
  let event := Event.leave term (term.uses.map s.regs)
  match term with
  | .ret v => .inr (s.final (.returned (v.map s.regs)))
  | .pollReturn r v => .inr (s.final (.polled r (v.map s.regs)))
  | .br b => .inl (s.goto f b)
  | .condBr cond thenBb elseBb =>
    s.branch f ((truth (s.regs cond)).map fun c => if c then thenBb else elseBb)
  | .switch scrut default cases => s.branch f (switchTarget vm (s.regs scrut) default cases)
  | .unreachable => .inr (s.final .unreachable)
  | .throw exc =>
    State.unwind f { s with
      world := vm.throw (exc.map s.regs) s.world
      trace := event :: s.trace }
  | .panic msg =>
    State.unwind f { s with
      world := vm.panic (msg.map s.regs) s.world
      trace := event :: s.trace }
  | .invoke callee args _ result normal _ =>
    match s.answer event result (vm.invoke callee (args.map s.regs) s.world) with
    | .next s' => .inl (s'.goto f normal)
    -- the interpreter has no unwind edge: the registered handlers decide
    | .raise s' => s'.unwind f
    | .stop r => .inr r

/-- One block: its instructions, then its terminator. -/
def Vm.turn (f : Func) (s : State W) : State W ⊕ Final W :=
  match f.blocks[s.block]? with
  | none => .inr (s.final .unreachable)
  | some b =>
    match vm.execs s b.insts with
    | .next s' => vm.leave f s' b.term
    | .raise s' => s'.unwind f
    | .stop r => .inr r

/-- A call of the function. -/
def State.initial (args : List Arth.Value) (w : W) : State W :=
  ⟨0, fun v => args.getD v (.i64 0), [], w, []⟩

end Arth.Ir
