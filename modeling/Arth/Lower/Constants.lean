import Arth.Lower.Conditions
import Arth.Typeck.ConstEval
import Arth.Vm.Machine

/-!
# Constant expressions at compile time and at run time

`eval_const_expr` beside the code `lower_expr` emits for the same expression and what the
interpreter's instructions do in it.

* `lowerAs`, `Code.exec` — the code, with ids for its values, and its run.
* `runAs`, `computes` — what the code computes, without ids and slots.
* `evalOp_opOf` — the operations on integers are those of the interpreter.
* `kindsAs` — the kinds of value the code can leave, where no part is one it evaluates otherwise.
* `agrees_of_plain` — such an expression evaluates alike in both.
-/

namespace Arth.Constants

open List Option Function

open Ir (BinOp CmpPred)
open Lower (HirType HirBinOp HirUnOp)
open ConstEval (ConstValue ConstEvalError FloatOps HirExpr evalConstExpr)
open Conditions (compare)

/-- The expressions over integers, booleans, characters and strings. -/
inductive ConstExpr where
  | int (value : Int64)
  | bool (value : Bool)
  | char (value : Char)
  | str (value : String)
  | cast (ty : HirType) (expr : ConstExpr)
  | binary (left : ConstExpr) (op : HirBinOp) (right : ConstExpr)
  | unary (op : HirUnOp) (expr : ConstExpr)
  | conditional (cond thenExpr elseExpr : ConstExpr)

def ConstExpr.toHir {F : Type} : ConstExpr → HirExpr F
  | .int value => .int value
  | .bool value => .bool value
  | .char value => .char value
  | .str value => .str value
  | .cast ty expr => .cast ty expr.toHir
  | .binary left op right => .binary left.toHir op right.toHir
  | .unary op expr => .unary op expr.toHir
  | .conditional cond thenExpr elseExpr =>
    .conditional cond.toHir thenExpr.toHir elseExpr.toHir

/-- The runtime helpers that casts are lowered to. -/
inductive Cast where
  | i8 | i16 | i32 | i64 | u8 | u16 | u32 | u64 | f32 | f64 | bool | char
  deriving DecidableEq

/-- The helper for the name of a type. -/
def castOf (name : String) : Cast :=
  match name.toLower with
  | "i8" | "int8" => .i8
  | "i16" | "int16" | "short" => .i16
  | "i32" | "int32" | "int" => .i32
  | "i64" | "int64" | "long" => .i64
  | "u8" | "uint8" => .u8
  | "u16" | "uint16" => .u16
  | "u32" | "uint32" => .u32
  | "u64" | "uint64" => .u64
  | "f32" | "float32" => .f32
  | "f64" | "float64" | "double" | "float" => .f64
  | "bool" | "boolean" => .bool
  | "char" => .char
  | _ => .i64

/-- How a run fails: with an error, or with a panic. -/
inductive Fault where
  | failed
  | panicked
  deriving DecidableEq

abbrev Run := Except Fault Value

/-- What the instructions make of operands that are floats, or that the operation is not meant
for: sums of mixed operands, the text of a number, the number of a text or a handle, and the casts
left open here. -/
structure Coercions where
  arith : BinOp → Value → Value → Run
  text : Value → String
  toI64 : Value → Int64
  cast : Cast → Value → Value

variable (co : Coercions)

/-- `Op::AddI64` to `Op::XorI64`. -/
def binaryOp : BinOp → Value → Value → Run
  | .add, .i64 a, .i64 b => .ok (.i64 (a + b))
  | .add, .str a, .str b => .ok (.str (a ++ b))
  | .sub, .i64 a, .i64 b => .ok (.i64 (a - b))
  | .mul, .i64 a, .i64 b => .ok (.i64 (a * b))
  | .div, .i64 a, .i64 b => if b = 0 then .error .panicked else .ok (.i64 (a / b))
  | .mod, .i64 a, .i64 b => if b = 0 then .error .panicked else .ok (.i64 (a % b))
  | .shl, .i64 a, .i64 b => .ok (.i64 (a <<< b))
  | .shr, .i64 a, .i64 b => .ok (.i64 (a >>> b))
  | .and, .i64 a, .i64 b => .ok (.i64 (a &&& b))
  | .or, .i64 a, .i64 b => .ok (.i64 (a ||| b))
  | .xor, .i64 a, .i64 b => .ok (.i64 (a ^^^ b))
  | .shl, _, _ | .shr, _, _ | .and, _, _ | .or, _, _ | .xor, _, _ => .error .failed
  | op, a, b => co.arith op a b

/-- The instruction of an operation. -/
def opOf : BinOp → Op
  | .add => .addI64
  | .sub => .subI64
  | .mul => .mulI64
  | .div => .divI64
  | .mod => .modI64
  | .shl => .shlI64
  | .shr => .shrI64
  | .and => .andI64
  | .or => .orI64
  | .xor => .xorI64

def cmpOp (pred : CmpPred) (a b : Value) : Run :=
  match compare pred a b with
  | some r => .ok (.bool r)
  | none => .error .failed

/-- `Op::ConcatStr`. -/
def concatStr (a b : Value) : Value :=
  match a, b with
  | .str a, .str b => .str (a ++ b)
  | a, b => .str (co.text a ++ co.text b)

/-- `Op::ToI32`, `Op::ToI64OrEnumTag`, `Op::ToBool` and `Op::ToChar`. -/
def castOp : Cast → Value → Value
  | .i32, .i64 n => .i64 n.toInt32.toInt64
  | .i32, .bool b => .i64 (if b then 1 else 0)
  | .i32, v => .i64 (co.toI64 v).toInt32.toInt64
  | .i64, .bool b => .i64 (if b then 1 else 0)
  | .i64, v => .i64 (co.toI64 v)
  | .bool, .bool b => .bool b
  | .bool, .i64 n => .bool (n ≠ 0)
  | .bool, .str s => .bool (s ≠ "")
  | .char, .i64 n => .str ((ConstEval.charOfI64 n).getD '\x00').toString
  | .char, .bool b => .str (if b then "1" else "0")
  | .char, .str s => .str (s.toList.headD '\x00').toString
  | cast, v => co.cast cast v

/-- One instruction; a value is named by its id. A string constant is its text, which the table
of strings gives back. -/
inductive InstKind where
  | constI64 (n : Int64)
  | constStr (s : String)
  | alloca
  | load (slot : Nat)
  | store (slot v : Nat)
  | binary (op : BinOp) (a b : Nat)
  | cmp (pred : CmpPred) (a b : Nat)
  | strConcat (a b : Nat)
  | call (helper : Cast) (a : Nat)

/-- Straight-line code, and branches whose two sides go on at one block. -/
inductive Code where
  | done
  | emit (result : Nat) (kind : InstKind) (rest : Code)
  | condBr (cond : Nat) (thenB elseB join : Code)

/-- The code of an expression in front of what follows, the id of its value, and the next free
id. -/
structure Lowered where
  code : Code → Code
  value : Nat
  next : Nat

namespace Lowered

def const (kind : InstKind) (n : Nat) : Lowered := ⟨.emit n kind, n, n + 1⟩

def op1 (kind : Nat → InstKind) (c : Lowered) : Lowered :=
  ⟨fun k => c.code (.emit c.next (kind c.value) k), c.next, c.next + 1⟩

def op2 (kind : Nat → Nat → InstKind) (l r : Lowered) : Lowered :=
  ⟨fun k => l.code (r.code (.emit r.next (kind l.value r.value) k)), r.next, r.next + 1⟩

/-- A comparison with zero. -/
def cmpZero (pred : CmpPred) (c : Lowered) : Lowered :=
  c.op2 (.cmp pred) (const (.constI64 0) c.next)

/-- A comparison of two numbers, for the truth of it. -/
def cmpConst (x y : Int64) (n : Nat) : Lowered :=
  (const (.constI64 x) n).op2 (.cmp .eq) (const (.constI64 y) (n + 1))

/-- A branch on `c`, each side of which stores its value in a slot. -/
def branch (n : Nat) (c t e : Lowered) : Lowered :=
  ⟨fun k => .emit n .alloca (c.code (.condBr c.value
    (t.code (.emit t.next (.store n t.value) .done))
    (e.code (.emit e.next (.store n e.value) .done))
    (.emit (e.next + 1) (.load n) k))), e.next + 1, e.next + 2⟩

end Lowered

/-- `is_string_expr`. -/
def isStringExpr : ConstExpr → Bool
  | .str _ => true
  | .binary left .add _ => isStringExpr left
  | _ => false

/-- The instruction of an operator, `&&` and `||` among them. -/
def binaryKind (isString : Bool) : HirBinOp → Nat → Nat → InstKind
  | .add => if isString then .strConcat else .binary .add
  | .sub => .binary .sub
  | .mul => .binary .mul
  | .div => .binary .div
  | .mod => .binary .mod
  | .shl => .binary .shl
  | .shr => .binary .shr
  | .lt => .cmp .lt
  | .le => .cmp .le
  | .gt => .cmp .gt
  | .ge => .cmp .ge
  | .eq => .cmp .eq
  | .ne => .cmp .ne
  | .and | .bitAnd => .binary .and
  | .or | .bitOr => .binary .or
  | .xor => .binary .xor

/-- A value, or its comparison with zero if it is to be a condition. -/
def orNonZero (asCond : Bool) (c : Lowered) : Lowered :=
  if asCond then c.cmpZero .ne else c

/-- `lower_expr` and `lower_cond`, which call each other on the same expression, as one
recursion; the next free id is `n`. -/
def lowerAs (asCond : Bool) : ConstExpr → Nat → Lowered
  | .int value, n => orNonZero asCond (.const (.constI64 value) n)
  | .str value, n => orNonZero asCond (.const (.constStr value) n)
  | .char value, n => orNonZero asCond (.const (.constStr value.toString) n)
  | .bool value, n => .const (.constI64 (if value then 1 else 0)) n
  | .cast ty expr, n =>
    orNonZero asCond ((lowerAs false expr n).op1 (.call (castOf (ConstEval.targetName ty))))
  | .conditional cond thenExpr elseExpr, n =>
    let c := lowerAs true cond (n + 1)
    let t := lowerAs false thenExpr c.next
    orNonZero asCond (.branch n c t (lowerAs false elseExpr (t.next + 1)))
  | .binary left op right, n =>
    match asCond, op with
    | true, .and =>
      let l := lowerAs true left (n + 1)
      let r := lowerAs true right l.next
      .branch n l r (.cmpConst 0 1 (r.next + 1))
    | true, .or =>
      let l := lowerAs true left (n + 1)
      let t := Lowered.cmpConst 1 1 l.next
      .branch n l t (lowerAs true right (t.next + 1))
    | _, op =>
      let l := lowerAs false left n
      l.op2 (binaryKind (isStringExpr left || isStringExpr right) op)
        (lowerAs false right l.next)
  | .unary .neg expr, n =>
    let v := lowerAs false expr n
    v.op2 (fun a z => .binary .sub z a) (.const (.constI64 0) v.next)
  | .unary .not expr, n => (lowerAs false expr n).cmpZero .eq

/-- `lower_expr`. -/
def lowerExpr (e : ConstExpr) (n : Nat) : Lowered := lowerAs false e n

/-! ## Execution -/

structure St where
  vals : Nat → Value
  slots : Nat → Value

def InstKind.exec (s : St) : InstKind → Run
  | .constI64 n => .ok (.i64 n)
  | .constStr t => .ok (.str t)
  | .alloca => .ok (.i64 0)
  | .load slot => .ok (s.slots slot)
  | .store _ v => .ok (s.vals v)
  | .binary op a b => binaryOp co op (s.vals a) (s.vals b)
  | .cmp pred a b => cmpOp pred (s.vals a) (s.vals b)
  | .strConcat a b => .ok (concatStr co (s.vals a) (s.vals b))
  | .call helper a => .ok (castOp co helper (s.vals a))

/-- The state after an instruction that gave the value `v`. -/
def St.after (s : St) (result : Nat) (kind : InstKind) (v : Value) : St where
  vals := Function.update s.vals result v
  slots :=
    match kind with
    | .store slot _ => Function.update s.slots slot v
    | _ => s.slots

/-- The run of a piece of code. A condition has to be a boolean (`Op::JumpIfFalse`). -/
def Code.exec : Code → St → Except Fault St
  | .done, s => .ok s
  | .emit result kind rest, s =>
    (kind.exec co s).bind fun v => rest.exec (s.after result kind v)
  | .condBr cond thenB elseB join, s =>
    match s.vals cond with
    | .bool true => (thenB.exec s).bind join.exec
    | .bool false => (elseB.exec s).bind join.exec
    | _ => .error .failed

/-- The run of the code lowered from an expression, and its value. -/
def run (e : ConstExpr) : Run :=
  let lowered := lowerExpr e 0
  ((lowered.code .done).exec co ⟨fun _ => .i64 0, fun _ => .i64 0⟩).map fun s =>
    s.vals lowered.value

/-- A value, or whether it is not zero. -/
def nonZeroIf (asCond : Bool) (f : Run) : Run :=
  if asCond then f.bind fun v => cmpOp .ne v (.i64 0) else f

/-- One of two runs, by a boolean. -/
def choose (t e : Run) : Value → Run
  | .bool true => t
  | .bool false => e
  | _ => .error .failed

def binaryValue (isString : Bool) (op : HirBinOp) (a b : Value) : Run :=
  (binaryKind isString op 0 1).exec co ⟨fun i => if i = 0 then a else b, fun _ => a⟩

def runAs (asCond : Bool) : ConstExpr → Run
  | .int value => nonZeroIf asCond (.ok (.i64 value))
  | .str value => nonZeroIf asCond (.ok (.str value))
  | .char value => nonZeroIf asCond (.ok (.str value.toString))
  | .bool value => .ok (.i64 (if value then 1 else 0))
  | .cast ty expr =>
    nonZeroIf asCond ((runAs false expr).bind fun v =>
      .ok (castOp co (castOf (ConstEval.targetName ty)) v))
  | .conditional cond thenExpr elseExpr =>
    nonZeroIf asCond ((runAs true cond).bind (choose (runAs false thenExpr) (runAs false elseExpr)))
  | .binary left op right =>
    match asCond, op with
    | true, .and => (runAs true left).bind (choose (runAs true right) (.ok (.bool false)))
    | true, .or => (runAs true left).bind (choose (.ok (.bool true)) (runAs true right))
    | _, op =>
      (runAs false left).bind fun a => (runAs false right).bind fun b =>
        binaryValue co (isStringExpr left || isStringExpr right) op a b
  | .unary .neg expr => (runAs false expr).bind fun v => binaryOp co .sub (.i64 0) v
  | .unary .not expr => (runAs false expr).bind fun v => cmpOp .eq v (.i64 0)

/-! ## The code computes it -/

section Correct
variable {co : Coercions}

/-- What a state has in common with an earlier one, below the first free id. -/
def Keeps (n : Nat) (s t : St) : Prop := ∀ i < n, t.vals i = s.vals i ∧ t.slots i = s.slots i

theorem Keeps.refl (n : Nat) (s : St) : Keeps n s s := fun _ _ => ⟨rfl, rfl⟩

variable {m n : Nat} {s t : St}

theorem Keeps.trans {u : St} (h : Keeps m s t) (hn : m ≤ n) (h' : Keeps n t u) : Keeps m s u := by
  intro i hi
  have hst := h i hi
  have htu := h' i (by omega)
  exact ⟨htu.1.trans hst.1, htu.2.trans hst.2⟩

theorem Keeps.after {r : Nat} (h : Keeps n s t) (kind : InstKind) (v : Value)
    (hr : n ≤ r) (hslot : ∀ slot a, kind = .store slot a → n ≤ slot) :
    Keeps n s (t.after r kind v) := by
  intro i hi
  have hst := h i hi
  refine ⟨(update_of_ne (by omega) _ _).trans hst.1, ?_⟩
  cases kind with
  | store slot a =>
    have hle := hslot slot a rfl
    exact (update_of_ne (by omega) _ _).trans hst.2
  | _ => exact hst.2

@[simp] theorem after_vals (s : St) (r : Nat) (kind : InstKind) (v : Value) :
    (s.after r kind v).vals r = v := update_self ..

/-- A run in front of what follows gives what `f` says before it goes on, and keeps the ids of
`s` below `n`. -/
def Gives (co : Coercions) (n : Nat) (s : St) (go : Code → Except Fault St) (read : St → Value) :
    Run → Prop
  | .error x => ∀ k, go k = .error x
  | .ok v => ∃ t, Keeps n s t ∧ read t = v ∧ ∀ k, go k = k.exec co t

/-- Code for `f` that uses the ids from `n` on. -/
structure Computes (co : Coercions) (n : Nat) (c : Lowered) (f : Run) : Prop where
  ge : n ≤ c.value
  lt : c.value < c.next
  gives : ∀ s, Gives co n s (fun k => (c.code k).exec co s) (fun t => t.vals c.value) f

variable {f : Run} {go : Code → Except Fault St}

theorem Gives.mono {read : St → Value} (h : Gives co n t go read f) (hk : Keeps m s t) (hn : m ≤ n) :
    Gives co m s go read f := by
  cases f with
  | error x => exact h
  | ok v =>
    obtain ⟨u, htu, hread, hrun⟩ := h
    exact ⟨u, hk.trans hn htu, hread, hrun⟩

theorem computes_const {kind : InstKind} {v : Value} (n : Nat) (h : ∀ s, kind.exec co s = .ok v)
    (hstore : ∀ slot a, kind ≠ .store slot a) : Computes co n (.const kind n) (.ok v) := by
  refine ⟨le_rfl, Nat.lt_succ_self n, fun s => ?_⟩
  refine ⟨s.after n kind v, (Keeps.refl n s).after _ _ le_rfl fun slot a h => ?_, after_vals .., ?_⟩
  · exact absurd h (hstore slot a)
  · intro k
    simp [Lowered.const, Code.exec, h, Except.bind]

variable {c : Lowered} {l r : Lowered} {f' : Run}

theorem Computes.op1 {kind : Nat → InstKind} {g : Value → Run}
    (hc : Computes co n c f) (hg : ∀ s a, (kind a).exec co s = g (s.vals a))
    (hstore : ∀ a slot b, kind a ≠ .store slot b) : Computes co n (c.op1 kind) (f.bind g) := by
  have hge := hc.ge
  have hlt := hc.lt
  refine ⟨by simp only [Lowered.op1]; omega, by simp [Lowered.op1], fun s => ?_⟩
  have hgives := hc.gives s
  cases f with
  | error x => exact fun k => hgives _
  | ok v =>
    obtain ⟨t, hk, hv, hrun⟩ := hgives
    change Gives co n s _ _ (g v)
    cases hgv : g v with
    | error x =>
      intro k
      simp [Lowered.op1, hrun, Code.exec, hg, hv, hgv, Except.bind]
    | ok w =>
      refine ⟨t.after c.next (kind c.value) w, hk.after _ _ (by omega) fun slot b h =>
        absurd h (hstore _ _ _), after_vals .., fun k => ?_⟩
      simp [Lowered.op1, hrun, Code.exec, hg, hv, hgv, Except.bind]

theorem Computes.op2 {kind : Nat → Nat → InstKind}
    {g : Value → Value → Run} (hl : Computes co n l f) (hr : Computes co l.next r f')
    (hg : ∀ s a b, (kind a b).exec co s = g (s.vals a) (s.vals b))
    (hstore : ∀ a b slot c, kind a b ≠ .store slot c) :
    Computes co n (l.op2 kind r) (f.bind fun a => f'.bind fun b => g a b) := by
  have hlge := hl.ge
  have hllt := hl.lt
  have hrge := hr.ge
  have hrlt := hr.lt
  refine ⟨by simp only [Lowered.op2]; omega, by simp [Lowered.op2], fun s => ?_⟩
  have hleft := hl.gives s
  cases f with
  | error x => exact fun k => hleft _
  | ok a =>
    obtain ⟨t, hk, ha, hrun⟩ := hleft
    have hright := hr.gives t
    cases f' with
    | error x =>
      intro k
      simpa [Lowered.op2, hrun] using hright _
    | ok b =>
      obtain ⟨u, hk', hb, hrun'⟩ := hright
      -- the left value has an id the right operand leaves alone
      have ha' : u.vals l.value = a := (hk' l.value hllt).1.trans ha
      change Gives co n s _ _ (g a b)
      cases hgab : g a b with
      | error x =>
        intro k
        simp [Lowered.op2, hrun, hrun', Code.exec, hg, ha', hb, hgab, Except.bind]
      | ok w =>
        refine ⟨u.after r.next (kind l.value r.value) w, (hk.trans (by omega) hk').after _ _
          (by omega) fun slot b h => absurd h (hstore _ _ _ _), after_vals .., fun k => ?_⟩
        simp [Lowered.op2, hrun, hrun', Code.exec, hg, ha', hb, hgab, Except.bind]

theorem constI64_not_store (x : Int64) (slot a : Nat) : InstKind.constI64 x ≠ .store slot a := by
  simp

theorem Computes.cmp (pred : CmpPred) (hl : Computes co n l f) (hr : Computes co l.next r f') :
    Computes co n (l.op2 (.cmp pred) r) (f.bind fun a => f'.bind fun b => cmpOp pred a b) :=
  hl.op2 hr (fun _ _ _ => rfl) fun _ _ _ _ => by simp

theorem computes_constI64 (x : Int64) (n : Nat) :
    Computes co n (.const (.constI64 x) n) (.ok (.i64 x)) :=
  computes_const n (fun _ => rfl) (constI64_not_store x)

theorem Computes.cmpZero (pred : CmpPred) (hc : Computes co n c f) :
    Computes co n (c.cmpZero pred) (f.bind fun v => cmpOp pred v (.i64 0)) :=
  hc.cmp pred (computes_constI64 0 _)

theorem computes_cmpConst (x y : Int64) (n : Nat) :
    Computes co n (.cmpConst x y n) (.ok (.bool (x = y))) :=
  (computes_constI64 x n).cmp .eq (computes_constI64 y _)

theorem Computes.stored (hc : Computes co m c f) (hn : n < m)
    (s : St) : Gives co n s (fun k => (c.code (.emit c.next (.store n c.value) k)).exec co s)
      (fun t => t.slots n) f := by
  have hge := hc.ge
  have hlt := hc.lt
  have hgives := hc.gives s
  cases f with
  | error x => exact fun k => hgives _
  | ok v =>
    obtain ⟨t, hk, hv, hrun⟩ := hgives
    refine ⟨t.after c.next (.store n c.value) v, ?_, update_self .., fun k => ?_⟩
    · refine Keeps.after (fun i hi => hk i (by omega)) _ _ (by omega) fun slot a h => ?_
      obtain ⟨rfl, -⟩ := InstKind.store.inj h
      exact le_rfl
    · simp [hrun, Code.exec, InstKind.exec, hv, Except.bind]

theorem Gives.load {r : Nat} (h : Gives co n s go (fun t => t.slots n) f) (hr : n ≤ r) :
    Gives co n s (fun k => (go .done).bind ((Code.emit r (.load n) k).exec co))
      (fun t => t.vals r) f := by
  cases f with
  | error x =>
    intro k
    simp [h .done, Except.bind]
  | ok v =>
    obtain ⟨t, hk, hv, hrun⟩ := h
    refine ⟨t.after r (.load n) v, hk.after _ _ hr fun _ _ h => by simp at h, after_vals ..,
      fun k => ?_⟩
    simp [hrun .done, Code.exec, InstKind.exec, hv, Except.bind]

theorem computes_branch {t e : Lowered} {g h : Run}
    (hc : Computes co (n + 1) c f) (ht : Computes co c.next t g)
    (he : Computes co (t.next + 1) e h) :
    Computes co n (.branch n c t e) (f.bind (choose g h)) := by
  have hcge := hc.ge
  have hclt := hc.lt
  have htge := ht.ge
  have htlt := ht.lt
  have hege := he.ge
  have helt := he.lt
  refine ⟨by simp only [Lowered.branch]; omega, by simp [Lowered.branch], fun s => ?_⟩
  -- the slot is there before the condition
  have hk₀ := (Keeps.refl n s).after .alloca (.i64 0) le_rfl fun _ _ h => by simp at h
  have hcond := hc.gives (s.after n .alloca (.i64 0))
  cases f with
  | error x => exact fun k => hcond _
  | ok v =>
    obtain ⟨u, hk, hv, hrun⟩ := hcond
    have hk₁ : Keeps n s u := hk₀.trans (Nat.le_succ n) hk
    have hgo : ∀ k, ((Lowered.branch n c t e).code k).exec co s = (Code.condBr c.value
        (t.code (.emit t.next (.store n t.value) .done))
        (e.code (.emit e.next (.store n e.value) .done))
        (.emit (e.next + 1) (.load n) k)).exec co u := fun k => hrun _
    change Gives co n s _ _ (choose g h v)
    simp only [hgo]
    cases v with
    | bool b =>
      cases b with
      | true =>
        have hside := ((ht.stored (by omega) u).load (r := e.next + 1) (by omega)).mono hk₁ le_rfl
        simpa only [Code.exec, hv, choose, Lowered.branch] using hside
      | false =>
        have hside := ((he.stored (by omega) u).load (r := e.next + 1) (by omega)).mono hk₁ le_rfl
        simpa only [Code.exec, hv, choose, Lowered.branch] using hside
    | i64 _ | f64 _ | str _ =>
      intro k
      simp only [Code.exec, hv]

theorem exec_binaryKind (isString : Bool) (op : HirBinOp) (s : St) (a b : Nat) :
    (binaryKind isString op a b).exec co s = binaryValue co isString op (s.vals a) (s.vals b) := by
  cases op <;> cases isString <;> rfl

theorem binaryKind_not_store (isString : Bool) (op : HirBinOp) (a b slot c : Nat) :
    binaryKind isString op a b ≠ .store slot c := by
  cases op <;> cases isString <;> simp [binaryKind]

theorem Computes.orNonZero (asCond : Bool) (hc : Computes co n c f) :
    Computes co n (Constants.orNonZero asCond c) (nonZeroIf asCond f) := by
  cases asCond with
  | true => exact hc.cmpZero .ne
  | false => exact hc

/-- **The code computes the run.** -/
theorem computes (asCond : Bool) (e : ConstExpr) (n : Nat) :
    Computes co n (lowerAs asCond e n) (runAs co asCond e) := by
  induction e generalizing asCond n with
  | int value => exact (computes_constI64 value n).orNonZero asCond
  | str | char => exact (computes_const n (fun _ => rfl) fun _ _ => by simp).orNonZero asCond
  | bool value => exact computes_constI64 _ n
  | cast ty expr ih =>
    exact ((ih false n).op1 (fun _ _ => rfl) fun _ _ _ => by simp).orNonZero asCond
  | conditional cond thenExpr elseExpr ihc iht ihe =>
    exact (computes_branch (ihc true _) (iht false _) (ihe false _)).orNonZero asCond
  | unary op expr ih =>
    cases op with
    | neg =>
      have hsub : ∀ (s : St) (a z : Nat), (InstKind.binary .sub z a).exec co s =
          binaryOp co .sub (s.vals z) (s.vals a) := fun _ _ _ => rfl
      have hneg : Computes co n ((lowerAs false expr n).op2 (fun a z => .binary .sub z a)
          (.const (.constI64 0) _)) ((runAs co false expr).bind fun a =>
            (Except.ok (.i64 0)).bind fun z => binaryOp co .sub z a) :=
        (ih false n).op2 (computes_constI64 0 _) hsub fun _ _ _ _ => by simp
      exact hneg
    | not => exact (ih false n).cmpZero .eq
  | binary left op right ihl ihr =>
    have hvalue := (ihl false n).op2 (ihr false _)
      (exec_binaryKind (isStringExpr left || isStringExpr right) op) (binaryKind_not_store _ op)
    cases asCond with
    | false => exact hvalue
    | true =>
      cases op with
      | and => exact computes_branch (ihl true _) (ihr true _) (computes_cmpConst 0 1 _)
      | or => exact computes_branch (ihl true _) (computes_cmpConst 1 1 _) (ihr true _)
      | _ => exact hvalue

theorem run_eq (e : ConstExpr) : run co e = runAs co false e := by
  have hcomputes : Computes co 0 (lowerAs false e 0) (runAs co false e) := computes false e 0
  have hgives := hcomputes.gives ⟨fun _ => .i64 0, fun _ => .i64 0⟩
  cases hf : runAs co false e with
  | error x =>
    rw [hf] at hgives
    have hrun : ((lowerAs false e 0).code .done).exec co _ = .error x := hgives .done
    simp only [run, lowerExpr, hrun, Except.map]
  | ok v =>
    rw [hf] at hgives
    obtain ⟨t, -, hv, hgo⟩ := hgives
    have hrun : ((lowerAs false e 0).code .done).exec co _ = .ok t := hgo .done
    simp only [run, lowerExpr, hrun, Except.map]
    exact congrArg Except.ok hv

end Correct

/-- What the code leaves where the evaluator has a value: a boolean is an integer in a literal and
a boolean of the machine after a comparison. -/
inductive Kind where
  | num
  | bit
  | truth
  | char
  | text
  deriving DecidableEq

/-- What becomes of operands: the evaluator refuses them, both give a value of one kind, or the
code does something else with them. -/
inductive Fate where
  | refused
  | is (k : Kind)
  | parts
  deriving DecidableEq

/-- The code compares with zero: the integers have no such complement, the booleans of the machine
no such comparison. -/
def unaryFate : HirUnOp → Kind → Fate
  | .neg, .num => .is .num
  | .neg, _ => .refused
  | .not, .bit => .is .truth
  | .not, .num | .not, .truth => .parts
  | .not, _ => .refused

def binaryFate : HirBinOp → Kind → Kind → Fate
  | op, .num, .num =>
    match op with
    | .lt | .le | .gt | .ge | .eq | .ne => .is .truth
    | .and | .or => .refused
    | _ => .is .num
  | op, .text, .text =>
    match op with
    | .add => .is .text
    | .eq | .ne => .is .truth
    | _ => .refused
  -- the bits are combined as integers, and only booleans of one form are compared
  | op, .bit, .bit =>
    match op with
    | .and | .or => .is .bit
    | .eq | .ne => .is .truth
    | _ => .refused
  | op, .truth, .truth =>
    match op with
    | .and | .or => .parts
    | .eq | .ne => .is .truth
    | _ => .refused
  | op, .bit, .truth | op, .truth, .bit =>
    match op with
    | .and | .or | .eq | .ne => .parts
    | _ => .refused
  | _, _, _ => .refused

/-- Casts to `Int` are lowered to 32 bits, and casts to `String` to an integer. -/
def castFate (ty : HirType) (k : Kind) : Fate :=
  let name := ConstEval.targetName ty
  if name = "Int" ∨ name = "int" then
    match k with
    | .bit | .truth => .is .num
    | .text => .refused
    | .num | .char => .parts
  else if name = "Float" ∨ name = "float" then
    if k = .num then .parts else .refused
  else if name = "Bool" ∨ name = "bool" then
    match k with
    | .num | .bit | .truth => .is .truth
    | .char | .text => .refused
  else if name = "Char" ∨ name = "char" then
    match k with
    | .num | .char => .is .char
    | .bit | .truth | .text => .refused
  else if name = "String" then .parts
  else .refused

/-- The kinds of what becomes of any of them, if none parts. -/
def kindsOf {A : Type} (fate : A → Fate) : List A → Option (List Kind)
  | [] => some []
  | a :: as =>
    match fate a with
    | .refused => kindsOf fate as
    | .is k => (kindsOf fate as).map (k :: ·)
    | .parts => none

/-- A condition must not have this kind. -/
def barring (asCond : Bool) (k : Kind) (ks : List Kind) : Option (List Kind) :=
  if asCond = true ∧ k ∈ ks then none else some ks

/-- The kinds a value of the expression can have, as a value or as a condition, if no part of it
is one the code evaluates otherwise. A condition that is its own value must not be an integer, and
one that is compared with zero no boolean of the machine. -/
def kindsAs (asCond : Bool) : ConstExpr → Option (List Kind)
  | .int _ => barring asCond .truth [.num]
  | .str _ => barring asCond .truth [.text]
  | .char _ => barring asCond .truth [.char]
  | .bool _ => barring asCond .bit [.bit]
  | .cast ty expr =>
    (kindsAs false expr).bind fun ks => (kindsOf (castFate ty) ks).bind (barring asCond .truth)
  | .conditional cond thenExpr elseExpr =>
    (kindsAs true cond).bind fun _ => (kindsAs false thenExpr).bind fun ts =>
      (kindsAs false elseExpr).bind fun es => barring asCond .truth (ts ++ es)
  | .binary left op right =>
    match asCond, op with
    | true, .and | true, .or =>
      (kindsAs true left).bind fun _ => (kindsAs true right).map fun _ => [.truth]
    | _, op =>
      (kindsAs false left).bind fun ls => (kindsAs false right).bind fun rs =>
        (kindsOf (fun p => binaryFate op p.1 p.2) (ls.product rs)).bind (barring asCond .bit)
  | .unary op expr =>
    (kindsAs false expr).bind fun ks => (kindsOf (unaryFate op) ks).bind (barring asCond .bit)

/-- No part of the expression is one the code evaluates otherwise. -/
def ConstExpr.plain (e : ConstExpr) : Bool := (kindsAs false e).isSome

variable {F : Type} (fl : FloatOps F)

/-- The values of the machine that stand for a constant. -/
def Represents : ConstValue F → Value → Prop
  | .int n, v => v = .i64 n
  | .bool b, v => v = .bool b ∨ v = .i64 (if b then 1 else 0)
  | .char c, v => v = .str c.toString
  | .str s, v => v = .str s
  | .float _, _ => False

/-- `eval_const_expr` with no constants defined. -/
def eval (e : ConstExpr) : ConstEval.Eval (ConstValue F) := evalConstExpr fl .new e.toHir

/-- **Compile time and run time agree**: a value is the value of the code, and where the code
panics there is none. -/
def Agrees (co : Coercions) (e : ConstExpr) : Prop :=
  (∀ v, eval fl e = .ok v → ∃ r, run co e = .ok r ∧ Represents v r) ∧
  (run co e = .error .panicked → ∃ x, eval fl e = .error x)

/-- A constant and the value the code leaves for it are of this kind. -/
def Kind.Has : Kind → ConstValue F → Value → Prop
  | .num, v, r => ∃ n, v = .int n ∧ r = .i64 n
  | .bit, v, r => ∃ b, v = .bool b ∧ r = .i64 (if b then 1 else 0)
  | .truth, v, r => ∃ b, v = .bool b ∧ r = .bool b
  | .char, v, r => ∃ c, v = .char c ∧ r = .str c.toString
  | .text, v, r => ∃ s, v = .str s ∧ r = .str s

variable {k : Kind} {v : ConstValue F} {r : Value}

theorem Kind.Has.represents (h : k.Has v r) : Represents v r := by
  cases k with
  | num | char | text =>
    obtain ⟨_, rfl, rfl⟩ := h
    rfl
  | bit =>
    obtain ⟨b, rfl, rfl⟩ := h
    exact .inr rfl
  | truth =>
    obtain ⟨b, rfl, rfl⟩ := h
    exact .inl rfl

theorem Kind.Has.of_int {n : Int64} (h : k.Has (.int n : ConstValue F) r) :
    k = .num ∧ r = .i64 n := by
  cases k <;> simp_all [Kind.Has]

theorem Kind.Has.of_str {s : String} (h : k.Has (.str s : ConstValue F) r) :
    k = .text ∧ r = .str s := by
  cases k <;> simp_all [Kind.Has]

theorem Kind.Has.of_char {c : Char} (h : k.Has (.char c : ConstValue F) r) :
    k = .char ∧ r = .str c.toString := by
  cases k <;> simp_all [Kind.Has]

variable {b : Bool}

theorem Kind.Has.of_bool (h : k.Has (.bool b : ConstValue F) r) :
    (k = .bit ∧ r = .i64 (if b then 1 else 0)) ∨ (k = .truth ∧ r = .bool b) := by
  cases k <;> simp_all [Kind.Has]

theorem Kind.Has.of_float {x : F} (h : k.Has (.float x : ConstValue F) r) : False := by
  cases k <;> simp_all [Kind.Has]

variable {A : Type} {ks : List Kind}

variable {fate : A → Fate} {as : List A} {n : ℤ}

theorem mem_kindsOf (h : kindsOf fate as = some ks) {a : A} (ha : a ∈ as) :
    fate a = .refused ∨ ∃ k ∈ ks, fate a = .is k := by
  induction as generalizing ks with
  | nil => simp at ha
  | cons b bs ih =>
    rw [kindsOf] at h
    cases hb : fate b with
    | refused =>
      rw [hb] at h
      rcases mem_cons.1 ha with rfl | ha
      · exact .inl hb
      · exact ih h ha
    | is k =>
      rw [hb] at h
      obtain ⟨ks', hks, rfl⟩ := map_eq_some_iff.1 h
      rcases mem_cons.1 ha with rfl | ha
      · exact .inr ⟨k, mem_cons_self, hb⟩
      · refine (ih hks ha).imp_right ?_
        rintro ⟨l, hl, hfate⟩
        exact ⟨l, mem_cons_of_mem _ hl, hfate⟩
    | parts =>
      rw [hb] at h
      cases h

theorem fate_of_mem (h : kindsOf fate as = some ks) (hk : k ∈ ks) : ∃ a ∈ as, fate a = .is k := by
  induction as generalizing ks with
  | nil =>
    cases h
    cases hk
  | cons b bs ih =>
    rw [kindsOf] at h
    cases hb : fate b with
    | refused =>
      rw [hb] at h
      obtain ⟨a, ha, hfate⟩ := ih h hk
      exact ⟨a, mem_cons_of_mem _ ha, hfate⟩
    | is l =>
      rw [hb] at h
      obtain ⟨ls, hls, rfl⟩ := map_eq_some_iff.1 h
      rcases mem_cons.1 hk with rfl | hk
      · exact ⟨b, mem_cons_self, hb⟩
      · obtain ⟨a, ha, hfate⟩ := ih hls hk
        exact ⟨a, mem_cons_of_mem _ ha, hfate⟩
    | parts =>
      rw [hb] at h
      cases h

theorem fate_ne_parts (h : kindsOf fate as = some ks) {a : A} (ha : a ∈ as) : fate a ≠ .parts := by
  intro hparts
  rcases mem_kindsOf h ha with hfate | ⟨k, -, hfate⟩
  · simp [hparts] at hfate
  · simp [hparts] at hfate

theorem mem_of_fate (h : kindsOf fate as = some ks) {a : A} (ha : a ∈ as) (hk : fate a = .is k) :
    k ∈ ks := by
  rcases mem_kindsOf h ha with hfate | ⟨l, hl, hfate⟩
  · simp [hk] at hfate
  · cases hk.symm.trans hfate
    exact hl

/-! ## Integers -/

theorem ofInt_of_fit {k : Int64} (h : ConstEval.fit n = some k) : k = Int64.ofInt n := by
  rw [← ConstEval.fit_eq_some.1 h, Int64.ofInt_toInt]

variable {u : ConstValue F}

theorem intOr_eq_ok {o : Option Int64} (h : ConstEval.intOr o = .ok u) :
    ∃ n, o = some n ∧ u = .int n := by
  cases o with
  | none => cases h
  | some n =>
    cases h
    exact ⟨n, rfl, rfl⟩

theorem fit_wraps {m : Int64} (hm : m.toInt = n.bmod (2 ^ 64)) {k : Int64}
    (h : ConstEval.fit n = some k) : k = m := by
  rw [ofInt_of_fit h, ← Int64.toInt_inj, Int64.toInt_ofInt, hm]
  rfl

variable {a : Int64}

theorem checkedNeg_wraps {k : Int64} (h : ConstEval.checkedNeg a = some k) : k = 0 - a :=
  fit_wraps (by simp) h

theorem checkedDiv_wraps {b k : Int64} (h : ConstEval.checkedDiv a b = some k) : k = a / b := by
  unfold ConstEval.checkedDiv at h
  split at h
  · cases h
  · exact fit_wraps (Int64.toInt_div a b) h

theorem checkedRem_wraps {b k : Int64} (h : ConstEval.checkedRem a b = some k) : k = a % b := by
  unfold ConstEval.checkedRem at h
  split at h
  · cases h
  · obtain ⟨_, -, h⟩ := bind_eq_some_iff.1 h
    rw [ofInt_of_fit h, ← Int64.toInt_mod, Int64.ofInt_toInt]

theorem cmpOp_ints (pred : CmpPred) (a b : Int64) :
    cmpOp pred (.i64 a) (.i64 b) = .ok (.bool (match pred with
      | .eq => a = b
      | .ne => a ≠ b
      | .lt => a < b
      | .le => a ≤ b
      | .gt => b < a
      | .ge => b ≤ a)) := by
  cases pred <;> simp [cmpOp, Conditions.compare, Optionals.eqI64, Conditions.ltI64, ← Int64.not_lt]

theorem cmpOp_bools (a b : Bool) : cmpOp .eq (.bool a) (.bool b) = .ok (.bool (a = b)) ∧
    cmpOp .ne (.bool a) (.bool b) = .ok (.bool (a ≠ b)) := by
  simp [cmpOp, Conditions.compare, Optionals.eqI64]

theorem cmpOp_strs (a b : String) : cmpOp .eq (.str a) (.str b) = .ok (.bool (a = b)) ∧
    cmpOp .ne (.str a) (.str b) = .ok (.bool (a ≠ b)) := by
  simp [cmpOp, Conditions.compare, Optionals.eqI64]

/-! ## Operators -/

section Operators
variable {fl : FloatOps F} (co : Coercions)

variable {op : HirBinOp} {w : ConstValue F}

theorem operands_alike (h : ConstEval.evalBinaryOp fl op v w = .ok u) :
    (∃ a b, v = .int a ∧ w = .int b) ∨ (∃ a b, v = .bool a ∧ w = .bool b) ∨
      (∃ a b, v = .str a ∧ w = .str b) ∨ ∃ a b, v = .float a ∧ w = .float b := by
  cases v <;> cases w <;> first
    | exact .inl ⟨_, _, rfl, rfl⟩
    | exact .inr (.inl ⟨_, _, rfl, rfl⟩)
    | exact .inr (.inr (.inl ⟨_, _, rfl, rfl⟩))
    | exact .inr (.inr (.inr ⟨_, _, rfl, rfl⟩))
    | (cases op <;> cases h)

theorem num_sound {b : Int64} (h : ConstEval.evalBinaryOp fl op (.int a) (.int b) = .ok u) :
    ∃ x k, binaryValue co false op (.i64 a) (.i64 b) = .ok x ∧
      binaryFate op .num .num = .is k ∧ k.Has u x := by
  -- a comparison is the machine's
  have hcmp : ∀ (pred : CmpPred) (t : Bool), cmpOp pred (.i64 a) (.i64 b) = .ok (.bool t) →
      (.ok (.bool t) : ConstEval.Eval (ConstValue F)) = .ok u →
        ∃ x k, cmpOp pred (.i64 a) (.i64 b) = .ok x ∧ Fate.is .truth = .is k ∧ k.Has u x := by
    rintro pred t hrun ⟨⟩
    exact ⟨_, .truth, hrun, rfl, t, rfl, rfl⟩
  cases op with
  | add =>
    obtain ⟨n, hn, rfl⟩ := intOr_eq_ok h
    exact ⟨_, .num, rfl, rfl, _, rfl, by rw [fit_wraps (Int64.toInt_add a b) hn]⟩
  | sub =>
    obtain ⟨n, hn, rfl⟩ := intOr_eq_ok h
    exact ⟨_, .num, rfl, rfl, _, rfl, by rw [fit_wraps (Int64.toInt_sub a b) hn]⟩
  | mul =>
    obtain ⟨n, hn, rfl⟩ := intOr_eq_ok h
    exact ⟨_, .num, rfl, rfl, _, rfl, by rw [fit_wraps (Int64.toInt_mul a b) hn]⟩
  | div =>
    by_cases hb : b = 0
    · simp [ConstEval.evalBinaryOp, hb] at h
    · rw [ConstEval.evalBinaryOp, if_neg hb] at h
      obtain ⟨n, hn, rfl⟩ := intOr_eq_ok h
      exact ⟨.i64 (a / b), .num, if_neg hb, rfl, _, rfl, by rw [checkedDiv_wraps hn]⟩
  | mod =>
    by_cases hb : b = 0
    · simp [ConstEval.evalBinaryOp, hb] at h
    · rw [ConstEval.evalBinaryOp, if_neg hb] at h
      obtain ⟨n, hn, rfl⟩ := intOr_eq_ok h
      exact ⟨.i64 (a % b), .num, if_neg hb, rfl, _, rfl, by rw [checkedRem_wraps hn]⟩
  | shl | shr =>
    by_cases hb : 0 ≤ b ∧ b ≤ 63
    · rw [ConstEval.evalBinaryOp, if_pos hb] at h
      cases h
      exact ⟨_, .num, rfl, rfl, _, rfl, rfl⟩
    · rw [ConstEval.evalBinaryOp, if_neg hb] at h
      cases h
  | bitAnd | bitOr | xor =>
    cases h
    exact ⟨_, .num, rfl, rfl, _, rfl, rfl⟩
  | and | or => cases h
  | lt => exact hcmp .lt _ (cmpOp_ints .lt a b) h
  | le => exact hcmp .le _ (cmpOp_ints .le a b) h
  | gt => exact hcmp .gt _ (cmpOp_ints .gt a b) h
  | ge => exact hcmp .ge _ (cmpOp_ints .ge a b) h
  | eq => exact hcmp .eq _ (cmpOp_ints .eq a b) h
  | ne => exact hcmp .ne _ (cmpOp_ints .ne a b) h

theorem text_sound {a b : String} (isString : Bool)
    (h : ConstEval.evalBinaryOp fl op (.str a) (.str b) = .ok u) :
    ∃ x k, binaryValue co isString op (.str a) (.str b) = .ok x ∧
      binaryFate op .text .text = .is k ∧ k.Has u x := by
  cases op with
  | add =>
    cases h
    cases isString <;> exact ⟨_, .text, rfl, rfl, _, rfl, rfl⟩
  | eq =>
    cases h
    exact ⟨_, .truth, (cmpOp_strs a b).1, rfl, _, rfl, rfl⟩
  | ne =>
    cases h
    exact ⟨_, .truth, (cmpOp_strs a b).2, rfl, _, rfl, rfl⟩
  | _ => cases h

variable {j : Kind} {q : Value} {l : Kind}

theorem bool_sound {a : Bool} (isString : Bool) (hj : j.Has (.bool a : ConstValue F) r)
    (hl : l.Has (.bool b : ConstValue F) q) (hparts : binaryFate op j l ≠ .parts)
    (h : ConstEval.evalBinaryOp fl op (.bool a) (.bool b) = .ok u) :
    ∃ x k, binaryValue co isString op r q = .ok x ∧ binaryFate op j l = .is k ∧ k.Has u x := by
  have hbits : ∀ a b : Bool, ((if a then 1 else 0 : Int64) = if b then 1 else 0) ↔ a = b := by
    decide
  rcases hj.of_bool with ⟨rfl, rfl⟩ | ⟨rfl, rfl⟩ <;> rcases hl.of_bool with ⟨rfl, rfl⟩ | ⟨rfl, rfl⟩
  · -- two integers, 0 or 1 each
    cases op with
    | and | or =>
      cases h
      refine ⟨_, .bit, rfl, rfl, _, rfl, ?_⟩
      cases a <;> cases b <;> rfl
    | eq =>
      cases h
      exact ⟨_, .truth, cmpOp_ints .eq _ _, rfl, _, rfl, by simp only [hbits]⟩
    | ne =>
      cases h
      exact ⟨_, .truth, cmpOp_ints .ne _ _, rfl, _, rfl, by simp only [ne_eq, hbits]⟩
    | _ => cases h
  · cases op <;> first | exact absurd rfl hparts | cases h
  · cases op <;> first | exact absurd rfl hparts | cases h
  · cases op with
    | eq =>
      cases h
      exact ⟨_, .truth, (cmpOp_bools a b).1, rfl, _, rfl, rfl⟩
    | ne =>
      cases h
      exact ⟨_, .truth, (cmpOp_bools a b).2, rfl, _, rfl, rfl⟩
    | and | or => exact absurd rfl hparts
    | _ => cases h

theorem op_sound
    {isString : Bool} (hstring : isString = true → j = .text ∨ l = .text) (hj : j.Has v r)
    (hl : l.Has w q) (hparts : binaryFate op j l ≠ .parts)
    (h : ConstEval.evalBinaryOp fl op v w = .ok u) :
    ∃ x k, binaryValue co isString op r q = .ok x ∧ binaryFate op j l = .is k ∧ k.Has u x := by
  rcases operands_alike h with ⟨a, b, rfl, rfl⟩ | ⟨a, b, rfl, rfl⟩ | ⟨a, b, rfl, rfl⟩ |
    ⟨a, b, rfl, rfl⟩
  · obtain ⟨rfl, rfl⟩ := hj.of_int
    obtain ⟨rfl, rfl⟩ := hl.of_int
    -- neither operand is a string
    obtain rfl : isString = false := by simpa using hstring
    exact num_sound co h
  · exact bool_sound co isString hj hl hparts h
  · obtain ⟨rfl, rfl⟩ := hj.of_str
    obtain ⟨rfl, rfl⟩ := hl.of_str
    exact text_sound co isString h
  · exact hj.of_float.elim

theorem toLower_eq {s t : String} (h : s.toList.map Char.toLower = t.toList) : s.toLower = t := by
  rw [← String.toList_inj, String.toLower, String.toList_map, h]

variable {name : String}

theorem castOf_int (h : name = "Int" ∨ name = "int") : castOf name = .i32 := by
  have hlower : name.toLower = "int" := by
    rcases h with rfl | rfl <;> exact toLower_eq (by decide)
  simp [castOf, hlower]

theorem castOf_bool (h : name = "Bool" ∨ name = "bool") : castOf name = .bool := by
  have hlower : name.toLower = "bool" := by
    rcases h with rfl | rfl <;> exact toLower_eq (by decide)
  simp [castOf, hlower]

theorem castOf_char (h : name = "Char" ∨ name = "char") : castOf name = .char := by
  have hlower : name.toLower = "char" := by
    rcases h with rfl | rfl <;> exact toLower_eq (by decide)
  simp [castOf, hlower]

theorem castOp_bool (h : Represents (.bool b : ConstValue F) r) :
    castOp co .i32 r = .i64 (if b then 1 else 0) ∧ castOp co .bool r = .bool b := by
  rcases h with rfl | rfl
  · exact ⟨rfl, rfl⟩
  · cases b <;> exact ⟨rfl, rfl⟩

theorem cast_sound {ty : HirType}
    (hj : j.Has v r) (hparts : castFate ty j ≠ .parts) (h : ConstEval.evalCast fl ty v = .ok u) :
    ∃ k, castFate ty j = .is k ∧ k.Has u (castOp co (castOf (ConstEval.targetName ty)) r) := by
  unfold castFate at hparts ⊢
  unfold ConstEval.evalCast at h
  -- by the name of the target, as both evaluators look at it
  by_cases hint : ConstEval.targetName ty = "Int" ∨ ConstEval.targetName ty = "int"
  · rw [if_pos hint] at hparts h ⊢
    rw [castOf_int hint]
    cases v with
    | bool b =>
      cases h
      refine ⟨.num, ?_, _, rfl, (castOp_bool co hj.represents).1⟩
      rcases hj.of_bool with ⟨rfl, -⟩ | ⟨rfl, -⟩ <;> rfl
    | int n =>
      obtain ⟨rfl, rfl⟩ := hj.of_int
      exact absurd rfl hparts
    | char c =>
      obtain ⟨rfl, rfl⟩ := hj.of_char
      exact absurd rfl hparts
    | str s => cases h
    | float x => exact hj.of_float.elim
  rw [if_neg hint] at hparts h ⊢
  by_cases hfloat : ConstEval.targetName ty = "Float" ∨ ConstEval.targetName ty = "float"
  · rw [if_pos hfloat] at hparts h
    cases v with
    | int n =>
      obtain ⟨rfl, rfl⟩ := hj.of_int
      exact absurd rfl hparts
    | float x => exact hj.of_float.elim
    | _ => cases h
  rw [if_neg hfloat] at hparts h ⊢
  by_cases hbool : ConstEval.targetName ty = "Bool" ∨ ConstEval.targetName ty = "bool"
  · rw [if_pos hbool] at h ⊢
    rw [castOf_bool hbool]
    cases v with
    | bool b =>
      cases h
      refine ⟨.truth, ?_, _, rfl, (castOp_bool co hj.represents).2⟩
      rcases hj.of_bool with ⟨rfl, -⟩ | ⟨rfl, -⟩ <;> rfl
    | int n =>
      obtain ⟨rfl, rfl⟩ := hj.of_int
      cases h
      exact ⟨.truth, rfl, _, rfl, rfl⟩
    | float x => exact hj.of_float.elim
    | _ => cases h
  rw [if_neg hbool] at hparts h ⊢
  by_cases hchar : ConstEval.targetName ty = "Char" ∨ ConstEval.targetName ty = "char"
  · rw [if_pos hchar] at h ⊢
    rw [castOf_char hchar]
    cases v with
    | char c =>
      obtain ⟨rfl, rfl⟩ := hj.of_char
      cases h
      exact ⟨.char, rfl, _, rfl, by simp [castOp]⟩
    | int n =>
      obtain ⟨rfl, rfl⟩ := hj.of_int
      cases hc : ConstEval.charOfI64 n with
      | none =>
        simp only [hc] at h
        cases h
      | some c =>
        simp only [hc] at h
        cases h
        exact ⟨.char, rfl, _, rfl, by simp [castOp, hc]⟩
    | float x => exact hj.of_float.elim
    | _ => cases h
  rw [if_neg hchar] at hparts h ⊢
  by_cases hstring : ConstEval.targetName ty = "String"
  · rw [if_pos hstring] at hparts
    exact absurd rfl hparts
  · rw [if_neg hstring] at h
    cases h

theorem unary_sound {op : HirUnOp} {e : ConstExpr}
    (hj : j.Has v r) (hparts : unaryFate op j ≠ .parts) (hv : eval fl e = .ok v)
    (h : eval fl (.unary op e) = .ok u) : ∃ x k, (match op with
      | .neg => binaryOp co .sub (.i64 0) r
      | .not => cmpOp .eq r (.i64 0)) = .ok x ∧ unaryFate op j = .is k ∧ k.Has u x := by
  have hv : evalConstExpr fl .new (e.toHir : HirExpr F) = .ok v := hv
  cases op with
  | neg =>
    cases v with
    | int n =>
      obtain ⟨rfl, rfl⟩ := hj.of_int
      have h : ConstEval.intOr (ConstEval.checkedNeg n) = .ok u := by
        rwa [eval, ConstExpr.toHir, evalConstExpr, hv] at h
      obtain ⟨m, hm, rfl⟩ := intOr_eq_ok h
      exact ⟨_, .num, rfl, rfl, _, rfl, by rw [checkedNeg_wraps hm]⟩
    | float x => exact hj.of_float.elim
    | _ => simp [eval, ConstExpr.toHir, evalConstExpr, hv, bind, Except.bind] at h
  | not =>
    cases v with
    | bool b =>
      rcases hj.of_bool with ⟨rfl, rfl⟩ | ⟨rfl, rfl⟩
      · have h : (.ok (.bool !b) : ConstEval.Eval (ConstValue F)) = .ok u := by
          rwa [eval, ConstExpr.toHir, evalConstExpr, hv] at h
        cases h
        exact ⟨_, .truth, cmpOp_ints .eq _ _, rfl, _, rfl, by cases b <;> rfl⟩
      · exact absurd rfl hparts
    | int n =>
      obtain ⟨rfl, rfl⟩ := hj.of_int
      exact absurd rfl hparts
    | float x => exact hj.of_float.elim
    | _ => simp [eval, ConstExpr.toHir, evalConstExpr, hv, bind, Except.bind] at h

theorem text_of_isStringExpr {e : ConstExpr} (h : isStringExpr e = true)
    (hks : kindsAs false e = some ks) (hk : k ∈ ks) : k = .text := by
  induction e generalizing ks k with
  | str s =>
    cases hks
    exact mem_singleton.1 hk
  | binary left op right ihl _ =>
    cases op with
    | add =>
      obtain ⟨ls, hls, hks⟩ := bind_eq_some_iff.1 hks
      obtain ⟨rs, -, hks⟩ := bind_eq_some_iff.1 hks
      obtain ⟨js, hjs, ⟨⟩⟩ := bind_eq_some_iff.1 hks
      obtain ⟨⟨i, l⟩, hmem, hfate⟩ := fate_of_mem hjs hk
      obtain rfl := ihl h hls (mem_product.1 hmem).1
      cases l <;> cases hfate
      rfl
    | _ => cases h
  | _ => cases h

end Operators

section Whole
variable {fl : FloatOps F} (co : Coercions) {asCond : Bool} {js : List Kind}

/-- What the code leaves for the constant `v`: a value of one of the kinds, or as a condition the
boolean itself. -/
def Leaves (asCond : Bool) (ks : List Kind) (v : ConstValue F) (f : Run) : Prop :=
  if asCond then ∀ b, v = .bool b → f = .ok (.bool b)
  else ∃ r, f = .ok r ∧ ∃ k ∈ ks, k.Has v r

theorem Kind.Has.direct (h : k.Has v r) (hk : k ∈ ks) (hjs : barring asCond .bit ks = some js) :
    Leaves asCond js v (.ok r) := by
  cases asCond with
  | false =>
    cases hjs
    exact ⟨r, rfl, k, hk, h⟩
  | true =>
    rintro b rfl
    rcases h.of_bool with ⟨rfl, -⟩ | ⟨rfl, rfl⟩
    · simp [barring, hk] at hjs
    · rfl

theorem Kind.Has.nonZero (h : k.Has v r) (hk : k ∈ ks) (hjs : barring asCond .truth ks = some js) :
    Leaves asCond js v (nonZeroIf asCond (.ok r)) := by
  cases asCond with
  | false =>
    cases hjs
    exact ⟨r, rfl, k, hk, h⟩
  | true =>
    rintro b rfl
    rcases h.of_bool with ⟨rfl, rfl⟩ | ⟨rfl, rfl⟩
    · cases b <;> rfl
    · simp [barring, hk] at hjs

theorem bind_eq_ok {B : Type} {x : ConstEval.Eval A} {f : A → ConstEval.Eval B} {b : B} :
    x.bind f = .ok b ↔ ∃ a, x = .ok a ∧ f a = .ok b := by
  cases x <;> simp [Except.bind]

/-- **An expression with kinds leaves what it evaluates to.** -/
theorem leaves_of_kinds {e : ConstExpr} {ks : List Kind} {v : ConstValue F}
    (hks : kindsAs asCond e = some ks) (hv : eval fl e = .ok v) :
    Leaves asCond ks v (runAs co asCond e) := by
  induction e generalizing asCond ks v with
  | int value =>
    cases hv
    exact Kind.Has.nonZero (k := .num) ⟨_, rfl, rfl⟩ mem_cons_self hks
  | str value =>
    cases hv
    exact Kind.Has.nonZero (k := .text) ⟨_, rfl, rfl⟩ mem_cons_self hks
  | char value =>
    cases hv
    exact Kind.Has.nonZero (k := .char) ⟨_, rfl, rfl⟩ mem_cons_self hks
  | bool value =>
    cases hv
    exact Kind.Has.direct (k := .bit) ⟨_, rfl, rfl⟩ mem_cons_self hks
  | cast ty expr ih =>
    obtain ⟨is, his, hks⟩ := bind_eq_some_iff.1 hks
    obtain ⟨js, hjs, hks⟩ := bind_eq_some_iff.1 hks
    obtain ⟨w, hw, hv⟩ := bind_eq_ok.1 hv
    obtain ⟨r, hr, i, hi, hhas⟩ := @ih false _ _ his hw
    have hparts := fate_ne_parts hjs hi
    obtain ⟨k, hk, hcast⟩ := cast_sound co hhas hparts hv
    have hnonZero := hcast.nonZero (mem_of_fate hjs hi hk) hks
    simpa only [runAs, hr, Except.bind] using hnonZero
  | unary op expr ih =>
    obtain ⟨is, his, hks⟩ := bind_eq_some_iff.1 hks
    obtain ⟨js, hjs, hks⟩ := bind_eq_some_iff.1 hks
    obtain ⟨w, hw, -⟩ := bind_eq_ok.1 hv
    obtain ⟨r, hr, i, hi, hhas⟩ := @ih false _ _ his hw
    obtain ⟨x, k, hx, hk, hhas⟩ := unary_sound co hhas (fate_ne_parts hjs hi) hw hv
    have hdirect := hhas.direct (mem_of_fate hjs hi hk) hks
    cases op <;> simpa only [runAs, hr, Except.bind, hx] using hdirect
  | conditional cond thenExpr elseExpr ihc iht ihe =>
    obtain ⟨_, hc, hks⟩ := bind_eq_some_iff.1 hks
    obtain ⟨ts, ht, hks⟩ := bind_eq_some_iff.1 hks
    obtain ⟨es, he, hks⟩ := bind_eq_some_iff.1 hks
    obtain ⟨w, hw, hv⟩ := bind_eq_ok.1 hv
    cases w with
    | bool b =>
      have hcond : runAs co true cond = .ok (.bool b) := @ihc true _ _ hc hw b rfl
      cases b with
      | true =>
        obtain ⟨r, hr, k, hk, hhas⟩ := @iht false _ _ ht hv
        have hthen := hhas.nonZero (mem_append_left es hk) hks
        simpa only [runAs, hcond, Except.bind, choose, hr] using hthen
      | false =>
        obtain ⟨r, hr, k, hk, hhas⟩ := @ihe false _ _ he hv
        have helse := hhas.nonZero (mem_append_right ts hk) hks
        simpa only [runAs, hcond, Except.bind, choose, hr] using helse
    | _ => cases hv
  | binary left op right ihl ihr =>
    -- as a condition, `&&` and `||` take the right operand if the left one leaves it open
    have hshort : ((kindsAs true left).bind fun _ => (kindsAs true right).map fun _ =>
        [Kind.truth]) = some ks → ∀ {a b : Bool}, eval fl left = .ok (.bool a) →
          eval fl right = .ok (.bool b) →
            runAs co true left = .ok (.bool a) ∧ runAs co true right = .ok (.bool b) := by
      intro hks a b hleft hright
      obtain ⟨_, hl, hks⟩ := bind_eq_some_iff.1 hks
      obtain ⟨_, hr, -⟩ := map_eq_some_iff.1 hks
      exact ⟨@ihl true _ _ hl hleft a rfl, @ihr true _ _ hr hright b rfl⟩
    have hvalue : ((kindsAs false left).bind fun ls => (kindsAs false right).bind fun rs =>
        (kindsOf (fun p => binaryFate op p.1 p.2) (ls.product rs)).bind (barring asCond .bit)) =
          some ks → Leaves asCond ks v ((runAs co false left).bind fun a =>
            (runAs co false right).bind fun b =>
              binaryValue co (isStringExpr left || isStringExpr right) op a b) := by
      intro hks
      obtain ⟨ls, hls, hks⟩ := bind_eq_some_iff.1 hks
      obtain ⟨rs, hrs, hks⟩ := bind_eq_some_iff.1 hks
      obtain ⟨js, hjs, hks⟩ := bind_eq_some_iff.1 hks
      obtain ⟨w, hw, hv⟩ := bind_eq_ok.1 hv
      obtain ⟨u, hu, hv⟩ := bind_eq_ok.1 hv
      obtain ⟨r, hr, i, hi, hihas⟩ := @ihl false _ _ hls hw
      obtain ⟨q, hq, l, hl, hlhas⟩ := @ihr false _ _ hrs hu
      have hmem : (i, l) ∈ ls.product rs := mem_product.2 ⟨hi, hl⟩
      have hstring : (isStringExpr left || isStringExpr right) = true → i = .text ∨ l = .text := by
        intro h
        rcases Bool.or_eq_true_iff.1 h with h | h
        · exact .inl (text_of_isStringExpr h hls hi)
        · exact .inr (text_of_isStringExpr h hrs hl)
      obtain ⟨x, k, hx, hk, hhas⟩ :=
        op_sound co hstring hihas hlhas (fate_ne_parts hjs hmem) hv
      have hdirect := hhas.direct (mem_of_fate hjs hmem hk) hks
      simpa only [hr, hq, Except.bind, hx] using hdirect
    cases asCond with
    | false => cases op <;> exact hvalue hks
    | true =>
      cases op with
      | and | or =>
        rintro c rfl
        obtain ⟨w, hw, hv⟩ := bind_eq_ok.1 hv
        obtain ⟨u, hu, hv⟩ := bind_eq_ok.1 hv
        cases w with
        | bool a =>
          cases u with
          | bool b =>
            cases hv
            obtain ⟨hl, hr⟩ := hshort hks hw hu
            cases a <;> simp [runAs, hl, hr, Except.bind, choose]
          | _ => cases hv
        | _ => cases u <;> cases hv
      | _ => exact hvalue hks

/-- **Where no part is evaluated otherwise, compile time and run time agree.** -/
theorem agrees_of_plain (fl : FloatOps F) (co : Coercions) (e : ConstExpr) (h : e.plain = true) :
    Agrees fl co e := by
  obtain ⟨ks, hks⟩ := Option.isSome_iff_exists.1 h
  have hvalue : ∀ v, eval fl e = .ok v → ∃ r, run co e = .ok r ∧ Represents v r := by
    intro v hv
    obtain ⟨r, hr, k, -, hhas⟩ := @leaves_of_kinds _ _ co false e ks v hks hv
    exact ⟨r, (run_eq e).trans hr, hhas.represents⟩
  refine ⟨hvalue, fun hpanic => ?_⟩
  cases hv : eval fl e with
  | error x => exact ⟨x, rfl⟩
  | ok v =>
    obtain ⟨r, hr, -⟩ := hvalue v hv
    rw [hr] at hpanic
    cases hpanic

end Whole

/-- `1 + 2 < 4 ? "a" + "b" : "c"`. -/
def joined : ConstExpr :=
  .conditional (.binary (.binary (.int 1) .add (.int 2)) .lt (.int 4))
    (.binary (.str "a") .add (.str "b")) (.str "c")

def noFloats : FloatOps Unit :=
  ⟨id, fun _ => id, fun _ => id, fun _ => id, fun _ => id, fun _ => id, fun _ _ => false,
    fun _ _ => false, fun _ _ => false, fun _ => (), fun _ => 0, fun _ => ""⟩

def noCoercions : Coercions := ⟨fun _ _ _ => .error .failed, fun _ => "", fun _ => 0, fun _ => id⟩

theorem joined_agrees :
    eval noFloats joined = .ok (.str "ab") ∧ Agrees noFloats noCoercions joined :=
  ⟨rfl, agrees_of_plain noFloats noCoercions joined (by decide)⟩

theorem not_agrees {fl : FloatOps F} {co : Coercions} {e : ConstExpr}
    (hv : eval fl e = .ok v) (hr : ∀ r, runAs co false e = .ok r → ¬ Represents v r) :
    ¬ Agrees fl co e := by
  intro h
  obtain ⟨r, hrun, hrep⟩ := h.1 v hv
  exact hr r ((run_eq e).symm.trans hrun) hrep

/-- `1 < 1`. -/
def less : ConstExpr := .binary (.int 1) .lt (.int 1)

/-- `!5`, `(Int) 4294967296`, `(String) 5`, `1 < 1 || 1 < 1`, `!(1 < 1)` and `true ? 1 : 1`. -/
def parting : List ConstExpr :=
  [.unary .not (.int 5), .cast (.name ["Int"]) (.int 4294967296), .cast (.name ["String"]) (.int 5),
    .binary less .or less, .unary .not less, .conditional (.bool true) (.int 1) (.int 1)]

theorem parting_not_agrees : .unary .not (.int 5) ∈ parting ∧ ∀ e ∈ parting,
    ∀ (F : Type) (fl : FloatOps F) (co : Coercions), ¬ Agrees fl co e := by
  refine ⟨List.mem_cons_self, fun e he F fl co => ?_⟩
  simp only [parting, List.mem_cons, List.not_mem_nil, or_false] at he
  rcases he with rfl | rfl | rfl | rfl | rfl | rfl
  · refine not_agrees (v := .int (~~~5)) rfl ?_
    rintro _ ⟨⟩ ⟨⟩
  · refine not_agrees (v := .int 4294967296) rfl fun r hr hrep => ?_
    have hcast : castOf "Int" = .i32 := castOf_int (.inl rfl)
    have hrun : runAs co false (.cast (.name ["Int"]) (.int 4294967296)) =
        .ok (castOp co .i32 (.i64 4294967296)) := by
      rw [← hcast]
      rfl
    cases hrun.symm.trans hr
    -- the low 32 bits are zero
    have hlow : (0 : Int64) = 4294967296 := Value.i64.inj hrep
    exact absurd hlow (by decide)
  · refine not_agrees (v := .str (toString (5 : Int64).toInt)) rfl fun r hr hrep => ?_
    have hlower : ("String" : String).toLower = "string" := toLower_eq (by decide)
    have hrun : runAs co false (.cast (.name ["String"]) (.int 5)) =
        .ok (castOp co .i64 (.i64 5)) := by
      have hcast : castOf "String" = .i64 := by simp [castOf, hlower]
      rw [← hcast]
      rfl
    cases hrun.symm.trans hr
    cases hrep
  · refine not_agrees (v := .bool false) rfl ?_
    rintro _ ⟨⟩
  · refine not_agrees (v := .bool true) rfl ?_
    rintro _ ⟨⟩
  · refine not_agrees (v := .int 1) rfl ?_
    rintro _ ⟨⟩

end Arth.Constants
