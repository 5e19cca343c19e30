import Arth.Lower.Expr

/-!
# Evaluation of constant expressions

`eval_const_expr` and `eval_integral_const`, which give the discriminants of enum variants.
An expression keeps the parts the evaluator reads; the kinds it refuses keep only their name.

* `FloatOps` — the arithmetic of `f64`, which is left open.
* `fit` — the integers of 64 bits; `checkedNeg` to `checkedRem` answer through it.
* `checkedAdd_eq_some` — a checked sum is the exact sum.
-/

namespace Arth.ConstEval

open Lower (HirType HirBinOp HirUnOp)

/-! ## Values and errors -/

/-- The operations of `f64` that the evaluator uses. `toI64` saturates, `display` is the text
of a value. -/
structure FloatOps (F : Type) where
  neg : F → F
  add : F → F → F
  sub : F → F → F
  mul : F → F → F
  div : F → F → F
  rem : F → F → F
  lt : F → F → Bool
  le : F → F → Bool
  eq : F → F → Bool
  ofI64 : Int64 → F
  toI64 : F → Int64
  display : F → String

inductive ConstValue (F : Type) where
  | int (value : Int64)
  | float (value : F)
  | bool (value : Bool)
  | char (value : Char)
  | str (value : String)

inductive ConstEvalError where
  | notConstant (msg : String)
  | divisionByZero
  | overflow
  | undefinedReference (name : String)
  | cyclicReference (name : String)
  | typeMismatch (msg : String)
  deriving DecidableEq

def ConstEvalError.display : ConstEvalError → String
  | .notConstant msg => "expression is not constant: " ++ msg
  | .divisionByZero => "division by zero"
  | .overflow => "integer overflow"
  | .undefinedReference name => "undefined constant '" ++ name ++ "'"
  | .cyclicReference name => "cyclic reference detected involving '" ++ name ++ "'"
  | .typeMismatch msg => "type mismatch: " ++ msg

/-- The kinds of expression that are never constant. -/
inductive NonConst where
  | call | member | optionalMember | index | await | lambda
  | listLit | mapLit | structLit | enumVariant
  deriving DecidableEq

def NonConst.message : NonConst → String
  | .call => "function calls not allowed"
  | .member => "member access not allowed"
  | .optionalMember => "optional chaining not allowed"
  | .index => "indexing not allowed"
  | .await => "await not allowed"
  | .lambda => "lambda not allowed"
  | .listLit => "list literals not allowed"
  | .mapLit => "map literals not allowed"
  | .structLit => "struct literals not allowed"
  | .enumVariant => "enum variants not allowed"

inductive HirExpr (F : Type) where
  | int (value : Int64)
  | float (value : F)
  | str (value : String)
  | char (value : Char)
  | bool (value : Bool)
  | cast (ty : HirType) (expr : HirExpr F)
  | ident (name : String)
  | binary (left : HirExpr F) (op : HirBinOp) (right : HirExpr F)
  | unary (op : HirUnOp) (expr : HirExpr F)
  | conditional (cond thenExpr elseExpr : HirExpr F)
  | nonConst (kind : NonConst)

structure ConstEvalContext (F : Type) where
  constants : String → Option (ConstValue F)
  evaluating : List String

variable {F : Type}

/-- `ConstEvalContext::new`. -/
def ConstEvalContext.new : ConstEvalContext F := ⟨fun _ => none, []⟩

/-- `{:?}` of an operator. -/
def binOpText : HirBinOp → String
  | .add => "Add" | .sub => "Sub" | .mul => "Mul" | .div => "Div" | .mod => "Mod"
  | .shl => "Shl" | .shr => "Shr"
  | .lt => "Lt" | .le => "Le" | .gt => "Gt" | .ge => "Ge" | .eq => "Eq" | .ne => "Ne"
  | .and => "And" | .or => "Or" | .bitAnd => "BitAnd" | .bitOr => "BitOr" | .xor => "Xor"

def unOpText : HirUnOp → String
  | .neg => "Neg"
  | .not => "Not"

def boolText (b : Bool) : String := if b then "true" else "false"

variable (fl : FloatOps F)

def ConstValue.display : ConstValue F → String
  | .int v => toString v.toInt
  | .float v => fl.display v
  | .bool v => boolText v
  | .char v => "'" ++ v.toString ++ "'"
  | .str v => "\"" ++ v ++ "\""

/-- The integer as an `i64`, if it is one. -/
def fit (n : ℤ) : Option Int64 :=
  if -2 ^ 63 ≤ n ∧ n < 2 ^ 63 then some (Int64.ofInt n) else none

def checkedNeg (a : Int64) : Option Int64 := fit (-a.toInt)

def checkedAdd (a b : Int64) : Option Int64 := fit (a.toInt + b.toInt)

def checkedSub (a b : Int64) : Option Int64 := fit (a.toInt - b.toInt)

def checkedMul (a b : Int64) : Option Int64 := fit (a.toInt * b.toInt)

def checkedDiv (a b : Int64) : Option Int64 :=
  if b = 0 then none else fit (a.toInt.tdiv b.toInt)

/-- The remainder overflows where the quotient does. -/
def checkedRem (a b : Int64) : Option Int64 :=
  if b = 0 then none else (fit (a.toInt.tdiv b.toInt)).bind fun _ => fit (a.toInt.tmod b.toInt)

theorem fit_eq_some {n : ℤ} {k : Int64} : fit n = some k ↔ k.toInt = n := by
  unfold fit
  have hlow := k.le_toInt
  have hhigh := k.toInt_lt
  constructor
  · intro h
    split at h
    · rename_i hn
      rw [← Option.some.inj h]
      exact Int64.toInt_ofInt_of_le hn.1 hn.2
    · cases h
  · intro h
    rw [if_pos (by omega), ← h, Int64.ofInt_toInt]

theorem checkedAdd_eq_some {a b k : Int64} :
    checkedAdd a b = some k ↔ k.toInt = a.toInt + b.toInt := fit_eq_some

/-! ## Evaluation -/

abbrev Eval := Except ConstEvalError

/-- `.map(Int).ok_or(Overflow)`. -/
def intOr : Option Int64 → Eval (ConstValue F)
  | some v => .ok (.int v)
  | none => .error .overflow

def shiftOutOfRange : ConstEvalError := .typeMismatch "shift amount out of range"

/-- `eval_binary_op`. -/
def evalBinaryOp : HirBinOp → ConstValue F → ConstValue F → Eval (ConstValue F)
  -- integer arithmetic
  | .add, .int a, .int b => intOr (checkedAdd a b)
  | .sub, .int a, .int b => intOr (checkedSub a b)
  | .mul, .int a, .int b => intOr (checkedMul a b)
  | .div, .int a, .int b => if b = 0 then .error .divisionByZero else intOr (checkedDiv a b)
  | .mod, .int a, .int b => if b = 0 then .error .divisionByZero else intOr (checkedRem a b)
  -- float arithmetic
  | .add, .float a, .float b => .ok (.float (fl.add a b))
  | .sub, .float a, .float b => .ok (.float (fl.sub a b))
  | .mul, .float a, .float b => .ok (.float (fl.mul a b))
  | .div, .float a, .float b => .ok (.float (fl.div a b))
  | .mod, .float a, .float b => .ok (.float (fl.rem a b))
  -- shifts and bits; a left shift drops the high bits
  | .shl, .int a, .int b =>
    if 0 ≤ b ∧ b ≤ 63 then .ok (.int (a <<< b)) else .error shiftOutOfRange
  | .shr, .int a, .int b =>
    if 0 ≤ b ∧ b ≤ 63 then .ok (.int (a >>> b)) else .error shiftOutOfRange
  | .bitAnd, .int a, .int b => .ok (.int (a &&& b))
  | .bitOr, .int a, .int b => .ok (.int (a ||| b))
  | .xor, .int a, .int b => .ok (.int (a ^^^ b))
  -- comparisons
  | .lt, .int a, .int b => .ok (.bool (a < b))
  | .le, .int a, .int b => .ok (.bool (a ≤ b))
  | .gt, .int a, .int b => .ok (.bool (b < a))
  | .ge, .int a, .int b => .ok (.bool (b ≤ a))
  | .eq, .int a, .int b => .ok (.bool (a = b))
  | .ne, .int a, .int b => .ok (.bool (a ≠ b))
  | .lt, .float a, .float b => .ok (.bool (fl.lt a b))
  | .le, .float a, .float b => .ok (.bool (fl.le a b))
  | .gt, .float a, .float b => .ok (.bool (fl.lt b a))
  | .ge, .float a, .float b => .ok (.bool (fl.le b a))
  | .eq, .float a, .float b => .ok (.bool (fl.eq a b))
  | .ne, .float a, .float b => .ok (.bool (!fl.eq a b))
  -- booleans
  | .and, .bool a, .bool b => .ok (.bool (a && b))
  | .or, .bool a, .bool b => .ok (.bool (a || b))
  | .eq, .bool a, .bool b => .ok (.bool (a = b))
  | .ne, .bool a, .bool b => .ok (.bool (a ≠ b))
  -- strings
  | .add, .str a, .str b => .ok (.str (a ++ b))
  | .eq, .str a, .str b => .ok (.bool (a = b))
  | .ne, .str a, .str b => .ok (.bool (a ≠ b))
  | op, l, r =>
    .error (.typeMismatch
      ("cannot apply " ++ binOpText op ++ " to " ++ l.display fl ++ " and " ++ r.display fl))

/-- The last component of the name of a type. -/
def targetName : HirType → String
  | .name path | .generic path => path.getLast?.getD ""
  | .typeParam name => name

/-- `char::from_u32(v as u32)`, which reads the low 32 bits. -/
def charOfI64 (v : Int64) : Option Char :=
  let n := (v.toInt % 2 ^ 32).toNat
  if n.isValidChar then some (Char.ofNat n) else none

/-- `eval_cast`. -/
def evalCast (ty : HirType) (val : ConstValue F) : Eval (ConstValue F) :=
  let unsupported : Eval (ConstValue F) :=
    .error (.typeMismatch ("unsupported cast to '" ++ targetName ty ++ "'"))
  if targetName ty = "Int" ∨ targetName ty = "int" then
    match val with
    | .int v => .ok (.int v)
    | .float v => .ok (.int (fl.toI64 v))
    | .bool v => .ok (.int (if v then 1 else 0))
    | .char v => .ok (.int (Int64.ofNat v.toNat))
    | .str _ => unsupported
  else if targetName ty = "Float" ∨ targetName ty = "float" then
    match val with
    | .float v => .ok (.float v)
    | .int v => .ok (.float (fl.ofI64 v))
    | _ => unsupported
  else if targetName ty = "Bool" ∨ targetName ty = "bool" then
    match val with
    | .bool v => .ok (.bool v)
    | .int v => .ok (.bool (v ≠ 0))
    | _ => unsupported
  else if targetName ty = "Char" ∨ targetName ty = "char" then
    match val with
    | .char v => .ok (.char v)
    | .int v =>
      match charOfI64 v with
      | some c => .ok (.char c)
      | none => .error (.typeMismatch ("invalid character code " ++ toString v.toInt))
    | _ => unsupported
  else if targetName ty = "String" then
    match val with
    | .str v => .ok (.str v)
    | .int v => .ok (.str (toString v.toInt))
    | .float v => .ok (.str (fl.display v))
    | .bool v => .ok (.str (boolText v))
    | .char v => .ok (.str v.toString)
  else unsupported

/-- `eval_const_expr`. -/
def evalConstExpr (ctx : ConstEvalContext F) : HirExpr F → Eval (ConstValue F)
  | .int value => .ok (.int value)
  | .float value => .ok (.float value)
  | .bool value => .ok (.bool value)
  | .char value => .ok (.char value)
  | .str value => .ok (.str value)
  | .ident name =>
    if name ∈ ctx.evaluating then .error (.cyclicReference name)
    else
      match ctx.constants name with
      | some v => .ok v
      | none => .error (.undefinedReference name)
  | .unary op expr => do
    match op, ← evalConstExpr ctx expr with
    | .neg, .int v => intOr (checkedNeg v)
    | .neg, .float v => .ok (.float (fl.neg v))
    | .not, .bool v => .ok (.bool !v)
    | .not, .int v => .ok (.int (~~~v))
    | op, v =>
      .error (.typeMismatch ("cannot apply " ++ unOpText op ++ " to " ++ v.display fl))
  | .binary left op right => do
    let lhs ← evalConstExpr ctx left
    let rhs ← evalConstExpr ctx right
    evalBinaryOp fl op lhs rhs
  | .conditional cond thenExpr elseExpr => do
    match ← evalConstExpr ctx cond with
    | .bool true => evalConstExpr ctx thenExpr
    | .bool false => evalConstExpr ctx elseExpr
    | _ => .error (.typeMismatch "ternary condition must be boolean")
  | .cast ty expr => do
    evalCast fl ty (← evalConstExpr ctx expr)
  | .nonConst kind => .error (.notConstant kind.message)

/-- `eval_integral_const`. -/
def evalIntegralConst (ctx : ConstEvalContext F) (expr : HirExpr F) :
    Eval Int64 := do
  match ← evalConstExpr fl ctx expr with
  | .int v => .ok v
  | .bool v => .ok (if v then 1 else 0)
  | other => .error (.typeMismatch ("expected integral type, got " ++ other.display fl))

end Arth.ConstEval
