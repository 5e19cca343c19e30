import Arth.Lower.Stmt

/-!
# Lowering of expressions

`lower_expr` and `lower_cond` for literals, locals, operators, the conditional operator and
calls of functions by name. Expressions that the source maps to runtime calls by the name of
their module are calls here.
-/

namespace Arth.Lower

open Ir (Block InstKind Terminator BinOp CmpPred Ty)

inductive HirBinOp where
  | add | sub | mul | div | mod | shl | shr
  | lt | le | gt | ge | eq | ne
  | and | or | bitAnd | bitOr | xor
  deriving DecidableEq

inductive HirUnOp where
  | neg | not
  deriving DecidableEq

inductive HirExpr where
  | int (value : Int64)
  | str (value : String)
  | bool (value : Bool)
  | ident (name : String)
  | conditional (cond thenExpr elseExpr : HirExpr)
  | binary (op : HirBinOp) (left right : HirExpr)
  | unary (op : HirUnOp) (expr : HirExpr)
  | call (name : String) (args : List HirExpr)

/-- The signature of a foreign function. -/
structure ExternSig where
  params : List Ty
  ret : Ty
  returnOwned : Bool
  retTypeName : Option String

variable (externFuncs : String → Option ExternSig)

/-- `register_ffi_owned_drop`. -/
def registerFfiOwnedDrop (name : String) (slot : Ir.Value) (tyName : String) :
    LowerM HirExpr Unit := do
  let st ← get
  set { st with declOrderCounter := st.declOrderCounter + 1 }
  addDropInfo
    { name, slot, tyName
      declOrder := st.declOrderCounter
      allocStrategy := .stack
      moveState := .available
      dropFlagSlot := none
      fieldDropInfo := []
      hasExplicitDeinit := true }

def isStringType (ty : HirType) : Bool := ty = .name ["String"]

def isStringExpr (localTypes : String → Option HirType) : HirExpr → Bool
  | .str _ => true
  | .ident name => ((localTypes name).map isStringType).getD false
  | .binary .add left _ => isStringExpr localTypes left
  | _ => false

/-- The instruction of an operator, `&&` and `||` among them. -/
def binaryKind (isString : Bool) (l r : Ir.Value) : HirBinOp → InstKind
  | .add => if isString then .strConcat l r else .binary .add l r
  | .sub => .binary .sub l r
  | .mul => .binary .mul l r
  | .div => .binary .div l r
  | .mod => .binary .mod l r
  | .shl => .binary .shl l r
  | .shr => .binary .shr l r
  | .lt => .cmp .lt l r
  | .le => .cmp .le l r
  | .gt => .cmp .gt l r
  | .ge => .cmp .ge l r
  | .eq => .cmp .eq l r
  | .ne => .cmp .ne l r
  | .and | .bitAnd => .binary .and l r
  | .or | .bitOr => .binary .or l r
  | .xor => .binary .xor l r

def lowerIdent (name : String) : LowerM HirExpr Ir.Value := do
  let st ← get
  match st.locals name with
  | some slot =>
    let v ← emit (.load slot)
    if name ∈ st.sharedLocals then emit (.call "__arth_shared_load" [v] .i64) else pure v
  | none => emit (.constI64 0)

/-- A call of a function by name, of a local as a closure, or of a foreign function. Inside a
`try` statement a call by name ends its block. -/
def lowerCall (name : String) (args : List Ir.Value) : LowerM HirExpr Ir.Value := do
  let st ← get
  if (st.locals name).isSome then
    let closure ← lowerIdent name
    emit (.closureCall closure args .i64)
  else
    match externFuncs name with
    | some sig => do
      let result ← emit (.externCall name args sig.params sig.ret)
      if sig.returnOwned && sig.ret ≠ .void then
        let slot ← emit .alloca
        let _ ← emit (.store slot result)
        registerFfiOwnedDrop ("__ffi_owned_" ++ name ++ "_" ++ toString result) slot
          (sig.retTypeName.getD "FFI")
        emit (.load slot)
      else pure result
    | none =>
      match st.unwindTarget with
      | some unwind => do
        let res ← freshValue
        let normal ← newBlock "after_invoke"
        setTerm (.invoke name args .i64 (some res) normal unwind)
        setCur normal
        return res
      | none => emit (.call name args .i64)

/-- `lower_cond` for `&&`, from the lowerings of its operands. -/
def lowerAnd (left right : LowerM HirExpr Ir.Value) : LowerM HirExpr Ir.Value := do
  let slot ← emit .alloca
  let lval ← left
  let rhsB ← newBlock "and_rhs"
  let falseB ← newBlock "and_false"
  let joinB ← newBlock "and_join"
  setTerm (.condBr lval rhsB falseB)
  setCur rhsB
  let rval ← right
  let _ ← emit (.store slot rval)
  setTerm (.br joinB)
  setCur falseB
  let z0 ← emit (.constI64 0)
  let o1 ← emit (.constI64 1)
  let fval ← emit (.cmp .eq z0 o1)
  let _ ← emit (.store slot fval)
  setTerm (.br joinB)
  setCur joinB
  emit (.load slot)

/-- `lower_cond` for `||`. -/
def lowerOr (left right : LowerM HirExpr Ir.Value) : LowerM HirExpr Ir.Value := do
  let slot ← emit .alloca
  let lval ← left
  let trueB ← newBlock "or_true"
  let rhsB ← newBlock "or_rhs"
  let joinB ← newBlock "or_join"
  setTerm (.condBr lval trueB rhsB)
  setCur trueB
  let o1a ← emit (.constI64 1)
  let o1b ← emit (.constI64 1)
  let tval ← emit (.cmp .eq o1a o1b)
  let _ ← emit (.store slot tval)
  setTerm (.br joinB)
  setCur rhsB
  let rval ← right
  let _ ← emit (.store slot rval)
  setTerm (.br joinB)
  setCur joinB
  emit (.load slot)

/-- The conditional operator, from the lowerings of its parts. -/
def lowerConditional (cond thenExpr elseExpr : LowerM HirExpr Ir.Value) :
    LowerM HirExpr Ir.Value := do
  let slot ← emit .alloca
  let cval ← cond
  let thenB ← newBlock "cond_then"
  let elseB ← newBlock "cond_else"
  let joinB ← newBlock "cond_join"
  setTerm (.condBr cval thenB elseB)
  setCur thenB
  let tv ← thenExpr
  let _ ← emit (.store slot tv)
  setTerm (.br joinB)
  setCur elseB
  let fv ← elseExpr
  let _ ← emit (.store slot fv)
  setTerm (.br joinB)
  setCur joinB
  emit (.load slot)

def lowerUnary (v : LowerM HirExpr Ir.Value) : HirUnOp → LowerM HirExpr Ir.Value
  | .neg => do
    let v ← v
    let zeroVal ← emit (.constI64 0)
    emit (.binary .sub zeroVal v)
  | .not => do
    let v ← v
    let zeroVal ← emit (.constI64 0)
    emit (.cmp .eq v zeroVal)

def lowerBinary (left right : LowerM HirExpr Ir.Value) (kind : Bool → Ir.Value → Ir.Value → InstKind)
    (isString : (String → Option HirType) → Bool) : LowerM HirExpr Ir.Value := do
  let l ← left
  let r ← right
  emit (kind (isString (← get).localTypes) l r)

/-- The condition of an expression that is no operator: its value against zero. -/
def lowerNonZero (v : LowerM HirExpr Ir.Value) : LowerM HirExpr Ir.Value := do
  let v ← v
  let zeroVal ← emit (.constI64 0)
  emit (.cmp .ne v zeroVal)

/-- A value, or its comparison with zero if it is to be a condition. -/
def orNonZero (asCond : Bool) (v : LowerM HirExpr Ir.Value) : LowerM HirExpr Ir.Value :=
  if asCond then lowerNonZero v else v

mutual

/-- `lower_expr` and `lower_cond`, which call each other on the same expression, as one
recursion. -/
def lowerAs : Bool → HirExpr → LowerM HirExpr Ir.Value
  | asCond, .int value => orNonZero asCond (emit (.constI64 value))
  | asCond, .str value => orNonZero asCond do emit (.constStr (← internStr value))
  | _, .bool value => emit (.constI64 (if value then 1 else 0))
  | asCond, .ident name => orNonZero asCond (lowerIdent name)
  | asCond, .conditional cond thenExpr elseExpr =>
    orNonZero asCond <|
      lowerConditional (lowerAs true cond) (lowerAs false thenExpr) (lowerAs false elseExpr)
  | true, .binary .and left right => lowerAnd (lowerAs true left) (lowerAs true right)
  | true, .binary .or left right => lowerOr (lowerAs true left) (lowerAs true right)
  | _, .binary op left right =>
    lowerBinary (lowerAs false left) (lowerAs false right)
      (fun isString l r => binaryKind isString l r op)
      fun localTypes => isStringExpr localTypes left || isStringExpr localTypes right
  | _, .unary op expr => lowerUnary (lowerAs false expr) op
  | asCond, .call name args =>
    orNonZero asCond do lowerCall externFuncs name (← lowerArgs args)

/-- The arguments of a call, from the left. -/
def lowerArgs : List HirExpr → LowerM HirExpr (List Ir.Value)
  | [] => return []
  | e :: es => do
    let v ← lowerAs false e
    let vs ← lowerArgs es
    return v :: vs

end

/-- `lower_expr`. -/
def lowerExpr (e : HirExpr) : LowerM HirExpr Ir.Value := lowerAs externFuncs false e

/-- `lower_cond`. -/
def lowerCond (e : HirExpr) : LowerM HirExpr Ir.Value := lowerAs externFuncs true e

/-- `eval_int_const`. -/
def evalIntConst : HirExpr → Option Int64
  | .int value => some value
  | .bool value => some (if value then 1 else 0)
  | _ => none

def strLit : HirExpr → Option String
  | .str value => some value
  | _ => none

/-- The lowering of expressions that the statements use. -/
def hirExprs : Exprs HirExpr where
  lowerExpr := lowerExpr externFuncs
  lowerCond := lowerCond externFuncs
  lowerEffect e := do let _ ← lowerExpr externFuncs e
  intConst := evalIntConst
  strLit := strLit

end Arth.Lower
