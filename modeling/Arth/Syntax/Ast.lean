import Arth.Vm.Ops

/-!
# The syntax tree

`ast.rs`: expressions, patterns and statements, without spans and documentation. A block is
a list of statements.
-/

namespace Arth.Ast

/-- A dotted name with its generic arguments. -/
inductive NamePath where
  | mk (path : List String) (typeArgs : List NamePath)

def NamePath.path : NamePath → List String
  | .mk path _ => path

inductive BinOp where
  | add | sub | mul | div | mod | shl | shr | lt | le | gt | ge | eq | ne | and | or
  | bitAnd | bitOr | bitXor
  deriving DecidableEq

inductive UnOp where
  | neg | not
  deriving DecidableEq

inductive AssignOp where
  | add | sub | mul | div | mod | shl | shr | and | or | xor
  deriving DecidableEq

structure Param where
  name : String
  ty : NamePath

mutual

inductive Expr where
  | int (n : Int64)
  | float (x : F64)
  | str (s : String)
  | char (c : Char)
  | bool (b : Bool)
  | ident (name : String)
  | await (e : Expr)
  | cast (ty : NamePath) (e : Expr)
  | fnLiteral (params : List Param) (body : List Stmt)
  | ternary (cond thenExpr elseExpr : Expr)
  | binary (left : Expr) (op : BinOp) (right : Expr)
  | unary (op : UnOp) (e : Expr)
  | call (callee : Expr) (args : List Expr)
  | member (obj : Expr) (name : String)
  | optionalMember (obj : Expr) (name : String)
  | index (obj idx : Expr)
  | listLit (items : List Expr)
  | mapLit (pairs : List (Expr × Expr)) (spread : Option Expr)
  | structLit (typeName : Expr) (fields : List (String × Expr)) (spread : Option Expr)

inductive Pattern where
  | wildcard
  | binding (name : String)
  | literal (e : Expr)
  | variant (enumTy : NamePath) (name : String) (payloads : List Pattern)

inductive Stmt where
  | printStr (s : String)
  | printExpr (e : Expr)
  | printRawStr (s : String)
  | printRawExpr (e : Expr)
  | ifElse (cond : Expr) (thenBlk : List Stmt) (elseBlk : Option (List Stmt))
  | whileLoop (cond : Expr) (body : List Stmt)
  | forLoop (init : Option Stmt) (cond : Option Expr) (step : Option Stmt) (body : List Stmt)
  | labeled (label : String) (stmt : Stmt)
  | switch (expr : Expr) (cases : List (Expr × List Stmt))
      (patternCases : List (Pattern × List Stmt)) (default : Option (List Stmt))
  | tryCatch (tryBlk : List Stmt) (catches : List (Option NamePath × Option String × List Stmt))
      (finallyBlk : Option (List Stmt))
  | assign (name : String) (expr : Expr)
  | fieldAssign (object : Expr) (field : String) (expr : Expr)
  | assignOp (name : String) (op : AssignOp) (expr : Expr)
  | varDecl (isFinal isShared : Bool) (ty : NamePath) (generics fnParams : List NamePath)
      (name : String) (init : Option Expr)
  | breakLoop (label : Option String)
  | continueLoop (label : Option String)
  | returnExpr (e : Option Expr)
  | throwExpr (e : Expr)
  | panicExpr (e : Expr)
  | block (b : List Stmt)
  | expr (e : Expr)
  | unsafeBlock (b : List Stmt)

end

abbrev Block := List Stmt

end Arth.Ast
