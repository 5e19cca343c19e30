import Arth.Syntax.Ast

/-!
# Definite assignment

`defassign.rs` and what `typecheck_stmt` and `type_of_expr` in `typeck/mod.rs` do with it: the
state of each name, joined where paths meet, and the names that are tested where an expression
is checked. Diagnostics about types, borrows, moves and labels are left out; they only reject
more. What the code looks up outside the body is in `Tables`.

* `InitState`, `InitEnv` — a flat map from names to states.
* `typeTests` — the identifiers that `type_of_expr` tests.
* `checkStmt`, `checkBlock`, `checkBody` — the analysis of a body.
-/

namespace Arth.DefAssign

open Arth.Ast

inductive InitState where
  | definitelyInit
  | possiblyInit
  | notInit
  deriving DecidableEq

def InitState.join : InitState → InitState → InitState
  | .definitelyInit, .definitelyInit => .definitelyInit
  | .notInit, .notInit => .notInit
  | _, _ => .possiblyInit

/-- The hash map of the analysis. -/
abbrev InitEnv := String → Option InitState

namespace InitEnv

def new : InitEnv := fun _ => none

def declare (a : InitEnv) (name : String) : InitEnv :=
  fun y => if y = name then some .notInit else a y

def declareInitialized (a : InitEnv) (name : String) : InitEnv :=
  fun y => if y = name then some .definitelyInit else a y

/-- `initialize`: a name that was never declared stays unknown. -/
def setInitialized (a : InitEnv) (name : String) : InitEnv :=
  fun y => if y = name then (a y).map fun _ => .definitelyInit else a y

def isDefinitelyInit (a : InitEnv) (name : String) : Bool := a name == some .definitelyInit

/-- A name that only one side knows counts as uninitialised on the other. -/
def join (a b : InitEnv) : InitEnv := fun y =>
  if (a y).isNone && (b y).isNone then none
  else some (((a y).getD .notInit).join ((b y).getD .notInit))

/-- The join of the branches, if there are any. -/
def joinAll : List InitEnv → Option InitEnv
  | [] => none
  | a :: rest => some (rest.foldl join a)

end InitEnv

/-- What the analysis looks up: variants of enums, callees with a visible signature, struct
types, the result of the exhaustiveness check, the names that `check_moves_in_expr` tests, and
the variables that a lambda captures. -/
structure Tables where
  enumVariant : String → String → Bool
  hasCandidates : Expr → Bool
  knownStruct : NamePath → Bool
  exhaustive : Expr → List Pattern → Bool
  moveTests : Expr → List String
  captures : List Param → List Stmt → List String

/-! ## The names an expression tests -/

def collectCalleePath : Expr → Option (List String)
  | .ident id => some [id]
  | .member obj name => (collectCalleePath obj).map (· ++ [name])
  | _ => none

/-- `Enum.tag`, `Enum.get` and `Enum.payloadCount`, which are typed without a look at the
arguments. -/
def isEnumHelper (callee : Expr) (args : List Expr) : Bool :=
  match (collectCalleePath callee).map List.reverse with
  | some (fname :: recv :: _) =>
    recv == "Enum" && ((fname == "tag" && 1 ≤ args.length) ||
      (fname == "get" && 2 ≤ args.length) || (fname == "payloadCount" && 1 ≤ args.length))
  | _ => false

def looksType (name : String) : Bool := name.toList.head?.any Char.isUpper

def Tables.isEnumConstructor (tb : Tables) : Expr → Bool
  | .member (.ident enumName) variant => looksType enumName && tb.enumVariant enumName variant
  | _ => false

mutual

/-- The identifiers that `type_of_expr` comes to. The object of `x.f` is looked up without a
test, and a lambda's body is not entered. -/
def Tables.typeTests (tb : Tables) : Expr → List String
  | .int _ | .float _ | .str _ | .char _ | .bool _ | .fnLiteral _ _ => []
  | .ident id => [id]
  | .await inner => tb.typeTests inner
  | .cast _ inner => tb.typeTests inner
  | .unary _ inner => tb.typeTests inner
  | .binary l _ r => tb.typeTests l ++ tb.typeTests r
  | .call callee args =>
    if isEnumHelper callee args || tb.isEnumConstructor callee then []
    else if tb.hasCandidates callee then tb.typeTestsOfList args
    else tb.typeTests callee
  | .member (.ident _) _ => []
  | .member obj _ => tb.typeTests obj
  | .index arr idx => tb.typeTests arr ++ tb.typeTests idx
  | .optionalMember obj _ => tb.typeTests obj
  | .ternary c t f => tb.typeTests c ++ (tb.typeTests t ++ tb.typeTests f)
  | .listLit items => tb.typeTestsOfList items
  | .mapLit pairs spread => tb.typeTestsOfOption spread ++ tb.typeTestsOfPairs pairs
  | .structLit _ fields spread => tb.typeTestsOfOption spread ++ tb.typeTestsOfFields fields

def Tables.typeTestsOfList (tb : Tables) : List Expr → List String
  | [] => []
  | e :: es => tb.typeTests e ++ tb.typeTestsOfList es

def Tables.typeTestsOfOption (tb : Tables) : Option Expr → List String
  | none => []
  | some e => tb.typeTests e

def Tables.typeTestsOfPairs (tb : Tables) : List (Expr × Expr) → List String
  | [] => []
  | (k, v) :: rest => tb.typeTests k ++ (tb.typeTests v ++ tb.typeTestsOfPairs rest)

def Tables.typeTestsOfFields (tb : Tables) : List (String × Expr) → List String
  | [] => []
  | (_, v) :: rest => tb.typeTests v ++ tb.typeTestsOfFields rest

end

/-- Both walks over an expression. -/
def Tables.exprTests (tb : Tables) (e : Expr) : List String := tb.typeTests e ++ tb.moveTests e

/-- An initialiser or a returned value: of a map literal that stands for a struct, the keys are
field names. -/
def Tables.valueTests (tb : Tables) (ty : NamePath) : Expr → List String
  | .mapLit pairs spread =>
    (if tb.knownStruct ty then
      tb.typeTestsOfOption spread ++ tb.typeTestsOfList (pairs.map fun kv => kv.2)
    else tb.typeTests (.mapLit pairs spread)) ++ tb.moveTests (.mapLit pairs spread)
  | e => tb.exprTests e

def startsWithStrConcat : Expr → Bool
  | .str _ => true
  | .binary l .add _ => startsWithStrConcat l
  | _ => false

/-- A printed concatenation that starts with a string literal is not typed. -/
def Tables.printTests (tb : Tables) (e : Expr) : List String :=
  if startsWithStrConcat e then tb.moveTests e else tb.exprTests e

/-! ## Statements -/

/-- The states after a statement, the names in scope, and the diagnostics. -/
structure Outcome where
  init : InitEnv
  scope : List String
  errors : List String

/-- The diagnostics for the names tested: only locals are tested. -/
def useErrors (scope : List String) (a : InitEnv) (names : List String) : List String :=
  (names.filter fun name => scope.contains name && !a.isDefinitelyInit name).map
    fun name => "use of '" ++ name ++ "' before definite initialization"

mutual

def patternBindings : Pattern → List String
  | .wildcard => []
  | .binding name => [name]
  | .literal _ => []
  | .variant _ _ payloads => patternBindingsOfList payloads

def patternBindingsOfList : List Pattern → List String
  | [] => []
  | p :: ps => patternBindings p ++ patternBindingsOfList ps

end

mutual

/-- The literals of a pattern, which are typed as expressions. -/
def Tables.patternTests (tb : Tables) : Pattern → List String
  | .wildcard => []
  | .binding _ => []
  | .literal e => tb.typeTests e
  | .variant _ _ payloads => tb.patternTestsOfList payloads

def Tables.patternTestsOfList (tb : Tables) : List Pattern → List String
  | [] => []
  | p :: ps => tb.patternTests p ++ tb.patternTestsOfList ps

end

/-- Names declared with a value, in turn. -/
def declareAll (scope : List String) (a : InitEnv) (names : List String) :
    List String × InitEnv :=
  (names.reverse ++ scope, names.foldl InitEnv.declareInitialized a)

/-- What the branches of a switch leave: with a default, or patterns that cover the type, one of
them is taken. -/
def joinBranches (before : InitEnv) (complete : Bool) (branches : List InitEnv) : InitEnv :=
  if complete then (InitEnv.joinAll branches).getD before
  else ((InitEnv.joinAll branches).map before.join).getD before

/-- What a try statement leaves. Catches and finally start from the state before it. -/
def joinTry (afterTry : InitEnv) (catches : List InitEnv) (afterFinally : Option InitEnv) :
    InitEnv :=
  let combined := ((InitEnv.joinAll catches).map afterTry.join).getD afterTry
  (afterFinally.map combined.join).getD combined

mutual

/-- `typecheck_stmt` with the return type of the function. -/
def Tables.checkStmt (tb : Tables) (ret : Option NamePath) (scope : List String) (a : InitEnv) :
    Stmt → Outcome
  | .printStr _ | .printRawStr _ => ⟨a, scope, []⟩
  | .printExpr e | .printRawExpr e => ⟨a, scope, useErrors scope a (tb.printTests e)⟩
  | .ifElse cond thenBlk elseBlk =>
    let thenOut := tb.checkBlock ret scope a thenBlk
    let elseOut := tb.checkOption ret scope a elseBlk
    ⟨if elseBlk.isSome then thenOut.init.join elseOut.init else a.join thenOut.init, scope,
      useErrors scope a (tb.typeTests cond) ++ (thenOut.errors ++ elseOut.errors)⟩
  | .whileLoop cond body =>
    let bodyOut := tb.checkBlock ret scope a body
    ⟨a.join bodyOut.init, scope, useErrors scope a (tb.exprTests cond) ++ bodyOut.errors⟩
  | .forLoop init cond step body =>
    let initOut := tb.checkOne ret scope a init
    let bodyOut := tb.checkBlock ret initOut.scope initOut.init body
    let stepOut := tb.checkOne ret initOut.scope bodyOut.init step
    ⟨initOut.init.join stepOut.init, scope, initOut.errors ++
        (useErrors initOut.scope initOut.init (cond.elim [] tb.exprTests) ++
          (bodyOut.errors ++ stepOut.errors))⟩
  | .labeled _ stmt => tb.checkStmt ret scope a stmt
  | .switch e cases patternCases default =>
    let caseOuts := tb.checkCases ret scope a cases
    let patternOuts := tb.checkPatternCases ret scope a patternCases
    let defaultOut := tb.checkOption ret scope a default
    let covered := !patternCases.isEmpty && default.isNone &&
      tb.exhaustive e (patternCases.map fun c => c.1)
    ⟨joinBranches a (default.isSome || covered)
        ((caseOuts ++ patternOuts).map (fun out => out.init) ++
          (if default.isSome then [defaultOut.init] else [])), scope,
      useErrors scope a (tb.exprTests e) ++
        ((caseOuts ++ patternOuts).flatMap (fun out => out.errors) ++
          ((if !patternCases.isEmpty && default.isNone && !covered then
            ["non-exhaustive pattern match"] else []) ++ defaultOut.errors))⟩
  | .tryCatch tryBlk catches finallyBlk =>
    let tryOut := tb.checkBlock ret scope a tryBlk
    let catchOuts := tb.checkCatches ret scope a catches
    let finallyOut := tb.checkOption ret scope a finallyBlk
    ⟨joinTry tryOut.init (catchOuts.map fun out => out.init)
        (if finallyBlk.isSome then some finallyOut.init else none),
      scope, tryOut.errors ++ (catchOuts.flatMap (fun out => out.errors) ++ finallyOut.errors)⟩
  | .assign name e =>
    ⟨a.setInitialized name, scope, useErrors scope a (tb.exprTests e) ++
      if scope.contains name then []
      else ["assignment to undeclared local '" ++ name ++ "'"]⟩
  | .fieldAssign (.ident _) _ e => ⟨a, scope, useErrors scope a (tb.exprTests e)⟩
  | .fieldAssign object _ e =>
    ⟨a, scope, useErrors scope a (tb.exprTests e ++ tb.typeTests object)⟩
  | .assignOp name _ e =>
    -- the old value of the target is not tested
    ⟨a.setInitialized name, scope, useErrors scope a (tb.exprTests e) ++
      if scope.contains name then []
      else ["compound assignment to undeclared local '" ++ name ++ "'"]⟩
  | .varDecl _ _ _ _ _ name none => ⟨a.declare name, name :: scope, []⟩
  | .varDecl _ _ ty _ _ name (some e) =>
    ⟨a.declareInitialized name, name :: scope, useErrors scope a (tb.valueTests ty e)⟩
  | .breakLoop _ | .continueLoop _ => ⟨a, scope, []⟩
  | .returnExpr e =>
    ⟨a, scope, useErrors scope a
      (e.elim [] fun e => ret.elim (tb.exprTests e) fun ty => tb.valueTests ty e)⟩
  | .throwExpr e => ⟨a, scope, useErrors scope a (tb.exprTests e)⟩
  | .panicExpr e => ⟨a, scope, useErrors scope a (tb.exprTests e)⟩
  | .expr e => ⟨a, scope, useErrors scope a (tb.exprTests e)⟩
  | .block b =>
    let out := tb.checkBlock ret scope a b
    ⟨out.init, scope, out.errors⟩
  | .unsafeBlock b =>
    let out := tb.checkBlock ret scope a b
    ⟨out.init, scope, out.errors⟩

def Tables.checkBlock (tb : Tables) (ret : Option NamePath) (scope : List String) (a : InitEnv) :
    List Stmt → Outcome
  | [] => ⟨a, scope, []⟩
  | st :: rest =>
    let out := tb.checkStmt ret scope a st
    let restOut := tb.checkBlock ret out.scope out.init rest
    ⟨restOut.init, restOut.scope, out.errors ++ restOut.errors⟩

def Tables.checkOption (tb : Tables) (ret : Option NamePath) (scope : List String)
    (a : InitEnv) : Option (List Stmt) → Outcome
  | none => ⟨a, scope, []⟩
  | some b => tb.checkBlock ret scope a b

def Tables.checkOne (tb : Tables) (ret : Option NamePath) (scope : List String) (a : InitEnv) :
    Option Stmt → Outcome
  | none => ⟨a, scope, []⟩
  | some st => tb.checkStmt ret scope a st

/-- Every case starts from the state before the switch. -/
def Tables.checkCases (tb : Tables) (ret : Option NamePath) (scope : List String) (a : InitEnv) :
    List (Expr × List Stmt) → List Outcome
  | [] => []
  | (_, b) :: rest => tb.checkBlock ret scope a b :: tb.checkCases ret scope a rest

def Tables.checkPatternCases (tb : Tables) (ret : Option NamePath) (scope : List String)
    (a : InitEnv) : List (Pattern × List Stmt) → List Outcome
  | [] => []
  | (p, b) :: rest =>
    let bound := declareAll scope a (patternBindings p)
    let out := tb.checkBlock ret bound.1 bound.2 b
    ⟨out.init, out.scope, useErrors scope a (tb.patternTests p) ++ out.errors⟩ ::
      tb.checkPatternCases ret scope a rest

def Tables.checkCatches (tb : Tables) (ret : Option NamePath) (scope : List String)
    (a : InitEnv) : List (Option NamePath × Option String × List Stmt) → List Outcome
  | [] => []
  | (_, var, b) :: rest =>
    let bound := declareAll scope a var.toList
    tb.checkBlock ret bound.1 bound.2 b :: tb.checkCatches ret scope a rest

end

/-- `typecheck_func`: parameters are initialised. -/
def Tables.checkBody (tb : Tables) (ret : Option NamePath) (params : List String)
    (body : List Stmt) : List String :=
  let bound := declareAll [] InitEnv.new params
  (tb.checkBlock ret bound.1 bound.2 body).errors

end Arth.DefAssign
