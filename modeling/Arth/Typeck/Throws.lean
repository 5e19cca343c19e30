import Arth.Syntax.Ast

/-!
# The check of `throws` clauses

`validate_exceptions` in `typeck/mod.rs`. Types are compared by the text of their names, and
"Error" stands for every exception. A hash map is the list of its entries in the order of its
iteration, a hash set the list of what was inserted.

* `lookupCalleeThrows` — the clause found for a callee, by bare names.
* `collectThrownTypesInBlock` — what a try block throws, for the exhaustiveness of its catches.
* `walkBlock` — the diagnostics of a block, given the types caught around it and the catch
  variables in scope.
-/

namespace Arth.Throws

open Arth.Ast

structure FuncSig where
  name : String
  throws : List NamePath

structure FuncDecl where
  sig : FuncSig
  body : Option Block

inductive Decl where
  | function (f : FuncDecl)
  | moduleDecl (name : String) (items : List FuncDecl)
  | other

/-- A clause of a try statement: the type, the variable and the block. -/
abbrev Catch := Option NamePath × Option String × List Stmt

/-- What the check knows about the program: the signatures of each module, keyed by package
and name, and the symbols of each package. -/
structure Tables where
  currentPkg : String
  moduleIndex : List ((String × String) × List FuncSig)
  packages : List (String × List String)

def typeText (np : NamePath) : String := ".".intercalate np.path

def throwsListText (sig : FuncSig) : List String := sig.throws.map typeText

/-- Whether `lookup_symbol_kind` finds the name. -/
def Tables.lookupSymbolKind (tb : Tables) (namePath : List String) : Bool :=
  match namePath with
  | [] => false
  | [name] => ((tb.packages.lookup tb.currentPkg).getD []).contains name
  | _ =>
    ((tb.packages.lookup (".".intercalate namePath.dropLast)).getD []).contains
      (namePath.getLastD "")

/-- A type that a clause may name: "Error", or a symbol of the program. -/
def Tables.knownType (tb : Tables) (np : NamePath) : Bool :=
  np.path == ["Error"] || tb.lookupSymbolKind np.path

def throwsOf (sigs : List FuncSig) (name : String) : Option (List String) :=
  (sigs.find? fun sig => sig.name == name).map throwsListText

/-- `Module.method` is looked for in the current package and then in every package, a bare
name in all modules of the current package. -/
def Tables.lookupCalleeThrows (tb : Tables) : Expr → List String
  | .member (.ident moduleName) method =>
    let own := (tb.moduleIndex.lookup (tb.currentPkg, moduleName)).bind (throwsOf · method)
    let other := tb.moduleIndex.findSome? fun entry =>
      if entry.1.2 = moduleName then throwsOf entry.2 method else none
    (own.or other).getD []
  | .ident funcName =>
    (tb.moduleIndex.findSome? fun entry =>
      if entry.1.1 = tb.currentPkg then throwsOf entry.2 funcName else none).getD []
  | _ => []

/-! ## The calls of an expression -/

mutual

/-- The callees of the calls in an expression, in the order in which both walkers meet them.
The bodies of function literals are not entered, and `a?.b` only by one of the walkers. -/
def callees (optional : Bool) : Expr → List Expr
  | .call callee args => callee :: (callees optional callee ++ calleesOfList optional args)
  | .binary l _ r => callees optional l ++ callees optional r
  | .unary _ inner => callees optional inner
  | .ternary c t f => callees optional c ++ (callees optional t ++ callees optional f)
  | .member obj _ => callees optional obj
  | .optionalMember obj _ => if optional then callees optional obj else []
  | .index obj idx => callees optional obj ++ callees optional idx
  | .await inner => callees optional inner
  | .cast _ inner => callees optional inner
  | .listLit items => calleesOfList optional items
  | .mapLit pairs spread => calleesOfPairs optional pairs ++ calleesOfOption optional spread
  | .structLit _ fields spread => calleesOfFields optional fields ++ calleesOfOption optional spread
  | .int _ | .float _ | .str _ | .char _ | .bool _ | .ident _ | .fnLiteral _ _ => []

def calleesOfList (optional : Bool) : List Expr → List Expr
  | [] => []
  | e :: es => callees optional e ++ calleesOfList optional es

def calleesOfOption (optional : Bool) : Option Expr → List Expr
  | none => []
  | some e => callees optional e

def calleesOfPairs (optional : Bool) : List (Expr × Expr) → List Expr
  | [] => []
  | (k, v) :: rest => callees optional k ++ (callees optional v ++ calleesOfPairs optional rest)

def calleesOfFields (optional : Bool) : List (String × Expr) → List Expr
  | [] => []
  | (_, v) :: rest => callees optional v ++ calleesOfFields optional rest

end

/-- `collect_from_expr`. -/
def Tables.collectFromExpr (tb : Tables) (e : Expr) : List String :=
  (callees false e).flatMap tb.lookupCalleeThrows

/-- A type is caught around here or declared; "Error" answers for all of them. -/
def answered (caught declared : List String) (name : String) : Bool :=
  (caught.contains name || caught.contains "Error") ||
    (declared.contains name || declared.contains "Error")

/-- `check_expr_throws`. -/
def Tables.checkExprThrows (tb : Tables) (caught declared : List String) (e : Expr) :
    List String :=
  (callees true e).flatMap fun callee =>
    ((tb.lookupCalleeThrows callee).filter fun name => !answered caught declared name).map
      fun name => "call to function that throws '" ++ name ++
        "' must be caught or declared in throws clause"

/-- The type read off a thrown expression for the exhaustiveness check. -/
def collectedType : Expr → Option String
  | .call (.member (.ident id) _) _ => some id
  | .call (.ident id) _ => some id
  | .structLit (.ident id) _ _ => some id
  | .structLit (.member _ name) _ _ => some name
  | .ident id => some id
  | _ => none

def catchTexts (catches : List Catch) : List String := catches.filterMap fun c => c.1.map typeText

def hasBareCatch (catches : List Catch) : Bool := catches.any fun c => c.1.isNone

def Tables.collectFromOption (tb : Tables) (e : Option Expr) : List String :=
  e.elim [] tb.collectFromExpr

/-- The initialiser of a `for`. -/
def Tables.collectFromInit (tb : Tables) : Stmt → List String
  | .varDecl _ _ _ _ _ _ init => tb.collectFromOption init
  | .assign _ e => tb.collectFromExpr e
  | .expr e => tb.collectFromExpr e
  | _ => []

/-- The step of a `for`. -/
def Tables.collectFromStep (tb : Tables) : Stmt → List String
  | .assign _ e => tb.collectFromExpr e
  | .assignOp _ _ e => tb.collectFromExpr e
  | .expr e => tb.collectFromExpr e
  | _ => []

mutual

def Tables.collectThrownTypes (tb : Tables) : Stmt → List String
  | .throwExpr e => (collectedType e).toList
  | .expr e => tb.collectFromExpr e
  | .varDecl _ _ _ _ _ _ init => tb.collectFromOption init
  | .assign _ e => tb.collectFromExpr e
  | .fieldAssign _ _ e => tb.collectFromExpr e
  | .assignOp _ _ e => tb.collectFromExpr e
  | .returnExpr e => tb.collectFromOption e
  | .ifElse cond thenBlk elseBlk =>
    tb.collectFromExpr cond ++
      (tb.collectThrownTypesInBlock thenBlk ++ tb.collectThrownTypesInOption elseBlk)
  | .whileLoop cond body => tb.collectFromExpr cond ++ tb.collectThrownTypesInBlock body
  | .forLoop init cond step body =>
    init.elim [] tb.collectFromInit ++ (tb.collectFromOption cond ++
      (step.elim [] tb.collectFromStep ++ tb.collectThrownTypesInBlock body))
  | .block b => tb.collectThrownTypesInBlock b
  | .unsafeBlock b => tb.collectThrownTypesInBlock b
  | .switch e cases patternCases default =>
    tb.collectFromExpr e ++ (tb.collectThrownTypesInCases cases ++
      (tb.collectThrownTypesInPatternCases patternCases ++ tb.collectThrownTypesInOption default))
  | .tryCatch tryBlk catches finallyBlk =>
    -- what a clause catches by name does not leave the statement, what a clause throws does
    (if hasBareCatch catches || (catchTexts catches).contains "Error" then []
      else (tb.collectThrownTypesInBlock tryBlk).filter
        fun thrown => !(catchTexts catches).contains thrown) ++
      (tb.collectThrownTypesInCatches catches ++ tb.collectThrownTypesInOption finallyBlk)
  | .printStr _ | .printExpr _ | .printRawStr _ | .printRawExpr _ | .labeled _ _
  | .breakLoop _ | .continueLoop _ | .panicExpr _ => []

def Tables.collectThrownTypesInBlock (tb : Tables) : List Stmt → List String
  | [] => []
  | st :: rest => tb.collectThrownTypes st ++ tb.collectThrownTypesInBlock rest

def Tables.collectThrownTypesInOption (tb : Tables) : Option (List Stmt) → List String
  | none => []
  | some b => tb.collectThrownTypesInBlock b

def Tables.collectThrownTypesInCases (tb : Tables) : List (Expr × List Stmt) → List String
  | [] => []
  | (_, b) :: rest => tb.collectThrownTypesInBlock b ++ tb.collectThrownTypesInCases rest

def Tables.collectThrownTypesInPatternCases (tb : Tables) :
    List (Pattern × List Stmt) → List String
  | [] => []
  | (_, b) :: rest => tb.collectThrownTypesInBlock b ++ tb.collectThrownTypesInPatternCases rest

def Tables.collectThrownTypesInCatches (tb : Tables) : List Catch → List String
  | [] => []
  | (_, _, b) :: rest => tb.collectThrownTypesInBlock b ++ tb.collectThrownTypesInCatches rest

end

/-! ## The walk -/

/-- The catch variables in scope with the types of their clauses, innermost first. -/
abbrev Vars := List (String × String)

/-- The type read off a thrown expression by the walk. -/
def thrownType (vars : Vars) : Expr → Option String
  | .call (.member (.ident id) _) _ => some id
  | .call (.member (.member (.ident _) typeName) _) _ => some typeName
  | .call (.ident id) _ => some id
  | .structLit (.ident id) _ _ => some id
  | .structLit (.member _ name) _ _ => some name
  | .ident id => some ((vars.lookup id).getD id)
  | _ => none

def Catch.bind (vars : Vars) (ty : Option NamePath) (var : Option String) : Vars :=
  match var, ty with
  | some x, some np => (x, typeText np) :: vars
  | _, _ => vars

def undeclaredThrow (declared : List String) (name : String) : String :=
  if declared.isEmpty then
    "throw statement in function that does not declare throws; add 'throws (" ++ name ++
      ")' to the function signature"
  else
    "thrown type '" ++ name ++ "' is not declared in function's throws clause; add '" ++ name ++
      "' to the throws list"

def Tables.unknownCatchTypes (tb : Tables) (catches : List Catch) : List String :=
  ((catches.filterMap fun c => c.1).filter fun np => !tb.knownType np).map
    fun np => "unknown exception type '" ++ typeText np ++ "' in catch clause"

/-- The statements whose labelled form the walk enters. -/
def entersLabeled : Stmt → Bool
  | .block _ | .unsafeBlock _ | .ifElse _ _ _ | .whileLoop _ _ | .forLoop _ _ _ _
  | .switch _ _ _ _ => true
  | _ => false

def Tables.checkOption (tb : Tables) (caught declared : List String) (e : Option Expr) :
    List String :=
  e.elim [] (tb.checkExprThrows caught declared)

mutual

def Tables.walkStmt (tb : Tables) (declared : List String) (caught : List String) (vars : Vars) :
    Stmt → List String
  | .tryCatch tryBlk catches finallyBlk =>
    let localCaught := catchTexts catches ++ caught
    let uncaught :=
      if hasBareCatch catches || localCaught.contains "Error" then []
      else ((tb.collectThrownTypesInBlock tryBlk).filter
        fun thrown => !answered localCaught declared thrown).map
        fun thrown => "exception '" ++ thrown ++ "' thrown in try block is not caught; add 'catch ("
          ++ thrown ++ " e)' or declare in throws clause"
    tb.unknownCatchTypes catches ++ (uncaught ++
      (tb.walkBlock declared localCaught vars tryBlk ++
        (tb.walkCatches declared caught vars catches ++
          tb.walkOption declared caught vars finallyBlk)))
  | .ifElse cond thenBlk elseBlk =>
    tb.checkExprThrows caught declared cond ++
      (tb.walkBlock declared caught vars thenBlk ++ tb.walkOption declared caught vars elseBlk)
  | .whileLoop cond body =>
    tb.checkExprThrows caught declared cond ++ tb.walkBlock declared caught vars body
  | .forLoop _ cond _ body =>
    tb.checkOption caught declared cond ++ tb.walkBlock declared caught vars body
  | .labeled _ stmt => if entersLabeled stmt then tb.walkStmt declared caught vars stmt else []
  | .switch e cases _ default =>
    tb.checkExprThrows caught declared e ++
      (tb.walkCases declared caught vars cases ++ tb.walkOption declared caught vars default)
  | .block b => tb.walkBlock declared caught vars b
  | .unsafeBlock b => tb.walkBlock declared caught vars b
  | .throwExpr e =>
    -- an expression whose type cannot be read off passes
    ((thrownType vars e).toList.filter fun name => !answered caught declared name).map
      (undeclaredThrow declared)
  | .expr e => tb.checkExprThrows caught declared e
  | .varDecl _ _ _ _ _ _ init => tb.checkOption caught declared init
  | .assign _ e => tb.checkExprThrows caught declared e
  | .returnExpr e => tb.checkOption caught declared e
  | .fieldAssign _ _ e => tb.checkExprThrows caught declared e
  | .assignOp _ _ e => tb.checkExprThrows caught declared e
  | .breakLoop _ | .continueLoop _ => []
  | .printStr _ | .printExpr _ | .printRawStr _ | .printRawExpr _ | .panicExpr _ => []

def Tables.walkBlock (tb : Tables) (declared : List String) (caught : List String) (vars : Vars) :
    List Stmt → List String
  | [] => []
  | st :: rest =>
    tb.walkStmt declared caught vars st ++ tb.walkBlock declared caught vars rest

def Tables.walkOption (tb : Tables) (declared : List String) (caught : List String) (vars : Vars) :
    Option (List Stmt) → List String
  | none => []
  | some b => tb.walkBlock declared caught vars b

def Tables.walkCases (tb : Tables) (declared : List String) (caught : List String) (vars : Vars) :
    List (Expr × List Stmt) → List String
  | [] => []
  | (_, b) :: rest =>
    tb.walkBlock declared caught vars b ++ tb.walkCases declared caught vars rest

def Tables.walkCatches (tb : Tables) (declared : List String) (caught : List String)
    (vars : Vars) : List Catch → List String
  | [] => []
  | (ty, var, b) :: rest =>
    tb.walkBlock declared caught (Catch.bind vars ty var) b ++
      tb.walkCatches declared caught vars rest

end

def Tables.checkFunction (tb : Tables) (f : FuncDecl) : List String :=
  ((f.sig.throws.filter fun np => !tb.knownType np).map
    fun np => "unknown exception type '" ++ typeText np ++ "' in throws") ++
    f.body.elim [] (tb.walkBlock (throwsListText f.sig) [] [])

/-- The functions of a file that the check looks at. -/
def Decl.functions : Decl → List FuncDecl
  | .function f => [f]
  | .moduleDecl _ items => items
  | .other => []

/-- The diagnostics of `validate_exceptions` for a file. -/
def Tables.validateExceptions (tb : Tables) (decls : List Decl) : List String :=
  (decls.flatMap Decl.functions).flatMap tb.checkFunction

end Arth.Throws
