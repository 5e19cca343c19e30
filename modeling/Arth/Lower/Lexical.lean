import Arth.Lower.Expr

/-!
# Lexical scoping

* `Scope` — the variables in scope at a place of the source, with their slots.
* `lowerFuncScoped` — the lowering of a function beside its scopes. It fails where a variable
  in scope does not denote its slot in the table of the lowering: before an expression is
  lowered, after a statement, and at the end of a block.
* `FuncOk` — no declaration hides a variable that the lowering looks up again.
-/

namespace Arth.Lower

open Ir (Block InstKind Terminator BlockData BinOp)

variable {E : Type}

/-- The names in scope, the innermost declaration first, with the slots of the variables. The
name of a function has no slot. -/
abbrev Scope := List (String × Option Ir.Value)

def Scope.names (env : Scope) : List String := env.map (·.1)

def Scope.slot (env : Scope) (name : String) : Option Ir.Value := (env.lookup name).join

/-- The scope after the declaration of `names`, which have just got their slots. -/
def Scope.declare (env : Scope) (names : List String) (st : LowerState E) : Scope :=
  names.map (fun name => (name, st.locals name)) ++ env

/-- The names among `names` that are in scope denote their own slots. -/
def Denotes (env : Scope) (names : List String) (st : LowerState E) : Prop :=
  ∀ name ∈ names, name ∈ env.names → st.locals name = env.slot name

instance (env : Scope) (names : List String) (st : LowerState E) :
    Decidable (Denotes env names st) :=
  inferInstanceAs (Decidable (∀ name ∈ names, name ∈ env.names → st.locals name = env.slot name))

/-- Lowering goes on only if the names denote their own slots. -/
def checkNames (env : Scope) (names : List String) : LowerM E Unit :=
  fun st => if Denotes env names st then some ((), st) else none

def checkScope (env : Scope) : LowerM E Unit := checkNames env env.names

/-- A variable of a pattern has a slot of its own, not that of a variable it hides. -/
def checkOwn (env : Scope) (names : List String) : LowerM E Unit :=
  fun st => if ∀ name ∈ names, st.locals name ≠ env.slot name then some ((), st) else none

mutual

/-- The names an expression mentions, of variables and functions. -/
def HirExpr.names : HirExpr → List String
  | .int _ | .str _ | .bool _ => []
  | .ident name => [name]
  | .conditional cond thenExpr elseExpr => cond.names ++ thenExpr.names ++ elseExpr.names
  | .binary _ left right => left.names ++ right.names
  | .unary _ expr => expr.names
  | .call name args => name :: argNames args

def argNames : List HirExpr → List String
  | [] => []
  | e :: es => e.names ++ argNames es

end

variable (x : Exprs E) (names : E → List String)

/-- Expressions are lowered where every name in scope denotes its own slot. -/
def Exprs.scoped (env : Scope) : Exprs E :=
  { x with
    lowerExpr := fun e => do
      checkScope env
      x.lowerExpr e
    lowerCond := fun e => do
      checkScope env
      x.lowerCond e
    lowerEffect := fun e => do
      checkScope env
      x.lowerEffect e }

/-! ## Blocks and statements -/

/-- What a statement declares for the statements after it. -/
def declared : HirStmt E → List String
  | .varDecl name .. => [name]
  | .labeled _ stmt => declared stmt
  | _ => []

def lowerSeqScoped (lowerStmt : Scope → HirStmt E → LowerM E Unit) :
    Scope → HirBlock E → LowerM E Unit
  | _, [] => pure ()
  | env, s :: ss => do
    lowerStmt env s
    if !(← isBlockTerminated) then
      let inner := env.declare (declared s) (← get)
      checkScope inner
      lowerSeqScoped lowerStmt inner ss

/-- After a block the names around it denote their own slots again. -/
def lowerBlockScoped (lowerStmt : Scope → HirStmt E → LowerM E Unit) (env : Scope)
    (b : HirBlock E) : LowerM E Unit := do
  pushDropScope
  lowerSeqScoped lowerStmt env b
  if !(← isBlockTerminated) then
    checkScope env
    popDropScope

/-- The variables that an initialiser mentions are those before the declaration. -/
def lowerVarDeclScoped (env : Scope) (name : String) (ty : HirType) (init : Option E)
    (isShared : Bool) : LowerM E Unit := do
  let slot ← allocSlot name
  declareLocal name ty slot
  registerBeforeInit name ty slot
  checkNames env ((init.map names).getD [])
  initLocal x name slot init isShared
  registerAfterInit name ty slot

/-- The lowering of a block of the source, given its scope. -/
abbrev BlockLowering (E : Type) := Scope → HirBlock E → LowerM E Unit

variable (lower : BlockLowering E) (env : Scope)

def patternNames : HirPattern → List String
  | .variant _ _ payloads =>
    payloads.filterMap fun p => match p with
      | .binding name => some name
      | _ => none
  | .binding name => [name]
  | _ => []

/-- The variables of a switch over patterns. -/
def switchNames (cases : List (HirPattern × HirBlock E)) : List String :=
  cases.flatMap fun c => patternNames c.1

/-- The payloads are stored after the bodies are lowered, so the variables of all the cases
are in scope up to there. -/
def lowerPatternSwitchScoped (e : E) (cases : List (HirPattern × HirBlock E))
    (default : Option (HirBlock E)) (join : Block) : LowerM E Unit := do
  let head := (← get).cur
  let patterns ← lowerPatterns cases
  checkOwn env (switchNames cases)
  let inner := env.declare (switchNames cases) (← get)
  let caseBlocks ← lowerPatternCases (lower inner) join patterns
  let defB ←
    match default with
    | some b => lowerCase (lower env) "default" join b
    | none => pure (((caseBlocks.find? fun c => c.1.tag < 0).map (·.2)).getD join)
  setCur head
  checkScope inner
  let scrut ← (x.scoped env).lowerExpr e
  let tag ← emit (.call "__arth_enum_get_tag" [scrut] .i64)
  emitTagChecks scrut tag defB (caseBlocks.filter fun c => 0 ≤ c.1.tag)
  if caseBlocks.all fun c => c.1.tag < 0 then setTerm (.br defB)
  setCur join

def lowerSwitchScoped (e : E) (cases : List (E × HirBlock E))
    (patternCases : List (HirPattern × HirBlock E)) (default : Option (HirBlock E)) :
    LowerM E Unit := do
  let join ← newBlock "switch_join"
  if patternCases ≠ [] then lowerPatternSwitchScoped x lower env e patternCases default join
  else if cases.any fun c => (x.strLit c.1).isSome then
    lowerStringSwitch (x.scoped env) (lower env) e cases default join
  else lowerIntSwitch (x.scoped env) (lower env) e cases default join

def lowerCatchScoped (finallyBlk : Option (HirBlock E)) (joinBlock rethrow : Block)
    (excTypeName excSlot : Ir.Value) (i : Nat) (check body next : Block) (c : Catch E) :
    LowerM E CatchBlocks := do
  emitCheck excTypeName check body next c
  setCur body
  let varSlot ← bindCatchVar excSlot c
  let inner := env.declare c.2.1.toList (← get)
  let saved := (← get).unwindTarget
  if finallyBlk.isSome then setUnwindTarget (some rethrow)
  lower inner c.2.2
  setUnwindTarget saved
  unbindCatchVar c
  leaveCatch (lower env) finallyBlk joinBlock i
  return ⟨check, body, varSlot⟩

def lowerCatchesScoped (finallyBlk : Option (HirBlock E)) (joinBlock rethrow : Block)
    (excTypeName excSlot : Ir.Value) :
    Nat → List (Block × Block) → List (Catch E) → LowerM E (List CatchBlocks)
  | i, (check, body) :: blocks, c :: cs => do
    let clause ← lowerCatchScoped lower env finallyBlk joinBlock rethrow excTypeName excSlot i
      check body (firstCheck rethrow blocks) c
    let rest ←
      lowerCatchesScoped finallyBlk joinBlock rethrow excTypeName excSlot (i + 1) blocks cs
    return clause :: rest
  | _, _, _ => return []

def lowerTryScoped (tryBlk : HirBlock E) (catches : List (Catch E))
    (finallyBlk : Option (HirBlock E)) : LowerM E TryBlocks := do
  let joinBlock ← newBlock "try_join"
  let pad ← newBlock "landing_pad"
  lowerTryBody (lower env) tryBlk finallyBlk joinBlock pad
  setCur pad
  let exc ← emit (.landingPad (catches.filterMap fun c => c.1.map HirType.text)
    (catches.any fun c => c.1.isNone || c.1.any fun ty => ty.text == "Exception"))
  let excTypeName ← emit (.getTypeName exc)
  let excSlot ← emit .alloca
  let _ ← emit (.store excSlot exc)
  let rethrow ← newBlock "rethrow"
  let blocks ← newCatchBlocks 0 catches
  setTerm (.br (firstCheck rethrow blocks))
  let clauses ←
    lowerCatchesScoped lower env finallyBlk joinBlock rethrow excTypeName excSlot 0 blocks catches
  let finallyEnd ← lowerRethrow (lower env) finallyBlk rethrow excSlot
  popFinally finallyBlk
  setCur joinBlock
  return ⟨joinBlock, pad, rethrow, excSlot, clauses, finallyEnd⟩

/-- A pending `finally` block is lowered in the scope of its `try` statement, not in that of
the `return`. -/
def lowerReturnScoped (fins : List Scope) (e : Option E) : LowerM E Unit := do
  let v ← lowerReturnValue (x.scoped env) e
  let pending := (← get).finallyScopes.zip fins
  pending.forM fun p => lower p.2 p.1
  exitAllLoopRegions
  emitAllDrops
  setTerm (.ret v)

/-- The lowering of a statement in its scope. `fins` are the scopes of the pending `finally`
blocks. -/
def lowerStmtScoped : Nat → List Scope → Scope → HirStmt E → LowerM E Unit
  | 0, _, _, _ => fun _ => none
  | n + 1, fins, env, s =>
    let lower (fins : List Scope) : BlockLowering E := lowerBlockScoped (lowerStmtScoped n fins)
    match s with
    | .effect e => (x.scoped env).lowerEffect e
    | .varDecl name ty init isShared => lowerVarDeclScoped x names env name ty init isShared
    | .assign name e => do
      checkScope env
      lowerAssign x name e
    | .assignOp name op e => do
      checkScope env
      lowerAssignOp x name op e
    | .ifElse cond thenBlk elseBlk =>
      lowerIf (x.scoped env) (lower fins env) cond thenBlk elseBlk
    | .whileLoop cond body => lowerWhile (x.scoped env) (lower fins env) cond body
    | .labeled label stmt => do
      modify fun st => { st with pendingLoopLabel := some label }
      lowerStmtScoped n fins env stmt
      modify fun st => { st with pendingLoopLabel := none }
    | .forLoop => pure ()
    | .switch e cases patternCases default =>
      lowerSwitchScoped x (lower fins) env e cases patternCases default
    | .tryCatch tryBlk catches finallyBlk => do
      let fins := fins ++ finallyBlk.toList.map fun _ => env
      let _ ← lowerTryScoped (lower fins) env tryBlk catches finallyBlk
    | .breakLoop label => lowerBreak label
    | .continueLoop label => lowerContinue label
    | .returnExpr e => lowerReturnScoped x (lower fins) env fins e
    | .block b => lower fins env b
    | .unsafeBlock b => lower fins env b
    | .throwExpr e => lowerThrow (x.scoped env) e
    | .panicExpr e => lowerPanic (x.scoped env) e
    | .expr e => do let _ ← (x.scoped env).lowerExpr e

/-- **The lowering of a function, in step with the scopes of its names.** `globals` are the
functions in scope. -/
def lowerFuncScoped (globals : List String) (fuel : Nat) (hf : HirFunc E) : LowerM E Unit := do
  let entry ← newBlock "entry"
  setCur entry
  pushDropScope
  modify fun st => { st with nextVal := hf.params.length }
  lowerParams 0 hf.params
  let env := Scope.declare (globals.map fun name => (name, none)) (hf.params.map (·.1)) (← get)
  match hf.body with
  | some body => do
    pushDropScope
    lowerSeqScoped (lowerStmtScoped x names fuel []) env body
    if !(← isBlockTerminated) then popDropScope
  | none => pure ()

/-- The statements whose lowering terminates the block it ends in. -/
inductive Ends : HirStmt E → Prop
  | breakLoop (label : Option String) : Ends (.breakLoop label)
  | continueLoop (label : Option String) : Ends (.continueLoop label)
  | returnExpr (e : E) : Ends (.returnExpr (some e))
  | throwExpr (e : E) : Ends (.throwExpr e)
  | panicExpr (e : E) : Ends (.panicExpr e)
  | labeled {label : String} {s : HirStmt E} (h : Ends s) : Ends (.labeled label s)
  | block {b : HirBlock E} {s : HirStmt E} (hs : s ∈ b) (h : Ends s) : Ends (.block b)
  | unsafeBlock {b : HirBlock E} {s : HirStmt E} (hs : s ∈ b) (h : Ends s) : Ends (.unsafeBlock b)

def SeqEnds (b : HirBlock E) : Prop := ∃ s ∈ b, Ends s

def HirPattern.isLiteral : HirPattern → Bool
  | .literal => true
  | _ => false

/-- The cases of a switch that are lowered: its patterns but the literals, or the labels that
are strings, or the labels that are constants. -/
def switchCases (cases : List (E × HirBlock E)) (patternCases : List (HirPattern × HirBlock E)) :
    List (HirBlock E) :=
  if patternCases ≠ [] then (patternCases.filter fun c => !c.1.isLiteral).map (·.2)
  else if cases.any fun c => (x.strLit c.1).isSome then
    (cases.filter fun c => (x.strLit c.1).isSome).map (·.2)
  else (cases.filter fun c => (x.intConst c.1).isSome).map (·.2)

/-- A pending `finally` block and the names in scope at its `try` statement. -/
abbrev Pending (E : Type) := List (HirBlock E × List String)

mutual

/-- `StmtOk x names K V Φ s`: the lowering of the statement resolves every name as its scope
does. `V` are the names in scope, and `K` those that are looked up behind a place where `s`
ends the block. -/
inductive StmtOk : List String → List String → Pending E → HirStmt E → Prop
  | effect {K V Φ} (e : E) : StmtOk K V Φ (.effect e)
  | varDecl {K V Φ name} (ty : HirType) {init : Option E} (isShared : Bool)
      (hkeep : name ∉ K) (hinit : ∀ e, init = some e → name ∈ V → name ∉ names e) :
      StmtOk K V Φ (.varDecl name ty init isShared)
  | assign {K V Φ} (name : String) (e : E) : StmtOk K V Φ (.assign name e)
  | assignOp {K V Φ} (name : String) (op : BinOp) (e : E) : StmtOk K V Φ (.assignOp name op e)
  | ifElse {K V Φ} (cond : E) {thenBlk : HirBlock E} {elseBlk : Option (HirBlock E)}
      (hthen : BlockOk (K ++ V) V Φ thenBlk)
      (helse : ∀ b, elseBlk = some b → BlockOk (K ++ V) V Φ b) :
      StmtOk K V Φ (.ifElse cond thenBlk elseBlk)
  | whileLoop {K V Φ} (cond : E) {body : HirBlock E} (hbody : BlockOk (K ++ V) V Φ body) :
      StmtOk K V Φ (.whileLoop cond body)
  | labeled {K V Φ} (label : String) {s : HirStmt E} (h : StmtOk K V Φ s) :
      StmtOk K V Φ (.labeled label s)
  | forLoop {K V Φ} : StmtOk K V Φ .forLoop
  -- a variable of a pattern does not get a slot if its name is in use
  | switch {K V Φ} (e : E) {cases : List (E × HirBlock E)}
      {patternCases : List (HirPattern × HirBlock E)} {default : Option (HirBlock E)}
      (hnames : ∀ name ∈ switchNames patternCases, name ∉ K ++ V)
      (hcases : ∀ b ∈ switchCases x cases patternCases,
        BlockOk (switchNames patternCases ++ (K ++ V)) (switchNames patternCases ++ V) Φ b)
      (hdefault : ∀ b, default = some b →
        BlockOk (switchNames patternCases ++ (K ++ V)) V Φ b) :
      StmtOk K V Φ (.switch e cases patternCases default)
  -- the variable of a clause is taken out of the table behind it
  | tryCatch {K V Φ} {tryBlk : HirBlock E} {catches : List (Catch E)}
      {finallyBlk : Option (HirBlock E)}
      (htry : BlockOk (K ++ V) V (Φ ++ finallyBlk.toList.map (·, V)) tryBlk)
      (hvars : ∀ c ∈ catches, ∀ name ∈ c.2.1.toList, name ∉ K ++ V)
      (hcatches : ∀ c ∈ catches,
        BlockOk (K ++ V) (c.2.1.toList ++ V) (Φ ++ finallyBlk.toList.map (·, V)) c.2.2)
      (hfinally : ∀ b, finallyBlk = some b →
        BlockOk (K ++ V) V (Φ ++ finallyBlk.toList.map (·, V)) b) :
      StmtOk K V Φ (.tryCatch tryBlk catches finallyBlk)
  | breakLoop {K V Φ} (label : Option String) : StmtOk K V Φ (.breakLoop label)
  | continueLoop {K V Φ} (label : Option String) : StmtOk K V Φ (.continueLoop label)
  -- the pending blocks are lowered once more, and may hide what is not looked up again
  | returnExpr {K V Φ} (e : E) (h : ∀ p ∈ Φ, BlockOk K p.2 Φ p.1) :
      StmtOk K V Φ (.returnExpr (some e))
  | returnNone {K V Φ} (h : ∀ p ∈ Φ, BlockOk (K ++ V) p.2 Φ p.1) :
      StmtOk K V Φ (.returnExpr none)
  | block {K V Φ} {b : HirBlock E} (h : BlockOk K V Φ b) : StmtOk K V Φ (.block b)
  | unsafeBlock {K V Φ} {b : HirBlock E} (h : BlockOk K V Φ b) : StmtOk K V Φ (.unsafeBlock b)
  | throwExpr {K V Φ} (e : E) : StmtOk K V Φ (.throwExpr e)
  | panicExpr {K V Φ} (e : E) : StmtOk K V Φ (.panicExpr e)
  | expr {K V Φ} (e : E) : StmtOk K V Φ (.expr e)

/-- A block that ends the block it is lowered into may hide names that are not looked up
behind it; any other hides no name in scope. -/
inductive BlockOk : List String → List String → Pending E → HirBlock E → Prop
  | ends {K V Φ b} (hends : SeqEnds b) (h : SeqOk K V Φ b) : BlockOk K V Φ b
  | falls {K V Φ b} (h : SeqOk (K ++ V) V Φ b) : BlockOk K V Φ b

/-- The statements behind one that ends the block are not lowered. -/
inductive SeqOk : List String → List String → Pending E → HirBlock E → Prop
  | nil {K V Φ} : SeqOk K V Φ []
  | last {K V Φ s} {ss : HirBlock E} (hends : Ends s) (h : StmtOk K V Φ s) : SeqOk K V Φ (s :: ss)
  | cons {K V Φ s} {ss : HirBlock E} (h : StmtOk K V Φ s) (hss : SeqOk K (declared s ++ V) Φ ss) :
      SeqOk K V Φ (s :: ss)

end

/-- **No declaration hides a name that is looked up again.** -/
def FuncOk (globals : List String) (hf : HirFunc E) : Prop :=
  ∀ body, hf.body = some body →
    SeqOk x names [] (hf.params.map (·.1) ++ globals) [] body

end Arth.Lower
