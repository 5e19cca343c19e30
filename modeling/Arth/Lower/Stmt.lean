import Arth.Lower.State

/-!
# Lowering of statements

`lower_stmt`, one definition for each kind of statement. How expressions are lowered is the
parameter `Exprs`; the lowering of the blocks inside a statement is the argument `lower` of
its definition, and `lowerStmt` ties the knot with fuel, since a `return` lowers the pending
`finally` blocks again.
-/

namespace Arth.Lower

open Ir (Block InstKind Terminator BlockData BinOp Func)

variable {E : Type}

/-- The lowering of expressions: as a value, as a condition, and for their effect. -/
structure Exprs (E : Type) where
  lowerExpr : E → LowerM E Ir.Value
  lowerCond : E → LowerM E Ir.Value
  lowerEffect : E → LowerM E Unit
  intConst : E → Option Int64
  strLit : E → Option String

variable (x : Exprs E)

/-- The statements of a block, up to one that terminates the current block. -/
def lowerSeq (lowerStmt : HirStmt E → LowerM E Unit) : HirBlock E → LowerM E Unit
  | [] => pure ()
  | s :: ss => do
    lowerStmt s
    if !(← isBlockTerminated) then lowerSeq lowerStmt ss

/-- `lower_block`: a terminated block leaves its drop scope open. -/
def lowerBlock (lowerStmt : HirStmt E → LowerM E Unit) (b : HirBlock E) : LowerM E Unit := do
  pushDropScope
  lowerSeq lowerStmt b
  if !(← isBlockTerminated) then popDropScope

variable (lower : HirBlock E → LowerM E Unit)

/-- The slot of a declared local. -/
def allocSlot (name : String) : LowerM E Ir.Value := do
  match getAllocStrategyFor (← get) name with
  | .region _ => do
    let size ← emit (.constI64 8)
    emit (.call "__arth_region_alloc" [size] .i64)
  | _ => emit .alloca

def declareLocal (name : String) (ty : HirType) (slot : Ir.Value) : LowerM E Unit :=
  modify fun st =>
    { st with
      locals := Function.update st.locals name (some slot)
      localTypes := Function.update st.localTypes name (some ty)
      decls := st.decls ++ [⟨name, slot, ty⟩] }

def initLocal (name : String) (slot : Ir.Value) (init : Option E) (isShared : Bool) :
    LowerM E Unit := do
  if isShared then
    modify fun st => { st with sharedLocals := name :: st.sharedLocals }
    let h ← emit (.call "__arth_shared_new" [] .i64)
    let _ ← emit (.store slot h)
    match init with
    | some e => do
      let v ← x.lowerExpr e
      let hcur ← emit (.load slot)
      let _ ← emit (.call "__arth_shared_store" [hcur, v] .i64)
    | none => pure ()
  else
    match init with
    | some e => do
      let v ← x.lowerExpr e
      let _ ← emit (.store slot v)
    | none => pure ()

def registerBeforeInit (name : String) (ty : HirType) (slot : Ir.Value) : LowerM E Unit := do
  match needsDropTy (← get) ty with
  | some tyName => registerDrop name slot tyName
  | none => pure ()

def registerAfterInit (name : String) (ty : HirType) (slot : Ir.Value) : LowerM E Unit := do
  let st ← get
  match needsDropTy st ty with
  | some tyName => if shouldDropVar st name then registerDrop name slot tyName
  | none => pure ()

/-- `HirStmt::VarDecl`. A local whose type needs a drop is registered before its initialiser
is lowered, and once more after it. -/
def lowerVarDecl (name : String) (ty : HirType) (init : Option E) (isShared : Bool) :
    LowerM E Unit := do
  let slot ← allocSlot name
  declareLocal name ty slot
  registerBeforeInit name ty slot
  initLocal x name slot init isShared
  registerAfterInit name ty slot

def lowerAssign (name : String) (e : E) : LowerM E Unit := do
  match (← get).locals name with
  | none => pure ()
  | some slot => do
    let v ← x.lowerExpr e
    if name ∈ (← get).sharedLocals then
      let hcur ← emit (.load slot)
      let _ ← emit (.call "__arth_shared_store" [hcur, v] .i64)
    else
      let _ ← emit (.store slot v)

def lowerAssignOp (name : String) (op : BinOp) (e : E) : LowerM E Unit := do
  match (← get).locals name with
  | none => pure ()
  | some slot => do
    let cur ← emit (.load slot)
    let rhs ← x.lowerExpr e
    let res ← emit (.binary op cur rhs)
    let _ ← emit (.store slot res)

/-! ## Branches and loops -/

def lowerIf (cond : E) (thenBlk : HirBlock E) (elseBlk : Option (HirBlock E)) :
    LowerM E Unit := do
  let thenB ← newBlock "then"
  let elseB ← newBlock "else"
  let joinB ← newBlock "join"
  let c ← x.lowerCond cond
  setTerm (.condBr c thenB elseB)
  setCur thenB
  lower thenBlk
  setTermIfFallthrough (.br joinB)
  setCur elseB
  match elseBlk with
  | some b => lower b
  | none => pure ()
  setTermIfFallthrough (.br joinB)
  setCur joinB

def pushLoop (target : LoopTarget) : LowerM E Unit :=
  modify fun st =>
    { st with
      loops := target :: st.loops
      loopLabels := st.pendingLoopLabel :: st.loopLabels
      pendingLoopLabel := none }

def popLoop : LowerM E Unit :=
  modify fun st => { st with loops := st.loops.tail, loopLabels := st.loopLabels.tail }

/-- `HirStmt::While`. The end of the body gets its branch back to the header whether or not
the body has terminated it. -/
def lowerWhile (cond : E) (body : HirBlock E) : LowerM E Unit := do
  let header ← newBlock "loop_header"
  let lbody ← newBlock "loop_body"
  let exit ← newBlock "loop_exit"
  setTerm (.br header)
  setCur header
  let c ← x.lowerCond cond
  setTerm (.condBr c lbody exit)
  setCur lbody
  let regionId ← enterLoopRegion
  let depth := (← get).dropScopes.length
  pushLoop ⟨exit, header, depth, regionId⟩
  pushDropScope
  lower body
  popDropScope
  exitLoopRegion regionId
  setTerm (.br header)
  popLoop
  setCur exit

/-- The loop a `break` or `continue` names. -/
def findLoop (st : LowerState E) : Option String → Option LoopTarget
  | some name => (st.loopLabels.findIdx? (· == some name)).bind fun i => st.loops[i]?
  | none => st.loops.head?

def lowerLeave (label : Option String) (target : LoopTarget → Block) : LowerM E Unit := do
  match findLoop (← get) label with
  | some l =>
    emitDropsToDepth l.dropDepth
    exitLoopRegion l.regionId
    setTerm (.br (target l))
  | none => setTerm .unreachable

def lowerBreak (label : Option String) : LowerM E Unit := lowerLeave label (·.exit)

def lowerContinue (label : Option String) : LowerM E Unit := lowerLeave label (·.header)

/-! ## Switches -/

/-- One case: its block, its code, and the branch behind the switch. -/
def lowerCase (name : String) (join : Block) (b : HirBlock E) : LowerM E Block := do
  let idx ← newBlock name
  setCur idx
  lower b
  if !(← isBlockTerminated) then setTerm (.br join)
  return idx

/-- The string switch sets the branch in any case. -/
def lowerStringCase (name : String) (join : Block) (b : HirBlock E) : LowerM E Block := do
  let idx ← newBlock name
  setCur idx
  lower b
  setTerm (.br join)
  return idx

def lowerIntCases (join : Block) :
    List (E × HirBlock E) → LowerM E (List (Int64 × Block))
  | [] => return []
  | (e, b) :: cases =>
    match x.intConst e with
    | some n => do
      let idx ← lowerCase lower "case" join b
      let rest ← lowerIntCases join cases
      return (n, idx) :: rest
    | none => lowerIntCases join cases

def lowerIntSwitch (e : E) (cases : List (E × HirBlock E)) (default : Option (HirBlock E))
    (join : Block) : LowerM E Unit := do
  let head := (← get).cur
  let caseBlocks ← lowerIntCases x lower join cases
  let defB ←
    match default with
    | some b => lowerCase lower "default" join b
    | none => pure join
  setCur head
  let sv ← x.lowerExpr e
  setTerm (.switch sv defB caseBlocks)
  setCur join

def lowerStringCases (join : Block) :
    List (E × HirBlock E) → LowerM E (List (String × Block))
  | [] => return []
  | (e, b) :: cases =>
    match x.strLit e with
    | some s => do
      let idx ← lowerStringCase lower "case" join b
      let rest ← lowerStringCases join cases
      return (s, idx) :: rest
    | none => lowerStringCases join cases

/-- The chain of comparisons of a string switch. -/
def emitStringChecks (scrut : Ir.Value) (defB : Block) :
    List (String × Block) → LowerM E Unit
  | [] => pure ()
  | (s, b) :: rest => do
    let ix ← internStr s
    let sv ← emit (.constStr ix)
    let cmp ← emit (.strEq scrut sv)
    match rest with
    | [] => setTerm (.condBr cmp b defB)
    | _ :: _ => do
      let next ← newBlock "case_check"
      setTerm (.condBr cmp b next)
      setCur next
      emitStringChecks scrut defB rest

def lowerStringSwitch (e : E) (cases : List (E × HirBlock E)) (default : Option (HirBlock E))
    (join : Block) : LowerM E Unit := do
  let head := (← get).cur
  let caseBlocks ← lowerStringCases x lower join cases
  let defB ←
    match default with
    | some b => lowerStringCase lower "default" join b
    | none => pure join
  setCur head
  let scrut ← x.lowerExpr e
  emitStringChecks scrut defB caseBlocks
  if cases.isEmpty then setTerm (.br defB)
  setCur join

/-- A pattern with its tag (`-1` for a wildcard, `-2` for a binding) and its bindings. -/
structure PatternInfo where
  tag : Int64
  bindings : List (String × Nat)

/-- Declare a variable of a pattern, unless there is a local of that name. -/
def predeclare (name : String) : LowerM E Unit := do
  if ((← get).locals name).isNone then
    let slot ← emit .alloca
    modify fun st => { st with locals := Function.update st.locals name (some slot) }

def lowerPayloads : Nat → List HirPattern → LowerM E (List (String × Nat))
  | _, [] => return []
  | i, .binding name :: ps => do
    predeclare name
    let rest ← lowerPayloads (i + 1) ps
    return (name, i) :: rest
  | i, _ :: ps => lowerPayloads (i + 1) ps

def lowerPatterns :
    List (HirPattern × HirBlock E) → LowerM E (List (PatternInfo × HirBlock E))
  | [] => return []
  | (.variant enumName variantName payloads, b) :: cases => do
    let tag := ((← get).enumTag enumName variantName).getD (-1)
    let bindings ← lowerPayloads 0 payloads
    let rest ← lowerPatterns cases
    return (⟨tag, bindings⟩, b) :: rest
  | (.wildcard, b) :: cases => do
    let rest ← lowerPatterns cases
    return (⟨-1, []⟩, b) :: rest
  | (.binding name, b) :: cases => do
    predeclare name
    let rest ← lowerPatterns cases
    -- `usize::MAX`
    return (⟨-2, [(name, 2 ^ 64 - 1)]⟩, b) :: rest
  | (.literal, _) :: cases => lowerPatterns cases

def lowerPatternCases (join : Block) :
    List (PatternInfo × HirBlock E) → LowerM E (List (PatternInfo × Block))
  | [] => return []
  | (info, b) :: cases => do
    let name := if info.tag = -1 then "case_wildcard"
      else if info.tag = -2 then "case_binding" else "case_pattern"
    let idx ← lowerCase lower name join b
    let rest ← lowerPatternCases join cases
    return (info, idx) :: rest

/-- The payloads of a matched variant go to the slots of their variables. -/
def emitBindings (scrut : Ir.Value) : List (String × Nat) → LowerM E Unit
  | [] => pure ()
  | (name, i) :: bindings => do
    let idx ← emit (.constI64 (Int64.ofNat i))
    let payload ← emit (.call "__arth_enum_get_payload" [scrut, idx] .i64)
    match (← get).locals name with
    | some slot => let _ ← emit (.store slot payload)
    | none => pure ()
    emitBindings scrut bindings

/-- The chain of tag comparisons. -/
def emitTagChecks (scrut tag : Ir.Value) (defB : Block) :
    List (PatternInfo × Block) → LowerM E Unit
  | [] => pure ()
  | (info, b) :: rest => do
    let expected ← emit (.constI64 info.tag)
    let cmp ← emit (.cmp .eq tag expected)
    if info.bindings ≠ [] then
      let setup ← newBlock "case_setup"
      let next ← if rest ≠ [] then newBlock "pattern_check" else pure defB
      setTerm (.condBr cmp setup next)
      setCur setup
      emitBindings scrut info.bindings
      setTerm (.br b)
      if rest ≠ [] then setCur next
    else
      let next ← if rest ≠ [] then newBlock "pattern_check" else pure defB
      setTerm (.condBr cmp b next)
      if rest ≠ [] then setCur next
    emitTagChecks scrut tag defB rest

def lowerPatternSwitch (e : E) (cases : List (HirPattern × HirBlock E))
    (default : Option (HirBlock E)) (join : Block) : LowerM E Unit := do
  let head := (← get).cur
  let patterns ← lowerPatterns cases
  let caseBlocks ← lowerPatternCases lower join patterns
  let defB ←
    match default with
    | some b => lowerCase lower "default" join b
    | none => pure (((caseBlocks.find? fun c => c.1.tag < 0).map (·.2)).getD join)
  setCur head
  let scrut ← x.lowerExpr e
  let tag ← emit (.call "__arth_enum_get_tag" [scrut] .i64)
  emitTagChecks scrut tag defB (caseBlocks.filter fun c => 0 ≤ c.1.tag)
  if caseBlocks.all fun c => c.1.tag < 0 then setTerm (.br defB)
  setCur join

def lowerSwitch (e : E) (cases : List (E × HirBlock E))
    (patternCases : List (HirPattern × HirBlock E)) (default : Option (HirBlock E)) :
    LowerM E Unit := do
  let join ← newBlock "switch_join"
  if patternCases ≠ [] then lowerPatternSwitch x lower e patternCases default join
  else if cases.any fun c => (x.strLit c.1).isSome then
    lowerStringSwitch x lower e cases default join
  else lowerIntSwitch x lower e cases default join

/-! ## Exceptions -/

abbrev Catch (E : Type) := Option HirType × Option String × HirBlock E

def setUnwindTarget (target : Option Block) : LowerM E Unit :=
  modify fun st => { st with unwindTarget := target }

def pushFinally : Option (HirBlock E) → LowerM E Unit
  | some fin => modify fun st => { st with finallyScopes := st.finallyScopes ++ [fin] }
  | none => pure ()

def popFinally : Option (HirBlock E) → LowerM E Unit
  | some _ => modify fun st => { st with finallyScopes := st.finallyScopes.dropLast }
  | none => pure ()

/-- The name a clause compares the name of the exception's type with; without a type it is
the empty string. -/
def expectedType (c : Catch E) : String := (c.1.map HirType.text).getD ""

/-- A check block and a catch block for every clause. -/
def newCatchBlocks : Nat → List (Catch E) → LowerM E (List (Block × Block))
  | _, [] => return []
  | i, _ :: cs => do
    let check ← newBlock ("check_" ++ toString i)
    let body ← newBlock ("catch_" ++ toString i)
    let rest ← newCatchBlocks (i + 1) cs
    return (check, body) :: rest

/-- The blocks of a clause, and the slot of its variable. -/
structure CatchBlocks where
  check : Block
  body : Block
  varSlot : Option Ir.Value

/-- The blocks of a `try` statement. The lowering returns them for the theorems; the source
returns nothing. -/
structure TryBlocks where
  join : Block
  pad : Block
  rethrow : Block
  excSlot : Ir.Value
  clauses : List CatchBlocks
  /-- Where the `finally` block of an exception that no clause matched ends. -/
  finallyEnd : Block

/-- The variable of a clause gets the exception from its slot. -/
def bindCatchVar (excSlot : Ir.Value) (c : Catch E) : LowerM E (Option Ir.Value) := do
  match c.2.1 with
  | some var => do
    let exc ← emit (.load excSlot)
    let varSlot ← emit .alloca
    let _ ← emit (.store varSlot exc)
    modify fun st =>
      { st with
        locals := Function.update st.locals var (some varSlot)
        localTypes := match c.1 with
          | some ty => Function.update st.localTypes var (some ty)
          | none => st.localTypes }
    return some varSlot
  | none => return none

def unbindCatchVar (c : Catch E) : LowerM E Unit := do
  match c.2.1 with
  | some var =>
    modify fun st =>
      { st with
        locals := Function.update st.locals var none
        localTypes := Function.update st.localTypes var none }
  | none => pure ()

/-- The check of a clause: on a match its body, else the next check. -/
def emitCheck (excTypeName : Ir.Value) (check body next : Block) (c : Catch E) :
    LowerM E Unit := do
  setCur check
  let ix ← internStr (expectedType c)
  let expected ← emit (.constStr ix)
  let isMatch ← emit (.strEq excTypeName expected)
  setTerm (.condBr isMatch body next)

/-- After the body of a clause, unless it is terminated: the `finally` block, then on. -/
def leaveCatch (finallyBlk : Option (HirBlock E)) (joinBlock : Block) (i : Nat) :
    LowerM E Unit := do
  if !(← isBlockTerminated) then
    let _ ← emit (.call "__arth_end_catch" [] .void)
  if !(← isBlockTerminated) then
    match finallyBlk with
    | some fin => do
      let catchFinally ← newBlock ("finally_catch_" ++ toString i)
      setTerm (.br catchFinally)
      setCur catchFinally
      lower fin
      if !(← isBlockTerminated) then setTerm (.br joinBlock)
    | none => setTerm (.br joinBlock)

def lowerCatch (finallyBlk : Option (HirBlock E)) (joinBlock rethrow : Block)
    (excTypeName excSlot : Ir.Value) (i : Nat) (check body next : Block) (c : Catch E) :
    LowerM E CatchBlocks := do
  emitCheck excTypeName check body next c
  setCur body
  let varSlot ← bindCatchVar excSlot c
  let saved := (← get).unwindTarget
  if finallyBlk.isSome then setUnwindTarget (some rethrow)
  lower c.2.2
  setUnwindTarget saved
  unbindCatchVar c
  leaveCatch lower finallyBlk joinBlock i
  return ⟨check, body, varSlot⟩

/-- The first check of a chain. -/
def firstCheck (rethrow : Block) : List (Block × Block) → Block
  | [] => rethrow
  | (check, _) :: _ => check

def lowerCatches (finallyBlk : Option (HirBlock E)) (joinBlock rethrow : Block)
    (excTypeName excSlot : Ir.Value) :
    Nat → List (Block × Block) → List (Catch E) → LowerM E (List CatchBlocks)
  | i, (check, body) :: blocks, c :: cs => do
    let clause ← lowerCatch lower finallyBlk joinBlock rethrow excTypeName excSlot i check body
      (firstCheck rethrow blocks) c
    let rest ← lowerCatches finallyBlk joinBlock rethrow excTypeName excSlot (i + 1) blocks cs
    return clause :: rest
  | _, _, _ => return []

/-- The body of a `try` statement, with its handler around it. -/
def lowerTryBody (tryBlk : HirBlock E) (finallyBlk : Option (HirBlock E))
    (joinBlock pad : Block) : LowerM E Unit := do
  let _ ← emit (.setUnwindHandler pad)
  pushFinally finallyBlk
  let saved := (← get).unwindTarget
  setUnwindTarget (some pad)
  lower tryBlk
  setUnwindTarget saved
  if !(← isBlockTerminated) then
    let _ ← emit .clearUnwindHandler
    match finallyBlk with
    | some fin => do
      let normalFinally ← newBlock "finally_normal"
      setTerm (.br normalFinally)
      setCur normalFinally
      lower fin
      setTerm (.br joinBlock)
    | none => setTerm (.br joinBlock)

/-- The `finally` block behind the one that no clause matched leads to. -/
def lowerRethrowFinally : Option (HirBlock E) → LowerM E Unit
  | some fin => do
    let rethrowFinally ← newBlock "finally_rethrow"
    setTerm (.br rethrowFinally)
    setCur rethrowFinally
    lower fin
  | none => pure ()

/-- The block that no clause matched leads to: the `finally` block, then the exception is
thrown again. -/
def lowerRethrow (finallyBlk : Option (HirBlock E)) (rethrow : Block) (excSlot : Ir.Value) :
    LowerM E Block := do
  setCur rethrow
  lowerRethrowFinally lower finallyBlk
  let finallyEnd := (← get).cur
  if !(← isBlockTerminated) then
    let exc ← emit (.load excSlot)
    setTerm (.throw (some exc))
  return finallyEnd

/-- `HirStmt::Try`. -/
def lowerTry (tryBlk : HirBlock E) (catches : List (Catch E))
    (finallyBlk : Option (HirBlock E)) : LowerM E TryBlocks := do
  let joinBlock ← newBlock "try_join"
  let pad ← newBlock "landing_pad"
  lowerTryBody lower tryBlk finallyBlk joinBlock pad
  setCur pad
  let exc ← emit (.landingPad (catches.filterMap fun c => c.1.map HirType.text)
    (catches.any fun c => c.1.isNone || c.1.any fun ty => ty.text == "Exception"))
  let excTypeName ← emit (.getTypeName exc)
  let excSlot ← emit .alloca
  let _ ← emit (.store excSlot exc)
  let rethrow ← newBlock "rethrow"
  let blocks ← newCatchBlocks 0 catches
  setTerm (.br (firstCheck rethrow blocks))
  let clauses ←
    lowerCatches lower finallyBlk joinBlock rethrow excTypeName excSlot 0 blocks catches
  let finallyEnd ← lowerRethrow lower finallyBlk rethrow excSlot
  popFinally finallyBlk
  setCur joinBlock
  return ⟨joinBlock, pad, rethrow, excSlot, clauses, finallyEnd⟩

/-- The value of a `return`. -/
def lowerReturnValue : Option E → LowerM E (Option Ir.Value)
  | some e => some <$> x.lowerExpr e
  | none => pure none

/-- `HirStmt::Return`: the pending `finally` blocks are lowered in place, the outermost
first. -/
def lowerReturn (e : Option E) : LowerM E Unit := do
  let v ← lowerReturnValue x e
  (← get).finallyScopes.forM lower
  exitAllLoopRegions
  emitAllDrops
  setTerm (.ret v)

def lowerThrow (e : E) : LowerM E Unit := do
  let exc ← x.lowerExpr e
  exitAllLoopRegions
  emitAllDrops
  setTerm (.throw (some exc))

def lowerPanic (e : E) : LowerM E Unit := do
  let msg ← x.lowerExpr e
  exitAllLoopRegions
  emitAllDrops
  setTerm (.panic (some msg))

/-- `lower_stmt`. -/
def lowerStmt : Nat → HirStmt E → LowerM E Unit
  | 0, _ => fun _ => none
  | n + 1, s =>
    let lower := lowerBlock (lowerStmt n)
    match s with
    | .effect e => x.lowerEffect e
    | .varDecl name ty init isShared => lowerVarDecl x name ty init isShared
    | .assign name e => lowerAssign x name e
    | .assignOp name op e => lowerAssignOp x name op e
    | .ifElse cond thenBlk elseBlk => lowerIf x lower cond thenBlk elseBlk
    | .whileLoop cond body => lowerWhile x lower cond body
    | .labeled label stmt => do
      modify fun st => { st with pendingLoopLabel := some label }
      lowerStmt n stmt
      modify fun st => { st with pendingLoopLabel := none }
    | .forLoop => pure ()
    | .switch e cases patternCases default => lowerSwitch x lower e cases patternCases default
    | .tryCatch tryBlk catches finallyBlk => do
      let _ ← lowerTry lower tryBlk catches finallyBlk
    | .breakLoop label => lowerBreak label
    | .continueLoop label => lowerContinue label
    | .returnExpr e => lowerReturn x lower e
    | .block b => lower b
    | .unsafeBlock b => lower b
    | .throwExpr e => lowerThrow x e
    | .panicExpr e => lowerPanic x e
    | .expr e => do let _ ← x.lowerExpr e

/-- What a lowering unit starts from besides the function itself. -/
structure LowerEnv where
  enumTag : String → String → Option Int64
  typesNeedingDrop : List String
  escapeInfo : Option (String → Option LocalEscapeInfo)

structure HirFunc (E : Type) where
  name : String
  params : List (String × HirType)
  body : Option (HirBlock E)

def LowerState.initial (env : LowerEnv) : LowerState E where
  blocks := []
  cur := 0
  nextVal := 0
  locals _ := none
  sharedLocals := []
  unwindTarget := none
  loops := []
  loopLabels := []
  pendingLoopLabel := none
  strings := []
  enumTag := env.enumTag
  dropScopes := []
  declOrderCounter := 0
  typesNeedingDrop := env.typesNeedingDrop
  escapeInfo := env.escapeInfo
  loopRegions := []
  nextRegionId := 0
  localTypes _ := none
  finallyScopes := []
  decls := []

/-- The slots of the parameters. -/
def lowerParams : Nat → List (String × HirType) → LowerM E Unit
  | _, [] => pure ()
  | i, (name, ty) :: ps => do
    let slot ← emit .alloca
    modify fun st =>
      { st with
        locals := Function.update st.locals name (some slot)
        localTypes := Function.update st.localTypes name (some ty) }
    let _ ← emit (.store slot i)
    let st ← get
    match needsDropTy st ty with
    | some tyName => if shouldDropVar st name then registerDrop name slot tyName
    | none => pure ()
    lowerParams (i + 1) ps

/-- The blocks of a function that is not `async`, or of the body of one that is. -/
def lowerFunc (fuel : Nat) (hf : HirFunc E) : LowerM E Unit := do
  let entry ← newBlock "entry"
  setCur entry
  pushDropScope
  modify fun st => { st with nextVal := hf.params.length }
  lowerParams 0 hf.params
  match hf.body with
  | some body => lowerBlock (lowerStmt x fuel) body
  | none => pure ()

end Arth.Lower
