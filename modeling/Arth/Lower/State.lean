import Arth.Ir.Syntax
import Mathlib

/-!
# The state of lowering

* `HirStmt` — the statements of the high-level representation, over the type of their
  expressions.
* `LowerState` — the blocks built so far, the current block, and what the lowering keeps
  track of: locals, loops, drop scopes, regions and pending `finally` blocks.
* The operations of the source on it, in the monad `LowerM`, which runs out of fuel where
  the source does not return.
-/

namespace Arth.Lower

open Ir (Block InstKind Inst Terminator BlockData BinOp)

inductive HirType where
  | name (path : List String)
  | generic (path : List String)
  | typeParam (param : String)
  deriving DecidableEq

/-- `type_to_string`, the name a catch clause compares with. -/
def HirType.text : HirType → String
  | .name path => ".".intercalate path
  | .generic path => ".".intercalate path
  | .typeParam param => param

inductive HirPattern where
  | wildcard
  | binding (name : String)
  | literal
  | variant (enumName variantName : String) (payloads : List HirPattern)

/-- A statement; a block is a list of statements. `effect` stands for the print statements
and for the assignment of a field, which only evaluate expressions and call the runtime. -/
inductive HirStmt (E : Type) where
  | effect (e : E)
  | varDecl (name : String) (ty : HirType) (init : Option E) (isShared : Bool)
  | assign (name : String) (e : E)
  | assignOp (name : String) (op : BinOp) (e : E)
  | ifElse (cond : E) (thenBlk : List (HirStmt E)) (elseBlk : Option (List (HirStmt E)))
  | whileLoop (cond : E) (body : List (HirStmt E))
  | labeled (label : String) (stmt : HirStmt E)
  | forLoop
  | switch (e : E) (cases : List (E × List (HirStmt E)))
      (patternCases : List (HirPattern × List (HirStmt E)))
      (default : Option (List (HirStmt E)))
  | tryCatch (tryBlk : List (HirStmt E))
      (catches : List (Option HirType × Option String × List (HirStmt E)))
      (finallyBlk : Option (List (HirStmt E)))
  | breakLoop (label : Option String)
  | continueLoop (label : Option String)
  | returnExpr (e : Option E)
  | block (b : List (HirStmt E))
  | unsafeBlock (b : List (HirStmt E))
  | throwExpr (e : E)
  | panicExpr (e : E)
  | expr (e : E)

abbrev HirBlock (E : Type) := List (HirStmt E)

/-! ## The state -/

inductive AllocStrategy where
  | stack | refCounted | uniqueOwned
  | region (id : Nat)
  deriving DecidableEq

inductive MoveState where
  | available | fullyMoved | conditionallyMoved
  | partiallyMoved (fields : List String)
  deriving DecidableEq

structure FieldDropInfo where
  needsDrop : Bool
  dropTyName : Option String
  deriving DecidableEq

/-- What the escape analysis found out about a local. -/
structure LocalEscapeInfo where
  allocStrategy : AllocStrategy
  needsDrop : Bool
  moveState : MoveState
  fieldDropInfo : List (String × FieldDropInfo)
  hasExplicitDeinit : Bool
  deriving DecidableEq

structure DropInfo where
  name : String
  slot : Ir.Value
  tyName : String
  declOrder : Nat
  allocStrategy : AllocStrategy
  moveState : MoveState
  dropFlagSlot : Option Ir.Value
  fieldDropInfo : List (String × FieldDropInfo)
  hasExplicitDeinit : Bool
  deriving DecidableEq

/-- The targets of a loop: the block behind it, its header, the depth of the drop scopes
around it, its region. -/
structure LoopTarget where
  exit : Block
  header : Block
  dropDepth : Nat
  regionId : Nat
  deriving DecidableEq

/-- A declaration that was lowered. The lowering does not read these. -/
structure Decl where
  name : String
  slot : Ir.Value
  ty : HirType
  deriving DecidableEq

/-- Stacks grow at the head, except `finallyScopes`, which has the newest block last. -/
structure LowerState (E : Type) where
  blocks : List BlockData
  cur : Block
  nextVal : Nat
  locals : String → Option Ir.Value
  sharedLocals : List String
  unwindTarget : Option Block
  loops : List LoopTarget
  loopLabels : List (Option String)
  pendingLoopLabel : Option String
  strings : List String
  enumTag : String → String → Option Int64
  dropScopes : List (List DropInfo)
  declOrderCounter : Nat
  typesNeedingDrop : List String
  escapeInfo : Option (String → Option LocalEscapeInfo)
  loopRegions : List (Nat × List (Ir.Value × String))
  nextRegionId : Nat
  localTypes : String → Option HirType
  finallyScopes : List (HirBlock E)
  decls : List Decl

abbrev LowerM (E : Type) := StateT (LowerState E) Option

variable {E : Type}

/-- `new_block`: a new block ends in `Ret(None)`. -/
def newBlock (base : String) : LowerM E Block := do
  let st ← get
  let idx := st.blocks.length
  let block : BlockData := ⟨base ++ "_" ++ toString idx, [], .ret none⟩
  set { st with blocks := st.blocks ++ [block] }
  return idx

def setCur (b : Block) : LowerM E Unit := modify fun st => { st with cur := b }

def freshValue : LowerM E Ir.Value := do
  let st ← get
  set { st with nextVal := st.nextVal + 1 }
  return st.nextVal

def emit (kind : InstKind) : LowerM E Ir.Value := do
  let res ← freshValue
  modify fun st =>
    { st with
      blocks := st.blocks.modify st.cur fun b =>
        { b with insts := b.insts ++ [Inst.mk res kind] } }
  return res

def setTerm (t : Terminator) : LowerM E Unit :=
  modify fun st => { st with blocks := st.blocks.modify st.cur fun b => { b with term := t } }

def curTerm (st : LowerState E) : Terminator :=
  ((st.blocks[st.cur]?).map (·.term)).getD (.ret none)

/-- The terminators `is_block_terminated` counts: neither a plain `Ret(None)`, nor a
`Switch`, nor an `Invoke`. -/
def isTerminated : Terminator → Bool
  | .ret (some _) | .throw _ | .panic _ | .unreachable | .br _ | .condBr .. => true
  | _ => false

def isBlockTerminated : LowerM E Bool := do return isTerminated (curTerm (← get))

/-- `set_term_if_fallthrough`, which overwrites a `CondBr`. -/
def setTermIfFallthrough (t : Terminator) : LowerM E Unit := do
  match curTerm (← get) with
  | .ret (some _) | .throw _ | .panic _ | .unreachable | .br _ => pure ()
  | _ => setTerm t

def internStr (s : String) : LowerM E Nat := do
  let st ← get
  match st.strings.findIdx? (· == s) with
  | some i => return i
  | none =>
    set { st with strings := st.strings ++ [s] }
    return st.strings.length

/-! ## Drops -/

def pushDropScope : LowerM E Unit :=
  modify fun st => { st with dropScopes := [] :: st.dropScopes }

def localInfo (st : LowerState E) (name : String) : Option LocalEscapeInfo :=
  st.escapeInfo.bind fun info => info name

def getAllocStrategyFor (st : LowerState E) (name : String) : AllocStrategy :=
  ((localInfo st name).map (·.allocStrategy)).getD .stack

def shouldDropVar (st : LowerState E) (name : String) : Bool :=
  ((localInfo st name).map (·.needsDrop)).getD true

def getMoveStateFor (st : LowerState E) (name : String) : MoveState :=
  ((localInfo st name).map (·.moveState)).getD .available

def getFieldDropInfoFor (st : LowerState E) (name : String) : List (String × FieldDropInfo) :=
  ((localInfo st name).map (·.fieldDropInfo)).getD []

def hasExplicitDeinitFor (st : LowerState E) (name : String) : Bool :=
  ((localInfo st name).map (·.hasExplicitDeinit)).getD false

/-- `needs_drop_ty`: the key under which the type is listed, with or without its package. -/
def needsDropTy (st : LowerState E) : HirType → Option String
  | .name path | .generic path =>
    match path.getLast? with
    | none => none
    | some typeName =>
      let key := ".".intercalate path.dropLast ++ "." ++ typeName
      if key ∈ st.typesNeedingDrop then some key
      else if typeName ∈ st.typesNeedingDrop then some typeName
      else none
  | .typeParam _ => none

/-- `register_region_variable`. -/
def registerRegionVariable (id : Nat) (slot : Ir.Value) (tyName : String) : LowerM E Unit :=
  modify fun st =>
    { st with
      loopRegions :=
        match st.loopRegions.findIdx? (·.1 == id) with
        | some i => st.loopRegions.modify i fun r => (r.1, r.2 ++ [(slot, tyName)])
        | none => st.loopRegions }

def addDropInfo (info : DropInfo) : LowerM E Unit :=
  modify fun st =>
    { st with
      dropScopes :=
        match st.dropScopes with
        | scope :: scopes => (scope ++ [info]) :: scopes
        | [] => [] }

def registerDropWithStrategy (name : String) (slot : Ir.Value) (tyName : String) :
    AllocStrategy → LowerM E Unit
  | .region id => registerRegionVariable id slot tyName
  | allocStrategy => do
    let st ← get
    set { st with declOrderCounter := st.declOrderCounter + 1 }
    let moveState := getMoveStateFor st name
    let dropFlagSlot ←
      match moveState with
      | .conditionallyMoved => do
        let flagSlot ← emit .alloca
        let unset ← emit (.constI64 0)
        let _ ← emit (.store flagSlot unset)
        pure (some flagSlot)
      | _ => pure none
    addDropInfo
      { name, slot, tyName
        declOrder := st.declOrderCounter
        allocStrategy, moveState, dropFlagSlot
        fieldDropInfo := getFieldDropInfoFor st name
        hasExplicitDeinit := hasExplicitDeinitFor st name }

def registerDrop (name : String) (slot : Ir.Value) (tyName : String) : LowerM E Unit := do
  registerDropWithStrategy name slot tyName (getAllocStrategyFor (← get) name)

/-- The drop of one field of a value whose type has no deinit of its own. -/
def emitFieldDrop (val : Ir.Value) (field : String × FieldDropInfo) : LowerM E Unit := do
  match field.2.dropTyName with
  | some tyName => let _ ← emit (.fieldDrop val field.1 tyName)
  | none => pure ()

/-- The same behind a test of the drop flag. -/
def emitCondFieldDrop (val flag : Ir.Value) (field : String × FieldDropInfo) :
    LowerM E Unit := do
  match field.2.dropTyName with
  | some tyName => do
    let n := (← get).nextVal
    let skip ← newBlock ("skip_field_drop_" ++ toString n)
    let drop ← newBlock ("do_field_drop_" ++ toString n)
    let cont ← newBlock ("cont_field_drop_" ++ toString n)
    setTerm (.condBr flag skip drop)
    setCur skip
    setTerm (.br cont)
    setCur drop
    let _ ← emit (.fieldDrop val field.1 tyName)
    setTerm (.br cont)
    setCur cont
  | none => pure ()

/-- The fields that need a drop, the last one first. -/
def fieldsToDrop (info : DropInfo) : List (String × FieldDropInfo) :=
  (info.fieldDropInfo.filter fun f => f.2.needsDrop && f.2.dropTyName.isSome).reverse

/-- The fields of a partially moved value that are left. -/
def unmovedFields (info : DropInfo) (moved : List String) : List (String × FieldDropInfo) :=
  info.fieldDropInfo.filter fun f =>
    f.2.needsDrop && f.1 ∉ moved && f.2.dropTyName.isSome

/-- `emit_drop_for`. -/
def emitDropFor (info : DropInfo) : LowerM E Unit := do
  match info.moveState with
  | .fullyMoved => pure ()
  | .partiallyMoved moved =>
    if info.hasExplicitDeinit then pure ()
    else
      (unmovedFields info moved).forM fun field => do
        let val ← emit (.load info.slot)
        emitFieldDrop val field
  | moveState =>
    let val ← emit (.load info.slot)
    match moveState, info.dropFlagSlot with
    | .conditionallyMoved, some flagSlot =>
      let flag ← emit (.load flagSlot)
      if info.hasExplicitDeinit then
        let _ ← emit (.condDrop val flag info.tyName)
      else (fieldsToDrop info).forM (emitCondFieldDrop val flag)
    | _, _ =>
      match info.allocStrategy with
      | .region _ => pure ()
      | _ =>
        if info.hasExplicitDeinit then
          let _ ← emit (.drop val info.tyName)
        else (fieldsToDrop info).forM (emitFieldDrop val)

/-- Reverse declaration order. -/
def byDeclOrder (infos : List DropInfo) : List DropInfo :=
  infos.insertionSort fun a b => b.declOrder ≤ a.declOrder

/-- `pop_drop_scope`. -/
def popDropScope : LowerM E Unit := do
  let st ← get
  match st.dropScopes with
  | [] => pure ()
  | scope :: scopes =>
    set { st with dropScopes := scopes }
    (byDeclOrder scope).forM emitDropFor

/-- `emit_drops_to_depth`: the scopes stay open. -/
def emitDropsToDepth (depth : Nat) : LowerM E Unit := do
  let st ← get
  (byDeclOrder (st.dropScopes.take (st.dropScopes.length - depth)).flatten).forM emitDropFor

def emitAllDrops : LowerM E Unit := emitDropsToDepth 0

def enterLoopRegion : LowerM E Nat := do
  let st ← get
  let id := st.nextRegionId
  set { st with nextRegionId := id + 1, loopRegions := (id, []) :: st.loopRegions }
  let _ ← emit (.regionEnter (UInt32.ofNat id))
  return id

/-- `exit_loop_region`; a region that is not the expected one stays, without its list. -/
def exitLoopRegion (expected : Nat) : LowerM E Unit := do
  let st ← get
  match st.loopRegions with
  | [] => pure ()
  | (id, deinit) :: regions =>
    if id = expected then
      set { st with loopRegions := regions }
      let _ ← emit (.regionExit (UInt32.ofNat id) deinit)
    else set { st with loopRegions := (id, []) :: regions }

/-- `exit_all_loop_regions`. -/
def exitAllLoopRegions : LowerM E Unit := do
  let st ← get
  set { st with loopRegions := [] }
  st.loopRegions.forM fun r => do
    let _ ← emit (.regionExit (UInt32.ofNat r.1) r.2)

end Arth.Lower
