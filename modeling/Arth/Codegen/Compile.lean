import Arth.Codegen.Emit

/-!
# `compile_ir_to_program`

* `template` — what each instruction kind emits; `terminator` — what each terminator emits.
* `genFunc` — one function: prologue, phi locals, blocks, and its jump patches.
* `compileIrToProgram` — all functions, the call and closure patches, the tables.
-/

namespace Arth.Codegen

open Ir

/-- What the code generator looks up besides its own state. `funcNames` lists the set of
function names in the order its iterator yields them. -/
structure Ctx where
  strings : List String
  providers : List Provider
  funcNames : List String

/-- The name of a type's deinit function, `pkg.TypeFns.deinit`. -/
def deinitName (tyName : String) : String := tyName ++ "Fns.deinit"

def fieldDeinitName (tyName : String) : String :=
  tyName.map (fun c => if c = '.' then '_' else c) ++ ".deinit"

/-- The function a call names: itself, else one whose qualified name ends with it. -/
def qualifiedName (ctx : Ctx) (name : String) : Option String :=
  if name ∈ ctx.funcNames then some name
  else ctx.funcNames.find? fun n => n.endsWith ("." ++ name) || n == name

/-- The text of a string constant behind an argument, empty when it is not known. -/
def textArg (g : Gen) (args : List Ir.Value) (i : Nat) : String :=
  (args[i]?.bind g.constStr).getD ""

def intArg (g : Gen) (args : List Ir.Value) (i : Nat) (default : Int64) : Int64 :=
  (args[i]?.bind g.constInt).getD default

def argPiece (args : List Ir.Value) (i : Nat) : List Piece :=
  (args[i]?.map Piece.value).toList

def intrinsicPieces (g : Gen) (args : List Ir.Value) : IntrinsicStep → List Piece
  | .arg i => argPiece args i
  | .text i => [.text (textArg g args i)]
  | .textIx i => [.textIx (textArg g args i)]
  | .op o => [.op o]
  | .run o taken left => [.run o taken left]
  | .set => [.set]

def levelName (lvl : Int64) : String :=
  if lvl = 0 then "TRACE"
  else if lvl = 1 then "DEBUG"
  else if lvl = 2 then "INFO"
  else if lvl = 3 then "WARN"
  else "ERROR"

def logPrefix (lvl : Int64) (ev msg : String) : String :=
  levelName lvl ++ (if ev.isEmpty then "" else " " ++ ev) ++
    (if msg.isEmpty then "" else ": " ++ msg)

/-- `__arth_task_spawn_fn`: the arguments from the third on are pushed onto the task. -/
def taskArgPieces (args : List Ir.Value) (argc : Nat) : List Piece :=
  ((args.drop 2).take argc).flatMap fun a => [.get, .value a, .op .taskPushArg, .op .pop]

/-- The intrinsics whose steps depend on more than the name and the number of arguments. -/
def specialIntrinsic (g : Gen) (name : String) (args : List Ir.Value) : Option (List Piece) :=
  if name = "__arth_shared_get_named" ∧ args.length = 1 then
    match args[0]?.bind g.constStr with
    | some s => some [.withText .sharedGetByName s, .set]
    | none => some [.op (.pushI64 0), .set]
  else if name = "__arth_vm_print_str" ∧ args ≠ [] then
    some [.withText .print (textArg g args 0)]
  else if name = "__arth_vm_print_val" ∧ args ≠ [] then
    some (argPiece args 0 ++ [.op .printTop])
  else if name = "__arth_vm_print_str_val" ∧ 2 ≤ args.length then
    some (.intern (textArg g args 0) :: argPiece args 1 ++
      [.withText .printStrVal (textArg g args 0)])
  else if name = "__arth_vm_print_raw" ∧ args ≠ [] then
    some [.withText .printRaw (textArg g args 0)]
  else if name = "__arth_vm_print_raw_str_val" ∧ 2 ≤ args.length then
    some (.intern (textArg g args 0) :: argPiece args 1 ++
      [.withText .printRawStrVal (textArg g args 0)])
  else if name = "__arth_vm_print_ln" then
    some [.op .printLn]
  else if name = "__arth_http_respond" ∧ args.length = 4 then
    some (args.map .value ++ [.op (.hostCallNet .httpRespond), .op .pop])
  else if name = "__arth_log_emit_str" ∧ 3 ≤ args.length then
    some [.withText .print (logPrefix (intArg g args 0 2) (textArg g args 1) (textArg g args 2) ++
      (if (textArg g args 3).isEmpty then "" else " " ++ textArg g args 3))]
  else if name = "__arth_log_emit_str_i64" ∧ 5 ≤ args.length then
    some (.withText .printRaw
        (logPrefix (intArg g args 0 2) (textArg g args 1) (textArg g args 2)) ::
      argPiece args 4 ++ [.withText .printRawStrVal (textArg g args 3), .op .printLn])
  else if name = "__arth_console_writeln" ∧ args.length = 1 then
    match args[0]?.bind g.constStr with
    | some s => some [.withText .print s, .op (.pushI64 0), .set]
    | none => some (argPiece args 0 ++ [.op .printTop, .op .printLn, .op (.pushI64 0), .set])
  else if name = "__arth_task_spawn_fn" ∧ 2 ≤ args.length then
    let argc := intArg g args 1 0
    some ([.op (.pushI64 (intArg g args 0 0)), .op (.pushI64 argc), .op .taskSpawn, .set] ++
      taskArgPieces args argc.toUInt64.toNat)
  else if name = "__arth_end_catch" then
    some [.op (.pushI64 0), .set]
  else if name = "host_call" ∧ args.length = 1 then
    some (argPiece args 0 ++ [.op .hostCallGeneric, .set])
  else none

def callTemplate (ctx : Ctx) (g : Gen) (name : String) (args : List Ir.Value) : List Piece :=
  .bind ::
    match plainIntrinsics.find? fun e => e.1 == name && e.2.1 == args.length with
    | some e => args.map .value ++ [.run e.2.2 args.length 1, .set]
    | none =>
      match otherIntrinsics.find? fun e => e.1 == name && e.2.1 == args.length with
      | some e => e.2.2.flatMap (intrinsicPieces g args)
      | none =>
        match specialIntrinsic g name args with
        | some ps => ps
        | none =>
          args.map .value ++
            [.call ((qualifiedName ctx name).getD name) args.length 1, .set]

/-! ## Providers -/

def findProvider (ctx : Ctx) (name : String) : Option Provider :=
  ctx.providers.reverse.find? fun p => p.name == name

def isSharedField (ctx : Ctx) (provider field : String) : Bool :=
  match findProvider ctx provider with
  | some p => p.fields.any fun f => f.name == field && f.isShared
  | none => false

def fieldIndex (ctx : Ctx) (provider field : String) : Nat :=
  ((findProvider ctx provider).bind fun p => p.fields.findIdx? (·.name == field)).getD 0

def sharedName (provider field : String) : String :=
  if provider.isEmpty then field else provider ++ "." ++ field

/-- The initialisation of one field of a new provider. -/
def providerField (values : List (String × Ir.Value)) (i : Nat) (f : ProviderField) :
    List Piece :=
  let init := ((values.find? fun v => v.1 == f.name).map (·.2)).getD 0
  [.getTemp, .op (.pushI64 (Int64.ofNat i)), if f.isShared then .op .sharedNew else .value init,
    .text f.name, .op .structSet, .op .pop] ++
  if f.isShared ∧ init ≠ 0 then
    [.getTemp, .op (.pushI64 (Int64.ofNat i)), .op .structGet, .value init, .op .sharedStore,
      .op .pop]
  else []

def providerNew (ctx : Ctx) (name : String) (values : List (String × Ir.Value)) : List Piece :=
  .bind ::
    match findProvider ctx name with
    | none => []
    | some p =>
      [.text name, .op (.pushI64 (Int64.ofNat p.fields.length)), .op .structNew, .newTemp,
        .setTemp] ++
      (p.fields.zipIdx.flatMap fun (f, i) => providerField values i f) ++ [.getTemp, .set]

def providerFieldGet (ctx : Ctx) (obj : Ir.Value) (provider field : String) : List Piece :=
  .bind ::
    if obj = 0 then
      [.withText .sharedGetByName (sharedName provider field), .op .sharedLoad, .set]
    else
      [.value obj, .text field, .op .structGetNamed] ++
        (if isSharedField ctx provider field then [.op .sharedLoad] else []) ++ [.set]

def providerFieldSet (ctx : Ctx) (obj : Ir.Value) (provider field : String) (v : Ir.Value) :
    List Piece :=
  if obj = 0 then
    [.withText .sharedGetByName (sharedName provider field), .value v, .op .sharedStore, .op .pop]
  else if isSharedField ctx provider field then
    [.value obj, .text field, .op .structGetNamed, .value v, .op .sharedStore, .op .pop]
  else
    [.value obj, .op (.pushI64 (Int64.ofNat (fieldIndex ctx provider field))), .value v,
      .text field, .op .structSet, .op .pop]

/-! ## Instructions -/

def binaryOp : BinOp → Op
  | .add => .addI64
  | .sub => .subI64
  | .mul => .mulI64
  | .div => .divI64
  | .mod => .modI64
  | .shl => .shlI64
  | .shr => .shrI64
  | .and => .andI64
  | .or => .orI64
  | .xor => .xorI64

def cmpPieces (a b : Ir.Value) : CmpPred → List Piece
  | .eq => [.value a, .value b, .op .eqI64]
  | .lt => [.value a, .value b, .op .ltI64]
  | .gt => [.value b, .value a, .op .ltI64]
  | .le => [.value b, .value a, .op .ltI64, .op (.pushBool 0), .op .eqI64]
  | .ge => [.value a, .value b, .op .ltI64, .op (.pushBool 0), .op .eqI64]
  | .ne => [.value a, .value b, .op .eqI64, .op (.pushBool 0), .op .eqI64]

/-- An extern call with its ABI signature. -/
def externPiece (name : String) (argc : Nat) (params : List Ty) (ret : Ty) : Piece :=
  .native name (UInt8.ofNat (min params.length 255))
    (params.zipIdx.foldl (fun m (ty, i) => if ty = .f64 then m ||| (1 <<< UInt32.ofNat i) else m) 0)
    (match ret with | .f64 => 1 | .void => 2 | _ => 0) argc

/-- What an instruction emits. The constants and `Alloca` also change the maps, see
`genInst`. -/
def template (ctx : Ctx) (g : Gen) : InstKind → List Piece
  | .constI64 n => [.bind, .op (.pushI64 n), .set]
  | .constF64 x => [.bind, .op (.pushF64 x), .set]
  | .constStr _ => []
  | .copy v => [.bind, .value v, .set]
  | .binary op a b => [.bind, .value a, .value b, .op (binaryOp op), .set]
  | .cmp pred a b => .bind :: cmpPieces a b pred ++ [.set]
  | .strEq a b => [.bind, .value a, .value b, .op .eqStr, .set]
  | .strConcat a b => [.bind, .value a, .value b, .op .concatStr, .set]
  | .alloca => []
  | .load p =>
    match g.allocaSlot p with
    | some slot => [.bind, .op (.localGet (UInt32.ofNat slot)), .set]
    | none => []
  | .store p v =>
    match g.allocaSlot p with
    | some slot => [.value v, .op (.localSet (UInt32.ofNat slot))]
    | none => []
  | .call name args _ => callTemplate ctx g name args
  | .externCall name args params ret =>
    args.map .value ++ [externPiece name args.length params ret, .bind, .set]
  | .makeClosure func captures =>
    [.closureNew func captures.length, .bind, .set] ++
      captures.flatMap fun c => [.value c, .get, .op .closureCapture, .op .pop]
  | .closureCall closure args _ =>
    .bind :: args.map .value ++
      [.value closure, .run (.closureCall (UInt32.ofNat args.length)) (args.length + 1) 1, .set]
  | .landingPad _ _ => [.bind, .op .getException, .set]
  | .setUnwindHandler target => [.handler target]
  | .clearUnwindHandler => [.op .clearUnwindHandler]
  | .phi _ => []
  | .drop value tyName =>
    [.value value, .call (deinitName tyName) 1 0, .bind, .op (.pushI64 0), .set]
  | .condDrop value flag tyName =>
    -- `end_pos - jump_pos`: the push of the value and the call are one instruction each
    [.value flag, .op (.pushI64 0), .op .eqI64, .skipBy 3, .value value,
      .call (deinitName tyName) 1 0, .bind, .op (.pushI64 0), .set]
  | .fieldDrop value _ tyName =>
    [.value value, .call (fieldDeinitName tyName) 1 1, .op .pop, .bind, .op (.pushI64 0), .set]
  | .rcAlloc v => [.value v, .op .rcAlloc, .bind, .set]
  | .rcInc h => [.value h, .op .rcInc, .bind, .set]
  | .rcDec h (some tyName) => [.value h, .rcDecWithDeinit (deinitName tyName), .bind, .set]
  | .rcDec h none => [.value h, .op .rcDec, .bind, .set]
  | .rcLoad h => [.value h, .op .rcLoad, .bind, .set]
  | .rcStore h v => [.value h, .value v, .op .rcStore, .bind, .set]
  | .rcGetCount h => [.value h, .op .rcGetCount, .bind, .set]
  | .regionEnter id => [.run (.regionEnter id) 0 0, .bind, .op (.pushI64 0), .set]
  | .regionExit id deinitCalls =>
    (deinitCalls.flatMap fun (v, ty) => [.value v, .call (deinitName ty) 1 1, .op .pop]) ++
      [.run (.regionExit id) 0 0, .bind, .op (.pushI64 0), .set]
  | .getTypeName v => [.value v, .op .structTypeName, .bind, .set]
  | .providerNew name values => providerNew ctx name values
  | .providerFieldGet obj provider field => providerFieldGet ctx obj provider field
  | .providerFieldSet obj provider field v => providerFieldSet ctx obj provider field v
  -- the async state machine and the native struct and enum operations store 0
  | _ => [.bind, .op (.pushI64 0), .set]

/-- The constants and slots an instruction makes known before its code is emitted. -/
def learn (ctx : Ctx) (g : Gen) (inst : Inst) : Gen :=
  match inst.kind with
  | .constI64 n => { g with constInt := g.constInt.insert inst.result n }
  | .constF64 x => { g with constF64 := g.constF64.insert inst.result x }
  | .constStr ix =>
    { g with constStr := g.constStr.insert inst.result ((ctx.strings[ix]?).getD "") }
  | .alloca =>
    { g with
      allocaSlot := g.allocaSlot.insert inst.result g.nextLocal
      nextLocal := g.nextLocal + 1 }
  | _ => g

def PMap.copyTo {α : Type} (m : PMap α) (src dst : Nat) : PMap α :=
  match m src with
  | some a => m.insert dst a
  | none => m

/-- A copy of a known constant is a known constant. -/
def propagate (g : Gen) (inst : Inst) : Gen :=
  match inst.kind with
  | .copy v =>
    { g with
      constInt := PMap.copyTo g.constInt v inst.result
      constStr := PMap.copyTo g.constStr v inst.result
      constF64 := PMap.copyTo g.constF64 v inst.result }
  | _ => g

def genInst (ctx : Ctx) (b : Block) (g : Gen) (i : Nat) (inst : Inst) : Gen :=
  let g := learn ctx { g with site := ⟨g.site.func, b, .inst i⟩, height := 0 } inst
  propagate (g.emitAll inst.result (template ctx g inst.kind)) inst

/-- The phis of each block: result and operands. -/
abbrev PhiInfo := List (List (Ir.Value × List (Block × Ir.Value)))

def phiInfo (f : Func) : PhiInfo :=
  f.blocks.map fun b => b.insts.filterMap fun inst =>
    match inst.kind with
    | .phi ops => some (inst.result, ops)
    | _ => none

/-- One phi assignment on the edge from `src`. -/
def phiPieces (g : Gen) (src : Block) (phi : Ir.Value × List (Block × Ir.Value)) :
    List Piece :=
  match phi.2.find? fun o => o.1 == src with
  | some o => .value o.2 :: if (g.valLocal phi.1).isSome then [.phi phi.1] else []
  | none => []

/-- `emit_phi_assignments`: one assignment after another. -/
def emitPhiAssignments (g : Gen) (phis : PhiInfo) (src dst : Block) : List Piece :=
  (phis.getD dst []).flatMap (phiPieces g src)

/-- An edge: the phi assignments, then the jump. -/
def edgePieces (g : Gen) (phis : PhiInfo) (src dst : Block) : List Piece :=
  emitPhiAssignments g phis src dst ++ [.jump dst]

/-- The function an `Invoke` calls, if it is known. -/
def invokeName (ctx : Ctx) (callee : String) : Option String :=
  if callee ∈ ctx.funcNames then some callee
  else ctx.funcNames.find? fun n => n.endsWith ("." ++ callee)

def invokePieces (ctx : Ctx) (callee : String) (args : List Ir.Value)
    (result : Option Ir.Value) : List Piece :=
  match invokeName ctx callee with
  | some name =>
    args.map .value ++ [.call name args.length 1] ++
      (match result with | some _ => [.bind, .set] | none => [.op .pop])
  | none => match result with | some _ => [.op (.pushI64 0), .bind, .set] | none => []

def terminator (ctx : Ctx) (g : Gen) (phis : PhiInfo) (src : Block) :
    Terminator → List Piece
  | .ret (some v) => [.value v, .run .ret 1 0]
  | .ret none => [.op .ret]
  | .br b => edgePieces g phis src b
  | .condBr cond thenBb elseBb =>
    let thenCode := edgePieces g phis src thenBb
    [.value cond, .skipTo thenCode.length] ++ thenCode ++ edgePieces g phis src elseBb
  | .switch scrut default cases =>
    (cases.flatMap fun (val, b) =>
      let caseCode := edgePieces g phis src b
      [.value scrut, .op (.pushI64 val), .op .eqI64, .skipTo caseCode.length] ++ caseCode) ++
    edgePieces g phis src default
  | .unreachable => []
  | .throw (some v) => [.value v, .op .throw]
  | .throw none => [.op (.pushI64 0), .op .throw]
  | .panic msg => [.withText .panic (((msg.bind g.constStr)).getD "panic")]
  | .invoke callee args _ result normal _ => invokePieces ctx callee args result ++ [.jump normal]
  | .pollReturn _ _ => [.op .ret]

def termResult : Terminator → Ir.Value
  | .invoke _ _ _ (some res) _ _ => res
  | _ => 0

def genTerm (ctx : Ctx) (phis : PhiInfo) (b : Block) (g : Gen) (t : Terminator) : Gen :=
  let g := { g with site := ⟨g.site.func, b, .term⟩, height := 0 }
  g.emitAll (termResult t) (terminator ctx g phis b t)

/-! ## Functions -/

def genInsts (ctx : Ctx) (b : Block) (g : Gen) (insts : List Inst) : Gen :=
  insts.zipIdx.foldl (fun g (inst, i) => genInst ctx b g i inst) g

def genBlock (ctx : Ctx) (phis : PhiInfo) (b : Block) (g : Gen) (bd : BlockData) : Gen :=
  genTerm ctx phis b (genInsts ctx b g bd.insts) bd.term

/-- The blocks in order, with the offset each starts at. -/
def genBlocks (ctx : Ctx) (phis : PhiInfo) : Block → Gen → List BlockData → Gen × List Nat
  | _, g, [] => (g, [])
  | b, g, bd :: bds =>
    let (g', offsets) := genBlocks ctx phis (b + 1) (genBlock ctx phis b g bd) bds
    (g', g.pos :: offsets)

/-- The prologue pops the arguments into locals `argc - 1, …, 0`, which the parameters
are read from. -/
def genPrologue (k base : Nat) (outStrings : List String) (argc : Nat) : Gen :=
  { base
    code := (List.range argc).map fun i =>
      ⟨.localSet (UInt32.ofNat (argc - 1 - i)), none, none, ⟨k, 0, .prologue⟩, argc - i,
        (1, 0), .sets (argc - 1 - i)⟩
    outStrings
    constInt := fun _ => none
    constStr := fun _ => none
    constF64 := fun _ => none
    valLocal := fun v => if v < argc then some v else none
    allocaSlot := fun _ => none
    nextLocal := argc
    temp := 0
    site := ⟨k, 0, .prologue⟩
    height := 0 }

/-- Locals for all phi results, before any block is emitted. -/
def bindPhis (g : Gen) (phis : PhiInfo) : Gen :=
  phis.flatten.foldl (fun g phi => g.ensureLocalFor phi.1) g

/-- One patched jump: a target that is no block of the function leaves the placeholder. -/
def patchJump (blockOffset : List Nat) (it : Item) : Item :=
  match it.patch with
  | some (.block b) =>
    match blockOffset[b]? with
    | some t =>
      match it.op with
      | .jump _ => { it with op := .jump (UInt32.ofNat t) }
      | .jumpIfFalse _ => { it with op := .jumpIfFalse (UInt32.ofNat t) }
      | .setUnwindHandler _ => { it with op := .setUnwindHandler (UInt32.ofNat t) }
      | _ => it
    | none => it
  | _ => it

structure FuncCode where
  offset : Nat
  items : List Item
  blockOffset : List Nat
  outStrings : List String

def genFunc (ctx : Ctx) (k offset : Nat) (outStrings : List String) (f : Func) : FuncCode :=
  let phis := phiInfo f
  let g := bindPhis (genPrologue k offset outStrings f.params.length) phis
  let (g, blockOffset) := genBlocks ctx phis 0 g f.blocks
  ⟨offset, g.code.map (patchJump blockOffset), blockOffset, g.outStrings⟩

/-- The functions one after another. -/
def genFuncs (ctx : Ctx) : Nat → Nat → List String → List Func → List FuncCode
  | _, _, _, [] => []
  | k, offset, outStrings, f :: fs =>
    let fc := genFunc ctx k offset outStrings f
    fc :: genFuncs ctx (k + 1) (offset + fc.items.length) fc.outStrings fs

/-- The entry offset of a function; the last function of a name wins. -/
def funcOffset (funcs : List Func) (fcs : List FuncCode) (name : String) : Option Nat :=
  ((funcs.zip fcs).reverse.find? fun e => e.1.name == name).map (·.2.offset)

/-- One patched call: a local function's offset goes into a `Call` only; a name that is
not in the program becomes a symbolic call. -/
def patchCall (offsets : String → Option Nat) (pool : List String) (it : Item) :
    Item × List String :=
  match it.patch with
  | some (.call name) =>
    match offsets name with
    | some off =>
      match it.op with
      | .call _ => ({ it with op := .call (UInt32.ofNat off) }, pool)
      | .taskRunBody _ => ({ it with op := .taskRunBody (UInt32.ofNat off) }, pool)
      | _ => (it, pool)
    | none =>
      let (ix, pool) := strIndex pool name
      ({ it with op := .callSymbol ix }, pool)
  | _ => (it, pool)

def patchCalls (offsets : String → Option Nat) :
    List String → List Item → List Item × List String
  | pool, [] => ([], pool)
  | pool, it :: its =>
    let (it', pool) := patchCall offsets pool it
    let (its', pool) := patchCalls offsets pool its
    (it' :: its', pool)

/-- One patched closure. -/
def patchClosure (offsets : String → Option Nat) (it : Item) : Item :=
  match it.patch with
  | some (.closure name) =>
    match offsets name, it.op with
    | some off, .closureNew _ n => { it with op := .closureNew (UInt32.ofNat off) n }
    | _, _ => it
  | _ => it

/-- `compute_string_hash`, FNV-1a. -/
def computeStringHash (s : String) : Int64 :=
  (s.toUTF8.toList.foldl (fun h b => (h ^^^ b.toUInt64) * 0x100000001b3)
    (0xcbf29ce484222325 : UInt64)).toInt64

/-- The function name behind the first dot. -/
def unqualifiedName (name : String) : String :=
  if '.' ∈ name.toList then String.ofList (name.toList.dropWhile (· ≠ '.')).tail else name

/-- The entries a map built from the list keeps: the last one of each key. -/
def lastOfKey : List (Int64 × UInt32) → List (Int64 × UInt32)
  | [] => []
  | e :: es => if es.any (·.1 == e.1) then lastOfKey es else e :: lastOfKey es

/-- The offsets of the async bodies by the hash of their names. -/
def asyncDispatch (funcs : List Func) (fcs : List FuncCode) : List (Int64 × UInt32) :=
  lastOfKey <| (funcs.filter fun f => f.name.endsWith "$async_body").filterMap fun f =>
    (funcOffset funcs fcs f.name).map fun off =>
      (computeStringHash (unqualifiedName f.name), UInt32.ofNat off)

def debugEntries (funcs : List Func) (fcs : List FuncCode) : List DebugEntry :=
  (funcs.zip fcs).map fun e => ⟨UInt32.ofNat e.2.offset, e.1.name, e.1.sourceFile, 0⟩

/-- The code before the calls are patched. -/
def unlinked (ctx : Ctx) (funcs : List Func) : List FuncCode :=
  genFuncs ctx 0 0 [] funcs

/-- The code with all patches applied, and the string table. -/
def linked (ctx : Ctx) (funcs : List Func) : List Item × List String :=
  let fcs := unlinked ctx funcs
  let offsets := funcOffset funcs fcs
  let pool := (fcs.getLast?.map (·.outStrings)).getD []
  let (items, pool) := patchCalls offsets pool (fcs.flatMap (·.items))
  (items.map (patchClosure offsets), pool)

def compileIrToProgram (ctx : Ctx) (funcs : List Func) : Program :=
  if funcs = [] then ⟨[], [.halt], [], []⟩
  else
    let fcs := unlinked ctx funcs
    let (items, pool) := linked ctx funcs
    ⟨pool, items.map (·.op) ++ [.halt], asyncDispatch funcs fcs, debugEntries funcs fcs⟩

end Arth.Codegen
