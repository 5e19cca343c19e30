import Arth.Vm.Signature

/-!
# The interpreter

`run_program_internal` as a machine: a state, the effect `exec` of one instruction, and
`step`, one turn of the loop with its budgets. Lists grow at the head, so the top of a
stack is its head.

* Control transfer, the locals, the handler stack and the capability checks are written
  out as the interpreter has them, and so is the 64-bit integer arithmetic.
* What the other instructions compute from the operands they pop (the collections, the
  strings, the floats, the host) is the parameter `Runtime`; which operands they pop and
  how many values they push is the table `Op.sig`.
-/

namespace Arth

/-- The domains `HostConfig` can deny. -/
inductive Capability where
  | io | net | time | db | mail | crypto
  | wispCalendar | wispSheet | wispDoc | wispPres
  deriving DecidableEq

structure HostConfig where
  allowIo : Bool
  allowNet : Bool
  allowTime : Bool
  allowDb : Bool
  allowMail : Bool
  allowCrypto : Bool
  allowWispCalendar : Bool
  allowWispSheet : Bool
  allowWispDoc : Bool
  allowWispPres : Bool
  deriving DecidableEq

def HostConfig.allows (c : HostConfig) : Capability → Bool
  | .io => c.allowIo
  | .net => c.allowNet
  | .time => c.allowTime
  | .db => c.allowDb
  | .mail => c.allowMail
  | .crypto => c.allowCrypto
  | .wispCalendar => c.allowWispCalendar
  | .wispSheet => c.allowWispSheet
  | .wispDoc => c.allowWispDoc
  | .wispPres => c.allowWispPres

/-- What the function behind an instruction gives back: the new world and the values it
pushes, or the exit code the machine stops with when the operands are of the wrong type and
nothing is done. -/
inductive Effect (W : Type) where
  | done (w : W) (vs : List Value)
  | fail (code : Int)

inductive TaskState where
  | pending (fnId : Int64) (args : List Int64)
  | completed (result : Int64)
  | cancelled (exc : Int64)
  | panicked (msg : String)
  | running
  | error (exc : Int64)
  | absent
  deriving DecidableEq

/-- The functions the interpreter calls: the heap, the tasks, native symbols, and `eval`
for every instruction whose result the machine does not compute itself. -/
structure Runtime (W : Type) where
  eval : Op → List Value → W → Effect W
  builtin : String → List Value → W → W × Value
  closureGetFuncId : W → Int64 → Option UInt32
  closureGetCaptures : W → Int64 → List Value
  rcDec : W → Int64 → W × Option Value
  taskState : W → Int64 → TaskState
  taskMarkRunning : W → Int64 → W
  taskArgs : W → Int64 → List Int64
  getPanicMessage : W → String
  panicWithMessage : W → String → W
  resolveExternSymbol : String → Bool
  genericCapabilities : List Value → List Capability
  externCapabilities : String → List Capability

structure UnwindHandler where
  handlerIp : UInt32
  frameDepth : Nat
  deriving DecidableEq

structure State (W : Type) where
  ip : Nat
  stack : List Value
  frames : List (List (Option Value))
  retStack : List Nat
  handlers : List UnwindHandler
  exception : Int64
  steps : Nat
  world : W
  hostLog : List (Capability × Op)

/-- The state `run_program_internal` starts in. -/
def State.initial {W : Type} (w : W) : State W :=
  ⟨0, [], [[]], [], [], 0, 0, w, []⟩

/-- The environment of a run: program, host context, linked symbols, mode and budgets. -/
structure Env (W : Type) where
  program : Program
  ctx : Option HostConfig
  symbolTable : List (String × UInt32)
  isExportCall : Bool
  maxSteps : Nat
  maxStackDepth : Nat
  maxCallDepth : Nat
  rt : Runtime W

inductive InterpreterResult where
  | exitCode (code : Int)
  | returnValue (v : Option Int64)
  | failed (code : Int)
  deriving DecidableEq

/-- One turn of the loop: it goes on, it stops with a result, it loops for ever inside
one instruction, or the interpreter itself aborts (`unwrap` of `None`). -/
inductive Outcome (W : Type) where
  | next (s : State W)
  | stop (r : InterpreterResult)
  | hang
  | abort

variable {W : Type}

namespace State

def push (s : State W) (v : Value) : State W := { s with stack := v :: s.stack }

/-- `ip += 1`. -/
def advance (s : State W) : State W := { s with ip := s.ip + 1 }

def jump (s : State W) (tgt : Nat) : State W := { s with ip := tgt }

/-- Push the return address and a frame, and go to `tgt`. -/
def enter (s : State W) (frame : List (Option Value)) (tgt : Nat) : State W :=
  { s with ip := tgt, retStack := (s.ip + 1) :: s.retStack, frames := frame :: s.frames }

/-- Drop the frames above the handler and go to it. -/
def unwindTo (s : State W) (h : UnwindHandler) : State W :=
  { s with
    ip := h.handlerIp.toNat
    frames := s.frames.drop (s.frames.length - h.frameDepth)
    retStack := s.retStack.drop (s.frames.length - h.frameDepth) }

end State

/-- Drop the newest handler and unwind to it; without one the run stops with `code`. -/
def unwind (s : State W) (code : Int) : Outcome W :=
  match s.handlers with
  | h :: hs => .next ({ s with handlers := hs }.unwindTo h)
  | [] => .stop (.failed code)

def Program.stringAt (p : Program) (ix : UInt32) : Option String :=
  p.strings[ix.toNat]?

/-- `scan_function_local_count`: the highest local of the code from `offset` on, up to the
first return or backward jump. -/
def scanFunctionLocalCount (p : Program) (offset : UInt32) : Nat :=
  (go (p.code.drop offset.toNat |>.take 10001) (-1) + 1).toNat
where
  go : List Op → Int → Int
    | [], m => m
    | .localGet ix :: ops, m => go ops (max m ix.toInt32.toInt)
    | .localSet ix :: ops, m => go ops (max m ix.toInt32.toInt)
    | .ret :: _, m => m
    | .jump tgt :: ops, m => if tgt < offset then m else go ops m
    | _ :: ops, m => go ops m

/-- The outcome of `find_first_local_get`, whose loop follows jumps without counting them
and can therefore run for ever. -/
inductive FirstLocalGet where
  | found (ix : UInt32)
  | absent
  | loops
  deriving DecidableEq

/-- What the scan does at one instruction: end, follow a jump, or go on with the locals
written so far. -/
inductive ScanStep where
  | ends (r : FirstLocalGet)
  | follow (ip : Nat)
  | on (set : List UInt32)

def scanOp (set : List UInt32) : Op → ScanStep
  | .localSet ix => .on (ix :: set)
  | .localGet ix => if ix ∈ set then .on set else .ends (.found ix)
  | .ret => .ends .absent
  | .halt => .ends .absent
  | .jump tgt => .follow tgt.toNat
  | _ => .on set

/-- `find_first_local_get`: the first local read that was not written before. The state of
the loop is the position and the set of locals written so far, so it repeats within the
given fuel if it does not end. -/
def findFirstLocalGet (p : Program) (offset : UInt32) : FirstLocalGet :=
  go ((p.code.length + 1) * (p.code.length + 1)) offset.toNat []
where
  go : Nat → Nat → List UInt32 → FirstLocalGet
    | 0, _, _ => .loops
    | fuel + 1, ip, set =>
      match p.code[ip]? with
      | none => .absent
      | some op =>
        match scanOp set op with
        | .ends r => r
        | .follow tgt => go fuel tgt set
        | .on set' => if ip + 1 > offset.toNat + 100 then .absent else go fuel (ip + 1) set'

def isLocalSet : Option Op → Bool
  | some (.localSet _) => true
  | _ => false

def Env.denies (env : Env W) (c : Capability) : Bool :=
  match env.ctx with
  | some cfg => !cfg.allows c
  | none => false

/-- The capability whose domain an instruction reaches without a host call: console and
file output, descriptors, clocks and timers, sockets. -/
def Op.directCapability : Op → Option Capability
  | .print _ | .printStrVal _ | .printRaw _ | .printRawStrVal _ | .printLn | .printTop
    | .templateCompileFile | .eventLoopRegisterFd | .eventLoopPipeCreate | .eventLoopPipeWrite
    | .eventLoopPipeRead | .eventLoopPipeClose => some .io
  | .eventLoopRegisterTimer | .eventLoopPoll | .timerSleep | .timerSleepAsync
    | .timerCheckExpired | .timerGetWaitingTask | .timerCancel | .timerPollExpired | .timerNow
    | .timerElapsed | .timerRemove | .timerRemaining => some .time
  | .tcpListenerBind | .tcpListenerAccept | .tcpListenerAcceptAsync | .tcpListenerClose
    | .tcpListenerLocalPort | .tcpStreamConnect | .tcpStreamConnectAsync | .tcpStreamRead
    | .tcpStreamReadAsync | .tcpStreamWrite | .tcpStreamWriteAsync | .tcpStreamClose
    | .tcpStreamGetLastRead | .tcpStreamSetTimeout | .tcpCheckReady | .tcpGetResult
    | .tcpPollReady | .tcpRemoveRequest | .httpGet | .httpPost | .httpGetAsync | .httpPostAsync
    | .httpResponseStatus | .httpResponseHeader | .httpResponseBody | .httpResponseClose
    | .httpCheckReady | .httpGetResult | .httpPollReady | .httpRemoveRequest
    | .httpGetBodyLength | .httpGetHeaderCount | .httpServerCreate | .httpServerClose
    | .httpServerGetPort | .httpServerAccept | .httpServerAcceptAsync | .httpRequestMethod
    | .httpRequestPath | .httpRequestHeader | .httpRequestBody | .httpRequestHeaderCount
    | .httpRequestBodyLength | .httpWriterStatus | .httpWriterHeader | .httpWriterBody
    | .httpWriterSend | .httpWriterSendAsync | .httpServerCheckReady | .httpServerGetResult
    | .httpServerPollReady | .httpServerRemoveRequest => some .net
  | _ => none

/-- The capabilities whose operations an instruction performs on the operands it popped. -/
def performs (env : Env W) (op : Op) (args : List Value) : List Capability :=
  match op with
  | .hostCallIo _ => [.io]
  | .hostCallNet _ => [.net]
  | .hostCallTime _ => [.time]
  | .hostCallDb _ => [.db]
  | .hostCallMail _ => [.mail]
  | .hostCallCrypto _ => [.crypto]
  | .hostCallGeneric => env.rt.genericCapabilities args
  | op => op.directCapability.toList

def State.record (s : State W) (op : Op) (cs : List Capability) : State W :=
  { s with hostLog := cs.map (·, op) ++ s.hostLog }

def Value.isNum : Value → Bool
  | .i64 _ => true
  | .f64 _ => true
  | _ => false

/-- What an instruction computes from the operands it popped, the last one first. -/
def evalOp (env : Env W) (op : Op) (args : List Value) (w : W) : Effect W :=
  match op, args with
  | .pushI64 n, _ => .done w [.i64 n]
  | .pushF64 x, _ => .done w [.f64 x]
  | .pushBool b, _ => .done w [.bool (b ≠ 0)]
  | .pushStr ix, _ => .done w [.str ((env.program.stringAt ix).getD "")]
  | .addI64, [.i64 b, .i64 a] => .done w [.i64 (a + b)]
  | .addI64, [.str b, .str a] => .done w [.str (a ++ b)]
  | .subI64, [.i64 b, .i64 a] => .done w [.i64 (a - b)]
  | .mulI64, [.i64 b, .i64 a] => .done w [.i64 (a * b)]
  | .divI64, [.i64 b, .i64 a] => if b = 0 then .fail 2 else .done w [.i64 (a / b)]
  | .modI64, [.i64 b, .i64 a] => if b = 0 then .fail 2 else .done w [.i64 (a % b)]
  | .ltI64, [.i64 b, .i64 a] => .done w [.bool (a < b)]
  | .ltI64, [.str b, .str a] => .done w [.bool (a < b)]
  | .ltI64, [b, a] => if a.isNum && b.isNum then env.rt.eval .ltI64 [b, a] w else .fail 1
  | .eqI64, [.i64 b, .i64 a] => .done w [.bool (a = b)]
  | .eqI64, [.bool b, .bool a] => .done w [.bool (a = b)]
  | .eqI64, [.str b, .str a] => .done w [.bool (a = b)]
  | .eqI64, [b, a] => if a.isNum && b.isNum then env.rt.eval .eqI64 [b, a] w else .fail 1
  | .eqStr, [.str b, .str a] => .done w [.bool (a = b)]
  | .eqStr, [_, _] => .done w [.bool false]
  | .concatStr, [.str b, .str a] => .done w [.str (a ++ b)]
  | .shlI64, [.i64 b, .i64 a] => .done w [.i64 (a <<< b)]
  | .shrI64, [.i64 b, .i64 a] => .done w [.i64 (a >>> b)]
  | .andI64, [.i64 b, .i64 a] => .done w [.i64 (a &&& b)]
  | .orI64, [.i64 b, .i64 a] => .done w [.i64 (a ||| b)]
  | .xorI64, [.i64 b, .i64 a] => .done w [.i64 (a ^^^ b)]
  | .toBool, [.bool b] => .done w [.bool b]
  | .toBool, [.i64 n] => .done w [.bool (n ≠ 0)]
  | .toBool, [.str s] => .done w [.bool (s ≠ "")]
  | .getPanicMessage, _ => .done w [.str (env.rt.getPanicMessage w)]
  | op, args => env.rt.eval op args w

/-- Pop the operands, compute, push the results, go to the next instruction. -/
def runSig (env : Env W) (op : Op) (sg : Sig) (s : State W) : Outcome W :=
  match popOperands sg.operands s.stack with
  | .failed => .stop (.failed 1)
  | .aborted v rest => .next { s with stack := v :: rest }.advance
  | .taken args rest =>
    match evalOp env op args s.world with
    | .fail code => .stop (.failed code)
    | .done w vs =>
      .next ({ s with
        stack := (sg.results.shape vs).reverse ++ (if sg.drains then [] else rest)
        world := w }.record op (performs env op args)).advance

/-- The host-call families: a denied call pushes `-1` and pops nothing. -/
def hostCall (env : Env W) (c : Capability) (op : Op) (sg : Sig) (s : State W) : Outcome W :=
  if env.denies c then .next (s.push (.i64 (-1))).advance else runSig env op sg s

/-- The families dispatched through a `HostContext`; without one they pop one value and
push `-1`. -/
def contextCall (env : Env W) (c : Capability) (op : Op) (sg : Sig) (s : State W) :
    Outcome W :=
  match env.ctx with
  | some _ => hostCall env c op sg s
  | none => .next { s with stack := .i64 (-1) :: s.stack.tail }.advance

/-! ## Control transfer -/

/-- `Op::Call`: a callee without a prologue takes the top of the stack, if there is one,
into the first local it reads. -/
def callOp (env : Env W) (tgt : UInt32) (s : State W) : Outcome W :=
  let frame := List.replicate (scanFunctionLocalCount env.program tgt) none
  match isLocalSet env.program.code[tgt.toNat]?, s.stack with
  | false, arg :: rest =>
    match findFirstLocalGet env.program tgt with
    | .loops => .hang
    | .found ix => .next ({ s with stack := rest }.enter (frame.set ix.toNat (some arg)) tgt.toNat)
    | .absent => .next ({ s with stack := rest }.enter (frame.set 0 (some arg)) tgt.toNat)
  | _, _ => .next (s.enter frame tgt.toNat)

/-- `lookup_symbol`: an exact match, else the first symbol that ends with the name. -/
def lookupSymbol (table : List (String × UInt32)) (name : String) : Option UInt32 :=
  match table.find? (·.1 == name) with
  | some e => some e.2
  | none => (table.find? fun e => e.1.endsWith ("." ++ name)).map (·.2)

/-- The names `Op::CallSymbol` handles itself, with the operands each of them pops. -/
def builtinOperands : String → Option (List Operand)
  | "s.charAt" => some [numOr (.i64 0), strOr]
  | "s.length" => some [strOr]
  | "Json.decode" => some [⟨.str, .use (.str "\x7b\x7d")⟩]
  | "Json.encode" => some [popOptional]
  | "s.indexOf" => some [strOr, strOr]
  | "s.substring" => some [numOr (.i64 0), numOr (.i64 0), strOr]
  | "s.includes" => some [strOr, strOr]
  | "s.startsWith" => some [strOr, strOr]
  | "s.endsWith" => some [strOr, strOr]
  | _ => none

/-- `s.charAt` falls back on local 1 when its string is not on the stack. -/
def charAtFallback (s : State W) : List Operand → List Operand
  | [ix, o] =>
    match (s.frames.headD []).getD 1 none with
    | some (.str t) => [ix, ⟨o.accept, .use (.str t)⟩]
    | _ => [ix, o]
  | os => os

def callBuiltin (env : Env W) (name : String) (os : List Operand) (s : State W) : Outcome W :=
  let os := if name = "s.charAt" then charAtFallback s os else os
  match popOperands os s.stack with
  | .taken args rest =>
    let (w, v) := env.rt.builtin name args s.world
    .next { s with stack := v :: rest, world := w }.advance
  | .aborted v rest => .next { s with stack := v :: rest }.advance
  | .failed => .stop (.failed 1)

def callSymbol (env : Env W) (sym : UInt32) (s : State W) : Outcome W :=
  match env.program.stringAt sym with
  | none => .stop (.failed 2)
  | some name =>
    match builtinOperands name with
    | some os => callBuiltin env name os s
    | none =>
      match lookupSymbol env.symbolTable name with
      | some offset => .next (s.enter [] offset.toNat)
      | none => .stop (.failed 2)

def closureCall (env : Env W) (numArgs : UInt32) (s : State W) : Outcome W :=
  match s.stack with
  | .i64 h :: st =>
    match env.rt.closureGetFuncId s.world h with
    | none => .stop (.failed 1)
    | some funcId =>
      if numArgs.toNat ≤ st.length then
        let captures := env.rt.closureGetCaptures s.world h
        .next ({ s with
          stack := st.take numArgs.toNat ++ captures.reverse ++ st.drop numArgs.toNat }.enter
          [] funcId.toNat)
      else .stop (.failed 1)
  | _ => .stop (.failed 1)

/-- `VM_EXTERN_CALL_MAX_ARGS`. -/
def vmExternCallMaxArgs : Nat := 4

def externCall (env : Env W) (sym : UInt32) (argc : UInt8) (floatMask : UInt32)
    (retKind : UInt8) (s : State W) : Outcome W :=
  match env.program.stringAt sym with
  | none => .stop (.failed 2)
  | some name =>
    let args := s.stack.take argc.toNat
    if argc.toNat ≤ vmExternCallMaxArgs ∧ env.rt.resolveExternSymbol name ∧
        args.length = argc.toNat ∧ args.all Accept.scalar.takes ∧ retKind ≤ 2 then
      match env.rt.eval (.externCall sym argc floatMask retKind) args s.world with
      | .fail code => .stop (.failed code)
      | .done w vs =>
        .next ({ s with
          stack := vs.headD (.i64 0) :: s.stack.drop argc.toNat
          world := w }.record (.externCall sym argc floatMask retKind)
            (env.rt.externCapabilities name)).advance
    else .stop (.failed 2)

def Value.asI64 : Value → Option Int64
  | .i64 n => some n
  | _ => none

/-- The end of the loop. -/
def finish (env : Env W) (s : State W) : InterpreterResult :=
  if env.isExportCall then .returnValue (s.stack.head?.bind Value.asI64) else .exitCode 0

/-- `Op::Ret`: in an export call the value on top is popped and pushed back. -/
def ret (env : Env W) (s : State W) : Outcome W :=
  let returnValue := if env.isExportCall then s.stack.head? else none
  let st := if env.isExportCall then s.stack.tail else s.stack
  match s.retStack with
  | rip :: rips =>
    .next { s with
      stack := returnValue.toList ++ st
      frames := s.frames.tail
      retStack := rips
      ip := rip }
  | [] =>
    if env.isExportCall then .stop (.returnValue (returnValue.bind Value.asI64))
    else .stop (.exitCode 0)

def rcDecWithDeinit (env : Env W) (funcOffset : UInt32) (s : State W) : Outcome W :=
  match s.stack with
  | .i64 h :: st =>
    match env.rt.rcDec s.world h with
    | (w, some value) =>
      .next ({ s with stack := value :: st, world := w }.enter [] funcOffset.toNat)
    | (w, none) => .next { s with stack := .i64 0 :: st, world := w }.advance
  | _ => .stop (.failed 1)

/-- An awaited task that failed throws its exception, which stays on the stack as well. -/
def taskAwait (env : Env W) (s : State W) : Outcome W :=
  match s.stack with
  | .i64 h :: st =>
    match env.rt.taskState s.world h with
    | .completed r => .next { s with stack := .i64 r :: st }.advance
    | .cancelled exc => unwind { s with stack := .i64 exc :: st, exception := exc } 3
    | .error exc => unwind { s with stack := .i64 exc :: st, exception := exc } 3
    | .panicked msg =>
      .next { s with
        stack := .i64 (-2) :: st
        world := env.rt.panicWithMessage s.world msg }.advance
    | .running => .next { s with stack := .i64 0 :: st }.advance
    | .absent => .next { s with stack := .i64 0 :: st }.advance
    | .pending fnId args =>
      match env.program.asyncDispatch.find? (·.1 == fnId) with
      | some e =>
        .next ({ s with
          stack := args.map Value.i64 ++ st
          world := env.rt.taskMarkRunning s.world h }.enter [] e.2.toNat)
      | none => .next { s with stack := .i64 0 :: st }.advance
  | _ => .stop (.failed 1)

def taskRunBody (env : Env W) (funcOffset : UInt32) (s : State W) : Outcome W :=
  match s.stack with
  | .i64 h :: st =>
    .next ({ s with
      stack := (env.rt.taskArgs s.world h).map Value.i64 ++ st
      world := env.rt.taskMarkRunning s.world h }.enter [] funcOffset.toNat)
  | _ => .stop (.failed 1)

/-- `Op::LocalGet`: a local never written reads as 0. -/
def localGet (ix : UInt32) (s : State W) : Outcome W :=
  match s.frames with
  | [] => .abort
  | f :: _ => .next (s.push ((f[ix.toNat]?.join).getD (.i64 0))).advance

def setLocal (f : List (Option Value)) (i : Nat) (v : Value) : List (Option Value) :=
  (f ++ List.replicate (i + 1 - f.length) none).set i (some v)

/-- `Op::LocalSet`: an empty stack writes 0. -/
def localSet (ix : UInt32) (s : State W) : Outcome W :=
  match s.frames with
  | [] => .abort
  | f :: fs =>
    .next { s with
      stack := s.stack.tail
      frames := setLocal f ix.toNat (s.stack.headD (.i64 0)) :: fs }.advance

/-- The effect of one instruction. -/
def exec (env : Env W) (op : Op) (s : State W) : Outcome W :=
  match op with
  | .halt => .stop (finish env s)
  | .jump tgt => .next (s.jump tgt.toNat)
  | .jumpIfFalse tgt =>
    match s.stack with
    | .bool true :: st => .next { s with stack := st }.advance
    | .bool false :: st => .next ({ s with stack := st }.jump tgt.toNat)
    | _ => .stop (.failed 1)
  | .call tgt => callOp env tgt s
  | .callSymbol sym => callSymbol env sym s
  | .externCall sym argc floatMask retKind => externCall env sym argc floatMask retKind s
  | .ret => ret env s
  | .pop => .next { s with stack := s.stack.tail }.advance
  | .localGet ix => localGet ix s
  | .localSet ix => localSet ix s
  | .closureCall numArgs => closureCall env numArgs s
  | .rcDecWithDeinit funcOffset => rcDecWithDeinit env funcOffset s
  | .panic msgIdx =>
    let msg := (env.program.stringAt msgIdx).getD "panic"
    unwind { s with world := env.rt.panicWithMessage s.world msg } 2
  | .setUnwindHandler handlerIp =>
    .next { s with handlers := ⟨handlerIp, s.frames.length⟩ :: s.handlers }.advance
  | .clearUnwindHandler => .next { s with handlers := s.handlers.tail }.advance
  | .throw =>
    match s.stack with
    | v :: st => unwind { s with stack := st, exception := v.asI64.getD 0 } 3
    | [] => .stop (.failed 1)
  | .getException => .next ({ s with exception := 0 }.push (.i64 s.exception)).advance
  | .taskAwait => taskAwait env s
  | .taskRunBody funcOffset => taskRunBody env funcOffset s
  | .hostCallIo o => hostCall env .io (.hostCallIo o) o.sig s
  | .hostCallNet o => hostCall env .net (.hostCallNet o) o.sig s
  | .hostCallTime o =>
    match o.sig with
    | some sg => hostCall env .time (.hostCallTime o) sg s
    | none =>
      if env.denies .time then .next (s.push (.i64 (-1))).advance else .stop (.failed 1)
  | .hostCallDb o => contextCall env .db (.hostCallDb o) o.sig s
  | .hostCallMail o => contextCall env .mail (.hostCallMail o) o.sig s
  | .hostCallCrypto o => contextCall env .crypto (.hostCallCrypto o) o.sig s
  | op =>
    match op.sig with
    | some sg => runSig env op sg s
    | none => .stop (.failed 1)

/-- The step, stack and call-depth budgets checked before each instruction. -/
def overBudget (env : Env W) (s : State W) : Bool :=
  env.maxSteps < s.steps + 1 || env.maxStackDepth < s.stack.length ||
    env.maxCallDepth < s.frames.length - 1

/-- One turn of the loop. -/
def step (env : Env W) (s : State W) : Outcome W :=
  match env.program.code[s.ip]? with
  | none => .stop (finish env s)
  | some op =>
    if overBudget env s then .stop (.failed 1)
    else exec env op { s with steps := s.steps + 1 }

/-- One turn that goes on. -/
def Step (env : Env W) (s s' : State W) : Prop := step env s = .next s'

end Arth
