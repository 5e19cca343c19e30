import Arth.Vm.Machine
import Mathlib

/-!
# What one instruction does

* `Op.View` — the instructions `exec` treats one by one, and the plain ones, which pop
  their operands, compute and push.
* `step_eq` — a step that goes on executes one instruction.
* `exec_hostLog` — which host operations an instruction can perform.
-/

namespace Arth

variable {W : Type} {env : Env W} {op : Op} {s s' : State W}

/-- The instructions with an arm of their own in `exec`. -/
def Op.isControl : Op → Bool
  | .halt | .jump _ | .jumpIfFalse _ | .call _ | .callSymbol _ | .externCall _ _ _ _ | .ret
  | .pop | .localGet _ | .localSet _ | .closureCall _ | .rcDecWithDeinit _ | .panic _
  | .setUnwindHandler _ | .clearUnwindHandler | .throw | .getException | .taskAwait
  | .taskRunBody _ | .hostCallIo _ | .hostCallNet _ | .hostCallTime _ | .hostCallDb _
  | .hostCallMail _ | .hostCallCrypto _ => true
  | _ => false

/-- The capability of a host call, and its operands where it has any. -/
def Op.hostCall? : Op → Option (Capability × Option Sig)
  | .hostCallIo o => some (.io, some o.sig)
  | .hostCallNet o => some (.net, some o.sig)
  | .hostCallTime o => some (.time, o.sig)
  | .hostCallDb o => some (.db, some o.sig)
  | .hostCallMail o => some (.mail, some o.sig)
  | .hostCallCrypto o => some (.crypto, some o.sig)
  | _ => none

inductive Op.View : Op → Prop where
  | plain {op : Op} (h : op.isControl = false) : View op
  | halt : View .halt
  | jump (tgt : UInt32) : View (.jump tgt)
  | jumpIfFalse (tgt : UInt32) : View (.jumpIfFalse tgt)
  | call (tgt : UInt32) : View (.call tgt)
  | callSymbol (sym : UInt32) : View (.callSymbol sym)
  | externCall (sym : UInt32) (argc : UInt8) (floatMask : UInt32) (retKind : UInt8) :
    View (.externCall sym argc floatMask retKind)
  | ret : View .ret
  | pop : View .pop
  | localGet (ix : UInt32) : View (.localGet ix)
  | localSet (ix : UInt32) : View (.localSet ix)
  | closureCall (numArgs : UInt32) : View (.closureCall numArgs)
  | rcDecWithDeinit (funcOffset : UInt32) : View (.rcDecWithDeinit funcOffset)
  | panic (msgIdx : UInt32) : View (.panic msgIdx)
  | setUnwindHandler (handlerIp : UInt32) : View (.setUnwindHandler handlerIp)
  | clearUnwindHandler : View .clearUnwindHandler
  | throw : View .throw
  | getException : View .getException
  | taskAwait : View .taskAwait
  | taskRunBody (funcOffset : UInt32) : View (.taskRunBody funcOffset)
  | hostCallIo (o : HostIoOp) : View (.hostCallIo o)
  | hostCallNet (o : HostNetOp) : View (.hostCallNet o)
  | hostCallTime (o : HostTimeOp) : View (.hostCallTime o)
  | hostCallDb (o : HostDbOp) : View (.hostCallDb o)
  | hostCallMail (o : HostMailOp) : View (.hostCallMail o)
  | hostCallCrypto (o : HostCryptoOp) : View (.hostCallCrypto o)

theorem Op.view (op : Op) : op.View := by
  cases op
  all_goals first
    | exact .plain rfl
    | exact .halt
    | exact .jump _
    | exact .jumpIfFalse _
    | exact .call _
    | exact .callSymbol _
    | exact .externCall _ _ _ _
    | exact .ret
    | exact .pop
    | exact .localGet _
    | exact .localSet _
    | exact .closureCall _
    | exact .rcDecWithDeinit _
    | exact .panic _
    | exact .setUnwindHandler _
    | exact .clearUnwindHandler
    | exact .throw
    | exact .getException
    | exact .taskAwait
    | exact .taskRunBody _
    | exact .hostCallIo _
    | exact .hostCallNet _
    | exact .hostCallTime _
    | exact .hostCallDb _
    | exact .hostCallMail _
    | exact .hostCallCrypto _

theorem exec_plain (h : op.isControl = false) (env : Env W) (s : State W) : exec env op s =
      match op.sig with
      | some sg => runSig env op sg s
      | none => .stop (.failed 1) := by
  cases op
  all_goals first
    | rfl
    | cases h

/-- The state in which the loop executes the instruction it fetched. -/
def State.tick (s : State W) : State W := { s with steps := s.steps + 1 }

theorem step_eq (h : Step env s s') :
    ∃ op, env.program.code[s.ip]? = some op ∧ overBudget env s = false ∧
      exec env op s.tick = .next s' := by
  unfold Step step at h
  cases hop : env.program.code[s.ip]? with
  | none =>
    rw [hop] at h
    cases h
  | some op =>
    rw [hop] at h
    by_cases hb : overBudget env s = true
    · simp only [hb, if_true] at h
      cases h
    · simp only [hb] at h
      exact ⟨op, rfl, by simpa using hb, h⟩

/-! ## The ways an instruction can go on -/

/-- `unwind` finds a handler. -/
def Unwinds (s s' : State W) : Prop :=
  ∃ h hs, s.handlers = h :: hs ∧ s' = { s with handlers := hs }.unwindTo h

/-- Every way `exec` can go on, with the state it leaves behind. -/
inductive Exec (env : Env W) (s : State W) : Op → State W → Prop where
  /-- Operands popped, results pushed. -/
  | computed {op : Op} {sg : Sig} {args rest : List Value} {w : W} {vs : List Value}
    (hsig : op.isControl = false ∧ op.sig = some sg ∨
      ∃ c, op.hostCall? = some (c, some sg) ∧ env.denies c = false)
    (hpop : popOperands sg.operands s.stack = .taken args rest)
    (heval : evalOp env op args s.world = .done w vs) :
    Exec env s op ({ s with
      stack := (sg.results.shape vs).reverse ++ (if sg.drains then [] else rest)
      world := w }.record op (performs env op args)).advance
  /-- An operand that the instruction answers with an error value. -/
  | gaveUp {op : Op} {sg : Sig} {v : Value} {rest : List Value}
    (hsig : op.isControl = false ∧ op.sig = some sg ∨
      ∃ c, op.hostCall? = some (c, some sg) ∧ env.denies c = false)
    (hpop : popOperands sg.operands s.stack = .aborted v rest) :
    Exec env s op { s with stack := v :: rest }.advance
  | denied {op : Op} {c : Capability} {sg : Option Sig} (hop : op.hostCall? = some (c, sg))
    (h : env.denies c = true) : Exec env s op (s.push (.i64 (-1))).advance
  | noContext {op : Op} {c : Capability} {sg : Option Sig} (hop : op.hostCall? = some (c, sg))
    (hctx : env.ctx = none) : Exec env s op { s with stack := .i64 (-1) :: s.stack.tail }.advance
  | jump (tgt : UInt32) : Exec env s (.jump tgt) (s.jump tgt.toNat)
  | skip (tgt : UInt32) {st : List Value} (hst : s.stack = .bool true :: st) :
    Exec env s (.jumpIfFalse tgt) { s with stack := st }.advance
  | branch (tgt : UInt32) {st : List Value} (hst : s.stack = .bool false :: st) :
    Exec env s (.jumpIfFalse tgt) ({ s with stack := st }.jump tgt.toNat)
  /-- A call of a function with a prologue, or with an empty stack. -/
  | call (tgt : UInt32)
    (h : isLocalSet env.program.code[tgt.toNat]? = true ∨ s.stack = []) :
    Exec env s (.call tgt)
      (s.enter (List.replicate (scanFunctionLocalCount env.program tgt) none) tgt.toNat)
  /-- A call of a function without a prologue takes the top of the stack. -/
  | callTakes (tgt : UInt32) {arg : Value} {rest : List Value} {i : Nat}
    (h : isLocalSet env.program.code[tgt.toNat]? = false) (hst : s.stack = arg :: rest)
    (hi : findFirstLocalGet env.program tgt = .absent ∧ i = 0 ∨
      ∃ ix, findFirstLocalGet env.program tgt = .found ix ∧ i = ix.toNat) :
    Exec env s (.call tgt) ({ s with stack := rest }.enter
      ((List.replicate (scanFunctionLocalCount env.program tgt) none).set i (some arg)) tgt.toNat)
  | builtin (sym : UInt32) {name : String} {os : List Operand} {v : Value} {w : W}
    {rest : List Value} (hname : env.program.stringAt sym = some name)
    (hos : builtinOperands name = some os)
    (hpop : (∃ args, popOperands (if name = "s.charAt" then charAtFallback s os else os) s.stack =
        .taken args rest) ∨
      popOperands (if name = "s.charAt" then charAtFallback s os else os) s.stack =
        .aborted v rest) :
    Exec env s (.callSymbol sym) { s with stack := v :: rest, world := w }.advance
  | callSymbol (sym : UInt32) {name : String} {off : UInt32}
    (hname : env.program.stringAt sym = some name) (hb : builtinOperands name = none)
    (hoff : lookupSymbol env.symbolTable name = some off) :
    Exec env s (.callSymbol sym) (s.enter [] off.toNat)
  | externCall (sym : UInt32) (argc : UInt8) (floatMask : UInt32) (retKind : UInt8)
    {name : String} {w : W} {v : Value} (hname : env.program.stringAt sym = some name)
    (hargc : argc.toNat ≤ s.stack.length) :
    Exec env s (.externCall sym argc floatMask retKind) ({ s with
      stack := v :: s.stack.drop argc.toNat
      world := w }.record (.externCall sym argc floatMask retKind)
        (env.rt.externCapabilities name)).advance
  | ret {rip : Nat} {rips : List Nat} (h : s.retStack = rip :: rips) :
    Exec env s .ret { s with frames := s.frames.tail, retStack := rips, ip := rip }
  | pop : Exec env s .pop { s with stack := s.stack.tail }.advance
  | localGet (ix : UInt32) {f : List (Option Value)} {fs : List (List (Option Value))}
    (h : s.frames = f :: fs) :
    Exec env s (.localGet ix) (s.push ((f[ix.toNat]?.join).getD (.i64 0))).advance
  | localSet (ix : UInt32) {f : List (Option Value)} {fs : List (List (Option Value))}
    (h : s.frames = f :: fs) :
    Exec env s (.localSet ix) { s with
      stack := s.stack.tail
      frames := setLocal f ix.toNat (s.stack.headD (.i64 0)) :: fs }.advance
  | closureCall (numArgs : UInt32) {n : Int64} {st : List Value} {funcId : UInt32}
    (hst : s.stack = .i64 n :: st) (hfunc : env.rt.closureGetFuncId s.world n = some funcId)
    (hargs : numArgs.toNat ≤ st.length) :
    Exec env s (.closureCall numArgs) ({ s with
      stack := st.take numArgs.toNat ++ (env.rt.closureGetCaptures s.world n).reverse ++
        st.drop numArgs.toNat }.enter [] funcId.toNat)
  | deinit (off : UInt32) {n : Int64} {st : List Value} {value : Value} {w : W}
    (hst : s.stack = .i64 n :: st) :
    Exec env s (.rcDecWithDeinit off)
      ({ s with stack := value :: st, world := w }.enter [] off.toNat)
  | rcAlive (off : UInt32) {n : Int64} {st : List Value} {w : W} (hst : s.stack = .i64 n :: st) :
    Exec env s (.rcDecWithDeinit off) { s with stack := .i64 0 :: st, world := w }.advance
  | panic (msgIdx : UInt32) {w : W} {s' : State W} (h : Unwinds { s with world := w } s') :
    Exec env s (.panic msgIdx) s'
  | setUnwindHandler (handlerIp : UInt32) :
    Exec env s (.setUnwindHandler handlerIp)
      { s with handlers := ⟨handlerIp, s.frames.length⟩ :: s.handlers }.advance
  | clearUnwindHandler :
    Exec env s .clearUnwindHandler { s with handlers := s.handlers.tail }.advance
  | throw {v : Value} {st : List Value} {s' : State W} (hst : s.stack = v :: st)
    (h : Unwinds { s with stack := st, exception := v.asI64.getD 0 } s') : Exec env s .throw s'
  | getException :
    Exec env s .getException ({ s with exception := 0 }.push (.i64 s.exception)).advance
  /-- An awaited task that is not pending and has not failed. -/
  | awaited {n : Int64} {v : Value} {st : List Value} {w : W} (hst : s.stack = .i64 n :: st) :
    Exec env s .taskAwait { s with stack := v :: st, world := w }.advance
  | awaitFails {n exc : Int64} {st : List Value} {s' : State W} (hst : s.stack = .i64 n :: st)
    (h : Unwinds { s with stack := .i64 exc :: st, exception := exc } s') :
    Exec env s .taskAwait s'
  | awaitRuns {n fnId : Int64} {args : List Int64} {st : List Value} {e : Int64 × UInt32} {w : W}
    (hst : s.stack = .i64 n :: st)
    (hpending : env.rt.taskState s.world n = .pending fnId args)
    (he : env.program.asyncDispatch.find? (·.1 == fnId) = some e) :
    Exec env s .taskAwait
      ({ s with stack := args.map Value.i64 ++ st, world := w }.enter [] e.2.toNat)
  | runBody (off : UInt32) {n : Int64} {st : List Value} {w : W} (hst : s.stack = .i64 n :: st) :
    Exec env s (.taskRunBody off) ({ s with
      stack := (env.rt.taskArgs s.world n).map Value.i64 ++ st, world := w }.enter [] off.toNat)

theorem unwind_next {code : Int} (h : unwind s code = .next s') : Unwinds s s' := by
  unfold unwind at h
  split at h
  · rename_i hd hs hhandlers
    cases h
    exact ⟨hd, hs, hhandlers, rfl⟩
  · cases h

variable {sg : Sig} {c : Capability}

theorem runSig_exec (hsig : op.isControl = false ∧ op.sig = some sg ∨
      ∃ c, op.hostCall? = some (c, some sg) ∧ env.denies c = false)
    (h : runSig env op sg s = .next s') : Exec env s op s' := by
  unfold runSig at h
  split at h
  · cases h
  · rename_i hpop
    cases h
    exact .gaveUp hsig hpop
  · rename_i hpop
    split at h
    · cases h
    · rename_i heval
      cases h
      exact .computed hsig hpop heval

theorem hostCall_exec (hop : op.hostCall? = some (c, some sg))
    (h : hostCall env c op sg s = .next s') : Exec env s op s' := by
  unfold hostCall at h
  split_ifs at h with hd
  · cases h
    exact .denied hop hd
  · exact runSig_exec (.inr ⟨c, hop, by simpa using hd⟩) h

theorem contextCall_exec (hop : op.hostCall? = some (c, some sg))
    (h : contextCall env c op sg s = .next s') : Exec env s op s' := by
  unfold contextCall at h
  split at h
  · exact hostCall_exec hop h
  · rename_i hctx
    cases h
    exact .noContext hop hctx

variable {o : HostTimeOp}

theorem exec_hostCallTime_some (hsig : o.sig = some sg) :
    exec env (.hostCallTime o) s = hostCall env .time (.hostCallTime o) sg s := by
  cases o <;> cases hsig <;> rfl

theorem exec_hostCallTime_none (hsig : o.sig = none) : exec env (.hostCallTime o) s =
      if env.denies .time then .next (s.push (.i64 (-1))).advance else .stop (.failed 1) := by
  cases o <;> first
    | rfl
    | cases hsig

theorem hostCallTime_exec (h : exec env (.hostCallTime o) s = .next s') :
    Exec env s (.hostCallTime o) s' := by
  cases hsig : o.sig with
  | some sg =>
    rw [exec_hostCallTime_some hsig] at h
    exact hostCall_exec (by rw [Op.hostCall?, hsig]) h
  | none =>
    rw [exec_hostCallTime_none hsig] at h
    split at h
    · rename_i hd
      cases h
      exact .denied rfl hd
    · cases h

variable {tgt : UInt32} {sym off : UInt32}

theorem exec_jumpIfFalse {c : Bool} {st : List Value}
    (h : s.stack = .bool c :: st) : exec env (.jumpIfFalse tgt) s =
      .next (if c then { s with stack := st }.advance else { s with stack := st }.jump tgt.toNat) := by
  obtain ⟨ip, stack, frames, retStack, handlers, exception, steps, world, hostLog⟩ := s
  cases h
  cases c <;> rfl

theorem jumpIfFalse_exec (h : exec env (.jumpIfFalse tgt) s = .next s') :
    Exec env s (.jumpIfFalse tgt) s' := by
  obtain ⟨ip, stack, frames, retStack, handlers, exception, steps, world, hostLog⟩ := s
  cases stack with
  | nil => cases h
  | cons v st =>
    cases v with
    | bool b =>
      cases b with
      | true =>
        cases h
        exact .skip tgt rfl
      | false =>
        cases h
        exact .branch tgt rfl
    | _ => cases h

theorem callOp_exec (h : callOp env tgt s = .next s') : Exec env s (.call tgt) s' := by
  unfold callOp at h
  split at h
  · rename_i hlocal hst
    split at h
    · cases h
    · rename_i ix hfound
      cases h
      exact .callTakes tgt hlocal hst (.inr ⟨ix, hfound, rfl⟩)
    · rename_i habsent
      cases h
      exact .callTakes tgt hlocal hst (.inl ⟨habsent, rfl⟩)
  · rename_i hne
    cases h
    refine .call tgt ?_
    cases hst : s.stack with
    | nil => exact .inr rfl
    | cons v st =>
      cases hlocal : isLocalSet env.program.code[tgt.toNat]? with
      | true => exact .inl rfl
      | false => exact (hne v st hlocal hst).elim

theorem callSymbol_exec (h : callSymbol env sym s = .next s') :
    Exec env s (.callSymbol sym) s' := by
  unfold callSymbol at h
  split at h
  · cases h
  · rename_i name hname
    split at h
    · rename_i os hos
      unfold callBuiltin at h
      simp only at h
      split at h
      · rename_i hpop
        cases h
        exact .builtin sym hname hos (.inl ⟨_, hpop⟩)
      · rename_i hpop
        cases h
        exact .builtin sym hname hos (.inr hpop)
      · cases h
    · rename_i hb
      split at h
      · rename_i hoff
        cases h
        exact .callSymbol sym hname hb hoff
      · cases h

theorem externCall_exec {argc : UInt8} {floatMask : UInt32} {retKind : UInt8}
    (h : externCall env sym argc floatMask retKind s = .next s') :
    Exec env s (.externCall sym argc floatMask retKind) s' := by
  unfold externCall at h
  split at h
  · cases h
  · rename_i name hname
    simp only at h
    split at h
    · rename_i hargs
      split at h
      · cases h
      · cases h
        refine .externCall sym argc floatMask retKind hname ?_
        have := hargs.2.2.1
        rw [List.length_take] at this
        omega
    · cases h

theorem ret_exec (h : ret env s = .next s') : Exec env s .ret s' := by
  have hstack : (if env.isExportCall then s.stack.head? else none).toList ++
      (if env.isExportCall then s.stack.tail else s.stack) = s.stack := by
    split
    · cases s.stack <;> rfl
    · rfl
  unfold ret at h
  simp only at h
  split at h
  · rename_i rip rips hret
    rw [hstack] at h
    cases h
    exact .ret hret
  · split at h <;> cases h

theorem closureCall_exec {numArgs : UInt32} (h : closureCall env numArgs s = .next s') :
    Exec env s (.closureCall numArgs) s' := by
  unfold closureCall at h
  split at h
  · rename_i n st hst
    split at h
    · cases h
    · rename_i funcId hfunc
      split at h
      · rename_i hargs
        cases h
        exact .closureCall numArgs hst hfunc hargs
      · cases h
  · cases h

theorem rcDecWithDeinit_exec (h : rcDecWithDeinit env off s = .next s') :
    Exec env s (.rcDecWithDeinit off) s' := by
  unfold rcDecWithDeinit at h
  split at h
  · rename_i n st hst
    split at h
    · cases h
      exact .deinit off hst
    · cases h
      exact .rcAlive off hst
  · cases h

theorem throw_exec (h : exec env .throw s = .next s') : Exec env s .throw s' := by
  obtain ⟨ip, stack, frames, retStack, handlers, exception, steps, world, hostLog⟩ := s
  cases stack with
  | nil => cases h
  | cons v st =>
    exact .throw rfl (unwind_next h)

theorem taskAwait_exec (h : taskAwait env s = .next s') : Exec env s .taskAwait s' := by
  unfold taskAwait at h
  split at h
  · rename_i n st hst
    split at h
    · cases h
      exact .awaited hst
    · exact .awaitFails hst (unwind_next h)
    · exact .awaitFails hst (unwind_next h)
    · cases h
      exact .awaited hst
    · cases h
      exact .awaited hst
    · cases h
      exact .awaited hst
    · rename_i fnId args hpending
      split at h
      · rename_i e he
        cases h
        exact .awaitRuns hst hpending he
      · cases h
        exact .awaited hst
  · cases h

theorem taskRunBody_exec (h : taskRunBody env off s = .next s') :
    Exec env s (.taskRunBody off) s' := by
  unfold taskRunBody at h
  split at h
  · rename_i hst
    cases h
    exact .runBody off hst
  · cases h

/-- **Inversion.** An instruction that goes on does so in one of the ways of `Exec`. -/
theorem exec_next (h : exec env op s = .next s') : Exec env s op s' := by
  cases op.view with
  | plain hplain =>
    rw [exec_plain hplain] at h
    split at h
    · rename_i hsig
      exact runSig_exec (.inl ⟨hplain, hsig⟩) h
    · cases h
  | halt => cases h
  | jump tgt =>
    cases h
    exact .jump tgt
  | jumpIfFalse tgt => exact jumpIfFalse_exec h
  | call tgt => exact callOp_exec h
  | callSymbol sym => exact callSymbol_exec h
  | externCall sym argc floatMask retKind => exact externCall_exec h
  | ret => exact ret_exec h
  | pop =>
    cases h
    exact .pop
  | localGet ix =>
    change localGet ix s = .next s' at h
    unfold localGet at h
    split at h
    · cases h
    · rename_i hframes
      cases h
      exact .localGet ix hframes
  | localSet ix =>
    change localSet ix s = .next s' at h
    unfold localSet at h
    split at h
    · cases h
    · rename_i hframes
      cases h
      exact .localSet ix hframes
  | closureCall numArgs => exact closureCall_exec h
  | rcDecWithDeinit off => exact rcDecWithDeinit_exec h
  | panic msgIdx =>
    exact .panic msgIdx (unwind_next h)
  | setUnwindHandler handlerIp =>
    cases h
    exact .setUnwindHandler handlerIp
  | clearUnwindHandler =>
    cases h
    exact .clearUnwindHandler
  | throw => exact throw_exec h
  | getException =>
    cases h
    exact .getException
  | taskAwait => exact taskAwait_exec h
  | taskRunBody off => exact taskRunBody_exec h
  | hostCallIo | hostCallNet => exact hostCall_exec rfl h
  | hostCallTime o => exact hostCallTime_exec h
  | hostCallDb | hostCallMail | hostCallCrypto => exact contextCall_exec rfl h

theorem step_exec (h : Step env s s') :
    ∃ op, env.program.code[s.ip]? = some op ∧ Exec env s.tick op s' := by
  obtain ⟨op, hop, -, hexec⟩ := step_eq h
  exact ⟨op, hop, exec_next hexec⟩

end Arth
