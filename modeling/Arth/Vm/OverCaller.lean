import Arth.Lib.Runs
import Arth.Vm.Interpreted

/-!
# A function on top of its caller

A function called from outside has the stacks for itself; called by an instruction, it runs on
top of what its caller has on them.

* `State.over` — a state on top of a caller's.
* `Outcome.Over` — what a turn comes to in both: it goes on, returns, fails or raises.
* `needs`, `Own` — how many operands an instruction may take, and that it takes its own only.
* `exec_over`, `step_over`, `run_over` — then instruction, turn and run are the same in both.
-/

namespace Arth

open List

open Jit (readLocal)
open Relation (ReflTransGen)

variable {W : Type} {env : Env W} {s : State W}

/-! ## States on top of a caller -/

/-- What a caller has on the stacks. -/
structure Caller where
  stack : List Value
  frames : List (List (Option Value))
  retStack : List Nat
  handlers : List UnwindHandler
  steps : Nat
  hostLog : List (Capability × Op)

/-- A handler of the function, with the caller's frames below its own. -/
def Caller.lift (b : Caller) (h : UnwindHandler) : UnwindHandler :=
  ⟨h.handlerIp, h.frameDepth + b.frames.length⟩

/-- A state on top of a caller, with the frames `fs` for its own. -/
def State.over (s : State W) (fs : List (List (Option Value))) (b : Caller) : State W where
  ip := s.ip
  stack := s.stack ++ b.stack
  frames := fs ++ b.frames
  retStack := s.retStack ++ b.retStack
  handlers := s.handlers.map b.lift ++ b.handlers
  exception := s.exception
  steps := s.steps + b.steps
  world := s.world
  hostLog := s.hostLog ++ b.hostLog

/-- The instructions read the same from both frames. -/
def ReadsAlike (f g : List (Option Value)) : Prop := ∀ ix : UInt32, readLocal f ix = readLocal g ix

theorem ReadsAlike.refl (f : List (Option Value)) : ReadsAlike f f := fun _ => rfl

theorem ReadsAlike.setLocal {f g : List (Option Value)} (h : ReadsAlike f g) (ix : UInt32)
    (v : Value) : ReadsAlike (setLocal f ix.toNat v) (Arth.setLocal g ix.toNat v) := by
  intro jx
  rw [Jit.readLocal_setLocal, Jit.readLocal_setLocal, h jx]

abbrev FramesAlike := List.Forall₂ ReadsAlike

theorem framesAlike_refl (fs : List (List (Option Value))) : FramesAlike fs fs :=
  forall₂_same.2 fun f _ => ReadsAlike.refl f

/-- What the caller gets back from a function that ends in `s`. -/
def State.backTo (s : State W) (b : Caller) : State W :=
  { s.over [] b with ip := b.retStack.headD 0, retStack := b.retStack.tail }

/-- The outcome of an instruction of a function called from outside, and of the same on top of
a caller: it goes on, returns its result, fails, or raises an error of the function's. -/
inductive Outcome.Over (b : Caller) : Outcome W → Outcome W → Prop where
  | next {s : State W} {fs : List (List (Option Value))} (h : FramesAlike s.frames fs) :
    Over b (.next s) (.next (s.over fs b))
  | returns (s : State W) :
    Over b (.stop (.returnValue (s.stack.head?.bind Value.asI64))) (.next (s.backTo b))
  | stop (code : Int) : Over b (.stop (.failed code)) (.stop (.failed code))
  | raised {s : State W} {fs : List (List (Option Value))} (h : s.handlers = []) (code : Int) :
    Over b (.stop (.failed code)) (unwind (s.over fs b) code)
  | hang : Over b .hang .hang

/-- The environment of a call of the other kind. -/
def Env.calledBy (env : Env W) (isExportCall : Bool) : Env W :=
  { env with isExportCall := isExportCall }

/-- The same, with what lies below the operands. -/
def Popped.below (st : List Value) : Popped → Popped
  | .taken args rest => .taken args (rest ++ st)
  | .aborted v rest => .aborted v (rest ++ st)
  | .failed => .failed

theorem Popped.below_arg (st : List Value) (v : Value) (p : Popped) :
    (p.arg v).below st = (p.below st).arg v := by
  cases p <;> rfl

variable {os : List Operand} {st : List Value}

theorem popOperands_append (below : List Value) (h : os.length ≤ st.length) :
    popOperands os (st ++ below) = (popOperands os st).below below := by
  -- on the operands: each looks at the value on top, which is one of the function's own
  induction os generalizing st with
  | nil => rfl
  | cons o os ih =>
    cases st with
    | nil => simp at h
    | cons v st =>
      have hrest : popOperands os (st ++ below) = (popOperands os st).below below :=
        ih (by simpa using h)
      rw [popOperands, popOperands]
      simp only [cons_append, head?_cons, tail_cons, hrest]
      cases (some v).filter o.accept.takes with
      | some w => exact (Popped.below_arg below w _).symm
      | none =>
        cases o.otherwise with
        | use w => exact (Popped.below_arg below w _).symm
        | _ => rfl

/-- How many operands an instruction may take. -/
def needs (env : Env W) : Op → Nat
  | .jumpIfFalse _ | .pop | .localSet _ | .throw | .rcDecWithDeinit _ | .taskAwait
  | .taskRunBody _ => 1
  | .call tgt => if isLocalSet env.program.code[tgt.toNat]? then 0 else 1
  | .callSymbol sym => (((env.program.stringAt sym).bind builtinOperands).getD []).length
  | .externCall _ argc _ _ => argc.toNat
  | .closureCall numArgs => numArgs.toNat + 1
  | .hostCallIo o => o.sig.operands.length
  | .hostCallNet o => o.sig.operands.length
  | .hostCallTime o => (o.sig.map (·.operands.length)).getD 0
  | .hostCallDb o => o.sig.operands.length + 1
  | .hostCallMail o => o.sig.operands.length + 1
  | .hostCallCrypto o => o.sig.operands.length + 1
  | op => (op.sig.map (·.operands.length)).getD 0

/-- Whether an instruction empties the whole stack. -/
def Op.drains : Op → Bool
  | .hostCallIo o => o.sig.drains
  | .hostCallNet o => o.sig.drains
  | .hostCallTime o => (o.sig.map (·.drains)).getD false
  | .hostCallDb o => o.sig.drains
  | .hostCallMail o => o.sig.drains
  | .hostCallCrypto o => o.sig.drains
  | op => (op.sig.map (·.drains)).getD false

theorem needs_plain {op : Op} (h : op.isControl = false) :
    needs env op = (op.sig.map (·.operands.length)).getD 0 := by
  cases op
  all_goals first
    | rfl
    | cases h

theorem drains_plain {op : Op} (h : op.isControl = false) :
    op.drains = (op.sig.map (·.drains)).getD false := by
  cases op
  all_goals first
    | rfl
    | cases h

/-- The function has a return address of its own for every frame but its first, and its handlers
are in its frames. -/
structure State.Balanced (s : State W) : Prop where
  frames : s.frames.length = s.retStack.length + 1
  handlers : ∀ h ∈ s.handlers, 1 ≤ h.frameDepth

theorem State.Balanced.start (hframes : s.frames.length = 1) (hret : s.retStack = [])
    (hhandlers : s.handlers = []) : s.Balanced := by
  refine ⟨by rw [hframes, hret, length_nil], fun h hh => ?_⟩
  rw [hhandlers] at hh
  exact absurd hh not_mem_nil

/-- The instruction takes and leaves nothing of the caller's. -/
structure Own (env : Env W) (op : Op) (s : State W) : Prop where
  operands : needs env op ≤ s.stack.length
  drains : op.drains = false
  halt : op ≠ .halt
  clear : op = .clearUnwindHandler → s.handlers ≠ []

/-! ## One instruction -/

section Instructions
variable {b : Caller} {fs : List (List (Option Value))} {x : Bool}

theorem evalOp_calledBy (op : Op) (args : List Value) (w : W) :
    evalOp (env.calledBy x) op args w = evalOp env op args w := rfl

theorem performs_calledBy (op : Op) (args : List Value) :
    performs (env.calledBy x) op args = performs env op args := rfl

variable {op : Op} {sg : Sig}

section

variable (hfs : FramesAlike s.frames fs) {c : Capability}
include hfs

theorem runSig_over (hlen : sg.operands.length ≤ s.stack.length) (hdrains : sg.drains = false) :
    Outcome.Over b (runSig env op sg s) (runSig (env.calledBy x) op sg (s.over fs b)) := by
  have hpop := popOperands_append b.stack hlen
  unfold runSig
  rw [State.over] at *
  simp only [hpop, evalOp_calledBy, performs_calledBy]
  cases popOperands sg.operands s.stack with
  | failed => exact .stop _
  | aborted v rest => exact .next (s := { s with stack := v :: rest }.advance) hfs
  | taken args rest =>
    simp only [Popped.below]
    cases evalOp env op args s.world with
    | fail code => exact .stop _
    | done w vs =>
      simp only [hdrains]
      have hnext := Outcome.Over.next (b := b) (s := ({ s with
        stack := (sg.results.shape vs).reverse ++ rest
        world := w }.record op (performs env op args)).advance) hfs
      simpa [State.over, State.record, State.advance] using hnext

theorem hostCall_over (hlen : sg.operands.length ≤ s.stack.length) (hdrains : sg.drains = false) :
    Outcome.Over b (hostCall env c op sg s) (hostCall (env.calledBy x) c op sg (s.over fs b)) := by
  have hdenies : (env.calledBy x).denies c = env.denies c := rfl
  unfold hostCall
  rw [hdenies]
  split
  · exact .next (s := (s.push (.i64 (-1))).advance) hfs
  · exact runSig_over hfs hlen hdrains

theorem contextCall_over
    (hlen : sg.operands.length + 1 ≤ s.stack.length) (hdrains : sg.drains = false) :
    Outcome.Over b (contextCall env c op sg s)
      (contextCall (env.calledBy x) c op sg (s.over fs b)) := by
  have hctx : (env.calledBy x).ctx = env.ctx := rfl
  unfold contextCall
  rw [hctx]
  split
  · exact hostCall_over hfs (by omega) hdrains
  · obtain ⟨v, st, hstack⟩ := exists_cons_of_length_pos (show 0 < s.stack.length by omega)
    have hnext := Outcome.Over.next (b := b)
      (s := { s with stack := .i64 (-1) :: s.stack.tail }.advance) hfs
    simpa [State.over, State.advance, hstack] using hnext

theorem unwind_over {code : Int} (hs : s.Balanced) :
    Outcome.Over b (unwind s code) (unwind (s.over fs b) code) := by
  have hlen := hfs.length_eq
  cases hhandlers : s.handlers with
  | nil =>
    have hstop : unwind s code = .stop (.failed code) := by simp only [unwind, hhandlers]
    rw [hstop]
    exact .raised hhandlers code
  | cons h hs' =>
    have hdepth := hs.handlers h (hhandlers ▸ mem_cons_self)
    have hframes := hs.frames
    -- as many frames go in both
    have hdrop : (fs ++ b.frames).length - (h.frameDepth + b.frames.length) =
        s.frames.length - h.frameDepth := by
      rw [length_append]
      omega
    have hnext := Outcome.Over.next (b := b)
      (s := ({ s with handlers := hs' }.unwindTo h)) (forall₂_drop _ hfs)
    rw [unwind, unwind]
    simp only [hhandlers, State.over, map_cons, cons_append]
    simp only [State.unwindTo, State.over, Caller.lift] at hnext ⊢
    rw [hdrop]
    rw [drop_append_of_le_length (by omega), drop_append_of_le_length (by omega)]
    exact hnext

end

theorem enter_over (tgt : Nat) {frame : List (Option Value)} (hfs : FramesAlike s.frames fs)
    {frame' : List (Option Value)} (hframe : ReadsAlike frame frame') :
    Outcome.Over b (.next (s.enter frame tgt)) (.next ((s.over fs b).enter frame' tgt)) :=
  .next (s := s.enter frame tgt) (.cons hframe hfs)

variable {tgt sym ix : UInt32}

theorem callOp_over (hfs : FramesAlike s.frames fs)
    (hlen : needs env (.call tgt) ≤ s.stack.length) :
    Outcome.Over b (callOp env tgt s) (callOp (env.calledBy x) tgt (s.over fs b)) := by
  have hprogram : (env.calledBy x).program = env.program := rfl
  unfold callOp
  rw [hprogram]
  cases hset : isLocalSet env.program.code[tgt.toNat]? with
  | true => exact enter_over _ hfs (ReadsAlike.refl _)
  | false =>
    have hlen : (if isLocalSet env.program.code[tgt.toNat]? then 0 else 1) ≤ s.stack.length := hlen
    rw [hset] at hlen
    obtain ⟨v, st, hstack⟩ := exists_cons_of_length_pos hlen
    simp only [hstack, State.over, cons_append]
    cases findFirstLocalGet env.program tgt with
    | loops => exact .hang
    | found | absent => exact enter_over _ (s := { s with stack := st }) hfs (ReadsAlike.refl _)

theorem charAtFallback_over (hfs : FramesAlike s.frames fs)
    (hs : s.Balanced) : charAtFallback (s.over fs b) os = charAtFallback s os := by
  have hframes := hs.frames
  obtain ⟨f, fr, hf⟩ := exists_cons_of_length_pos (show 0 < s.frames.length by omega)
  rw [hf] at hfs
  cases hfs with
  | @cons _ g _ gr hread _ =>
    have hlocal : ((f.getD 1 none).getD (.i64 0) : Value) = (g.getD 1 none).getD (.i64 0) := by
      have h := hread 1
      simp only [readLocal, UInt32.toNat_one] at h
      have hjoin : ∀ o : Option (Option Value), o.getD none = o.join := by
        rintro (_ | _) <;> rfl
      rw [getD_eq_getElem?_getD, getD_eq_getElem?_getD, hjoin, hjoin]
      exact h
    -- local 1 counts only where it holds a string, and then both frames hold it
    unfold charAtFallback
    simp only [State.over, hf, cons_append, headD_cons]
    rcases hf1 : f.getD 1 none with _ | _ | _ | _ | t <;>
      rcases hg1 : g.getD 1 none with _ | _ | _ | _ | u <;> simp_all

theorem length_charAtFallback (s : State W) (os : List Operand) :
    (charAtFallback s os).length = os.length := by
  unfold charAtFallback
  split
  · split <;> rfl
  · rfl

section

variable (hfs : FramesAlike s.frames fs)
include hfs

theorem callBuiltin_over {name : String} (hs : s.Balanced) (hlen : os.length ≤ s.stack.length) :
    Outcome.Over b (callBuiltin env name os s)
      (callBuiltin (env.calledBy x) name os (s.over fs b)) := by
  have hrt : (env.calledBy x).rt = env.rt := rfl
  have hos : ∀ os' : List Operand, os'.length = os.length →
      popOperands os' (s.stack ++ b.stack) = (popOperands os' s.stack).below b.stack :=
    fun os' h => popOperands_append b.stack (by omega)
  have hpop := hos (if name = "s.charAt" then charAtFallback s os else os) (by
    split
    · exact length_charAtFallback s os
    · rfl)
  unfold callBuiltin
  rw [charAtFallback_over hfs hs, hrt]
  have hstack : (s.over fs b).stack = s.stack ++ b.stack := rfl
  simp only [hstack, hpop]
  cases popOperands (if name = "s.charAt" then charAtFallback s os else os) s.stack with
  | failed => exact .stop _
  | aborted v rest => exact .next (s := { s with stack := v :: rest }.advance) hfs
  | taken args rest =>
    exact .next (s := { s with
      stack := (env.rt.builtin name args s.world).2 :: rest
      world := (env.rt.builtin name args s.world).1 }.advance) hfs

theorem callSymbol_over (hs : s.Balanced)
    (hlen : needs env (.callSymbol sym) ≤ s.stack.length) : Outcome.Over b (callSymbol env sym s)
      (callSymbol (env.calledBy x) sym (s.over fs b)) := by
  have hlen : (((env.program.stringAt sym).bind builtinOperands).getD []).length ≤
    s.stack.length := hlen
  have hprogram : (env.calledBy x).program = env.program := rfl
  have htable : (env.calledBy x).symbolTable = env.symbolTable := rfl
  unfold callSymbol
  rw [hprogram, htable]
  cases hname : env.program.stringAt sym with
  | none => exact .stop _
  | some name =>
    simp only [hname, Option.bind_some] at hlen
    cases hos : builtinOperands name with
    | some os =>
      simp only [hos, Option.getD_some] at hlen
      simp only [hos]
      exact callBuiltin_over hfs hs hlen
    | none =>
      simp only [hos]
      cases lookupSymbol env.symbolTable name with
      | some offset => exact enter_over _ hfs (ReadsAlike.refl _)
      | none => exact .stop _

theorem externCall_over {argc : UInt8} {floatMask : UInt32} {retKind : UInt8} (hlen : argc.toNat ≤ s.stack.length) :
    Outcome.Over b (externCall env sym argc floatMask retKind s)
      (externCall (env.calledBy x) sym argc floatMask retKind (s.over fs b)) := by
  have hprogram : (env.calledBy x).program = env.program := rfl
  have hrt : (env.calledBy x).rt = env.rt := rfl
  have htake : (s.over fs b).stack.take argc.toNat = s.stack.take argc.toNat :=
    take_append_of_le_length hlen
  have hdrop : (s.over fs b).stack.drop argc.toNat = s.stack.drop argc.toNat ++ b.stack :=
    drop_append_of_le_length hlen
  have hworld : (s.over fs b).world = s.world := rfl
  unfold externCall
  rw [hprogram, hrt]
  cases env.program.stringAt sym with
  | none => exact .stop _
  | some name =>
    simp only [htake, hdrop, hworld]
    split
    · cases env.rt.eval (.externCall sym argc floatMask retKind) (s.stack.take argc.toNat)
        s.world with
      | fail code => exact .stop _
      | done w vs =>
        have hnext := Outcome.Over.next (b := b) (s := ({ s with
          stack := vs.headD (.i64 0) :: s.stack.drop argc.toNat
          world := w }.record (.externCall sym argc floatMask retKind)
            (env.rt.externCapabilities name)).advance) hfs
        simpa [State.over, State.record, State.advance] using hnext
    · exact .stop _

theorem closureCall_over {numArgs : UInt32} (hlen : numArgs.toNat + 1 ≤ s.stack.length) :
    Outcome.Over b (closureCall env numArgs s)
      (closureCall (env.calledBy x) numArgs (s.over fs b)) := by
  have hrt : (env.calledBy x).rt = env.rt := rfl
  obtain ⟨v, st, hstack⟩ := exists_cons_of_length_pos (show 0 < s.stack.length by omega)
  have hst : numArgs.toNat ≤ st.length := by
    rw [hstack] at hlen
    simpa using hlen
  unfold closureCall
  simp only [hrt, hstack, State.over, cons_append]
  cases v with
  | i64 h =>
    simp only
    cases env.rt.closureGetFuncId s.world h with
    | none => exact .stop _
    | some funcId =>
      -- the captures go below the arguments, which are all the function's own
      have hboth : numArgs.toNat ≤ (st ++ b.stack).length := by
        rw [length_append]
        omega
      rw [take_append_of_le_length hst, drop_append_of_le_length hst]
      simp only [if_pos hst, if_pos hboth]
      have hnext := enter_over funcId.toNat (b := b) (s := { s with
        stack := st.take numArgs.toNat ++ (env.rt.closureGetCaptures s.world h).reverse ++
          st.drop numArgs.toNat }) hfs (ReadsAlike.refl [])
      simpa only [State.over, append_assoc] using hnext
  | _ => exact .stop _

theorem rcDecWithDeinit_over {funcOffset : UInt32} (hlen : 1 ≤ s.stack.length) :
    Outcome.Over b (rcDecWithDeinit env funcOffset s)
      (rcDecWithDeinit (env.calledBy x) funcOffset (s.over fs b)) := by
  have hrt : (env.calledBy x).rt = env.rt := rfl
  obtain ⟨v, st, hstack⟩ := exists_cons_of_length_pos hlen
  unfold rcDecWithDeinit
  simp only [hrt, hstack, State.over, cons_append]
  cases v with
  | i64 h =>
    simp only
    rcases env.rt.rcDec s.world h with ⟨w, _ | value⟩
    · exact .next (s := { s with stack := .i64 0 :: st, world := w }.advance) hfs
    · exact enter_over _ (s := { s with stack := value :: st, world := w }) hfs (ReadsAlike.refl [])
  | _ => exact .stop _

theorem taskAwait_over (hs : s.Balanced) (hlen : 1 ≤ s.stack.length) :
    Outcome.Over b (taskAwait env s) (taskAwait (env.calledBy x) (s.over fs b)) := by
  have hrt : (env.calledBy x).rt = env.rt := rfl
  have hprogram : (env.calledBy x).program = env.program := rfl
  obtain ⟨v, st, hstack⟩ := exists_cons_of_length_pos hlen
  unfold taskAwait
  simp only [hrt, hprogram, hstack, State.over, cons_append]
  cases v with
  | i64 h =>
    simp only
    cases env.rt.taskState s.world h with
    | completed r => exact .next (s := { s with stack := .i64 r :: st }.advance) hfs
    | cancelled exc | error exc =>
      exact unwind_over (s := { s with stack := .i64 exc :: st, exception := exc }) hfs
        ⟨hs.frames, hs.handlers⟩
    | panicked msg =>
      exact .next (s := { s with
        stack := .i64 (-2) :: st
        world := env.rt.panicWithMessage s.world msg }.advance) hfs
    | running | absent => exact .next (s := { s with stack := .i64 0 :: st }.advance) hfs
    | pending fnId args =>
      simp only
      cases env.program.asyncDispatch.find? (·.1 == fnId) with
      | some e =>
        have hnext := enter_over e.2.toNat (b := b) (s := { s with
          stack := args.map Value.i64 ++ st
          world := env.rt.taskMarkRunning s.world h }) hfs (ReadsAlike.refl [])
        simpa only [State.over, append_assoc] using hnext
      | none => exact .next (s := { s with stack := .i64 0 :: st }.advance) hfs
  | _ => exact .stop _

theorem taskRunBody_over {funcOffset : UInt32} (hlen : 1 ≤ s.stack.length) :
    Outcome.Over b (taskRunBody env funcOffset s)
      (taskRunBody (env.calledBy x) funcOffset (s.over fs b)) := by
  have hrt : (env.calledBy x).rt = env.rt := rfl
  obtain ⟨v, st, hstack⟩ := exists_cons_of_length_pos hlen
  unfold taskRunBody
  simp only [hrt, hstack, State.over, cons_append]
  cases v with
  | i64 h =>
    have hnext := enter_over funcOffset.toNat (b := b) (s := { s with
      stack := (env.rt.taskArgs s.world h).map Value.i64 ++ st
      world := env.rt.taskMarkRunning s.world h }) hfs (ReadsAlike.refl [])
    simpa only [State.over, append_assoc] using hnext
  | _ => exact .stop _

theorem localGet_over :
    s.frames ≠ [] → Outcome.Over b (localGet ix s) (localGet ix (s.over fs b)) := by
  intro hne
  unfold localGet
  cases hf : s.frames with
  | nil => exact absurd hf hne
  | cons f fr =>
    rw [hf] at hfs
    cases hfs with
    | @cons _ g _ gr hread hrest =>
      have hlocal : ((f[ix.toNat]?.join).getD (.i64 0) : Value) =
        (g[ix.toNat]?.join).getD (.i64 0) := hread ix
      simp only [State.over, cons_append, hlocal]
      have hframes : FramesAlike s.frames (g :: gr) := by
        rw [hf]
        exact .cons hread hrest
      exact .next (s := (s.push ((g[ix.toNat]?.join).getD (.i64 0))).advance) hframes

theorem localSet_over (hne : s.frames ≠ []) (hlen : 1 ≤ s.stack.length) :
    Outcome.Over b (localSet ix s) (localSet ix (s.over fs b)) := by
  obtain ⟨v, st, hstack⟩ := exists_cons_of_length_pos hlen
  unfold localSet
  cases hf : s.frames with
  | nil => exact absurd hf hne
  | cons f fr =>
    rw [hf] at hfs
    cases hfs with
    | @cons _ g _ gr hread hrest =>
      simp only [State.over, cons_append, hstack, headD_cons, tail_cons]
      exact .next (s := { s with
        stack := st
        frames := setLocal f ix.toNat v :: fr }.advance)
        (.cons (hread.setLocal ix v) hrest)

end

theorem ret_next {rip : Nat} {rips : List Nat} (h : s.retStack = rip :: rips) :
    ret env s = .next { s with frames := s.frames.tail, retStack := rips, ip := rip } := by
  unfold ret
  simp only [h]
  cases env.isExportCall with
  | false => simp
  | true => cases s.stack <;> simp

theorem ret_over_last (hfs : FramesAlike s.frames fs) (hs : s.Balanced) (hret : s.retStack = [])
    (hb : b.retStack ≠ []) :
    Outcome.Over b (ret (env.calledBy true) s) (ret (env.calledBy x) (s.over fs b)) := by
  have hlen := hfs.length_eq
  have hframes := hs.frames
  rw [hret, length_nil] at hframes
  obtain ⟨ra, ras, hras⟩ := exists_cons_of_ne_nil hb
  have hover : (s.over fs b).retStack = ra :: ras := by
    simp only [State.over, hret, hras, nil_append]
  -- the one frame that goes is the function's first
  have htail : (fs ++ b.frames).tail = b.frames := by
    obtain ⟨g, rfl⟩ := length_eq_one_iff.1 (show fs.length = 1 by omega)
    rfl
  have hback : Outcome.next (s.backTo b) = .next { s.over fs b with
        frames := (s.over fs b).frames.tail
        retStack := ras
        ip := ra } := by
    simp only [State.backTo, State.over, hras, hret, htail, headD_cons, tail_cons, nil_append]
  have hexport : ret (env.calledBy true) s =
      .stop (.returnValue (s.stack.head?.bind Value.asI64)) := by
    simp only [ret, hret, Env.calledBy, if_true]
  rw [ret_next hover, hexport, ← hback]
  exact .returns s

theorem ret_over (hfs : FramesAlike s.frames fs) (hs : s.Balanced) (hb : b.retStack ≠ []) :
    Outcome.Over b (ret (env.calledBy true) s) (ret (env.calledBy x) (s.over fs b)) := by
  have hlen := hfs.length_eq
  have hframes := hs.frames
  by_cases hret : s.retStack = []
  · exact ret_over_last hfs hs hret hb
  obtain ⟨rip, rips, hrips⟩ := exists_cons_of_ne_nil hret
  have hover : (s.over fs b).retStack = rip :: (rips ++ b.retStack) := by
    simp only [State.over, hrips, cons_append]
  have htail : (fs ++ b.frames).tail = fs.tail ++ b.frames := by
    cases fs with
    | nil =>
      rw [length_nil] at hlen
      omega
    | cons g gr => rfl
  rw [ret_next hrips, ret_next hover]
  have hnext := Outcome.Over.next (b := b)
    (s := { s with frames := s.frames.tail, retStack := rips, ip := rip })
    (by simpa using forall₂_drop 1 hfs)
  simpa only [State.over, htail] using hnext

theorem exec_jumpIfFalse_other {v : Value} (h : s.stack = v :: st) (hv : ∀ c, v ≠ .bool c) :
    exec env (.jumpIfFalse tgt) s = .stop (.failed 1) := by
  obtain ⟨ip, stack, frames, retStack, handlers, exception, steps, world, hostLog⟩ := s
  cases h
  cases v with
  | bool c => exact absurd rfl (hv c)
  | _ => rfl

theorem exec_throw {v : Value} (h : s.stack = v :: st) :
    exec env .throw s = unwind { s with stack := st, exception := v.asI64.getD 0 } 3 := by
  obtain ⟨ip, stack, frames, retStack, handlers, exception, steps, world, hostLog⟩ := s
  cases h
  rfl

/-- **On top of its caller an instruction of a function does what it does on its own.** -/
theorem exec_over (hfs : FramesAlike s.frames fs) (hs : s.Balanced)
    (hb : b.retStack ≠ []) (hown : Own env op s) : Outcome.Over b (exec (env.calledBy true) op s)
      (exec (env.calledBy x) op (s.over fs b)) := by
  have hneeds := hown.operands
  have hdrains := hown.drains
  have hne : s.frames ≠ [] := by
    intro h
    have hframes := hs.frames
    simp [h] at hframes
  cases op.view with
  | halt => exact absurd rfl hown.halt
  | jump tgt => exact .next (s := s.jump tgt.toNat) hfs
  | jumpIfFalse tgt =>
    obtain ⟨v, st, hstack⟩ := exists_cons_of_length_pos hneeds
    have hover : (s.over fs b).stack = v :: (st ++ b.stack) := by
      simp only [State.over, hstack, cons_append]
    by_cases hv : ∃ c, v = .bool c
    · obtain ⟨c, rfl⟩ := hv
      rw [exec_jumpIfFalse hstack, exec_jumpIfFalse hover]
      cases c with
      | true => exact .next (s := { s with stack := st }.advance) hfs
      | false => exact .next (s := { s with stack := st }.jump tgt.toNat) hfs
    · have hv : ∀ c, v ≠ .bool c := fun c h => hv ⟨c, h⟩
      rw [exec_jumpIfFalse_other hstack hv, exec_jumpIfFalse_other hover hv]
      exact .stop _
  | call tgt => exact callOp_over hfs hneeds
  | callSymbol sym => exact callSymbol_over hfs hs hneeds
  | externCall sym argc floatMask retKind => exact externCall_over hfs hneeds
  | ret => exact ret_over hfs hs hb
  | pop =>
    obtain ⟨v, st, hstack⟩ := exists_cons_of_length_pos hneeds
    have hexec : ∀ (env : Env W) (s : State W), exec env .pop s =
        .next { s with stack := s.stack.tail }.advance := fun _ _ => rfl
    rw [hexec, hexec]
    simp only [hstack, State.over, cons_append, tail_cons]
    exact .next (s := { s with stack := st }.advance) hfs
  | localGet ix => exact localGet_over hfs hne
  | localSet ix => exact localSet_over hfs hne hneeds
  | closureCall numArgs => exact closureCall_over hfs hneeds
  | rcDecWithDeinit funcOffset => exact rcDecWithDeinit_over hfs hneeds
  | panic msgIdx =>
    let message := (env.program.stringAt msgIdx).getD "panic"
    exact unwind_over (s := { s with world := env.rt.panicWithMessage s.world message }) hfs
      ⟨hs.frames, hs.handlers⟩
  | setUnwindHandler handlerIp =>
    have hnext := Outcome.Over.next (b := b)
      (s := { s with handlers := ⟨handlerIp, s.frames.length⟩ :: s.handlers }.advance) hfs
    have hexec : ∀ (env : Env W) (s : State W), exec env (.setUnwindHandler handlerIp) s =
        .next { s with handlers := ⟨handlerIp, s.frames.length⟩ :: s.handlers }.advance :=
      fun _ _ => rfl
    rw [hexec, hexec]
    simpa [State.over, State.advance, Caller.lift, hfs.length_eq] using hnext
  | clearUnwindHandler =>
    obtain ⟨h, hs', hhandlers⟩ := exists_cons_of_ne_nil (hown.clear rfl)
    have hnext := Outcome.Over.next (b := b)
      (s := { s with handlers := s.handlers.tail }.advance) hfs
    have hexec : ∀ (env : Env W) (s : State W), exec env .clearUnwindHandler s =
        .next { s with handlers := s.handlers.tail }.advance := fun _ _ => rfl
    rw [hexec, hexec]
    simpa [State.over, State.advance, hhandlers] using hnext
  | throw =>
    obtain ⟨v, st, hstack⟩ := exists_cons_of_length_pos hneeds
    have hover : (s.over fs b).stack = v :: (st ++ b.stack) := by
      simp only [State.over, hstack, cons_append]
    rw [exec_throw hstack, exec_throw hover]
    exact unwind_over (s := { s with stack := st, exception := v.asI64.getD 0 }) hfs
      ⟨hs.frames, hs.handlers⟩
  | getException =>
    exact .next (s := ({ s with exception := 0 }.push (.i64 s.exception)).advance) hfs
  | taskAwait => exact taskAwait_over hfs hs hneeds
  | taskRunBody funcOffset => exact taskRunBody_over hfs hneeds
  | hostCallIo | hostCallNet => exact hostCall_over hfs hneeds hdrains
  | hostCallTime o =>
    have hneeds : (o.sig.map (·.operands.length)).getD 0 ≤ s.stack.length := hneeds
    have hdrains : (o.sig.map (·.drains)).getD false = false := hdrains
    cases hsig : o.sig with
    | some sg =>
      rw [hsig] at hneeds hdrains
      rw [exec_hostCallTime_some hsig, exec_hostCallTime_some hsig]
      exact hostCall_over hfs hneeds hdrains
    | none =>
      have hdenies : ∀ y, (env.calledBy y).denies .time = env.denies .time := fun _ => rfl
      rw [exec_hostCallTime_none hsig, exec_hostCallTime_none hsig, hdenies, hdenies]
      split
      · exact .next (s := (s.push (.i64 (-1))).advance) hfs
      · exact .stop _
  | hostCallDb | hostCallMail | hostCallCrypto => exact contextCall_over hfs hneeds hdrains
  -- the others take the operands of their signature
  | plain hplain =>
    rw [needs_plain hplain] at hneeds
    rw [drains_plain hplain] at hdrains
    rw [exec_plain hplain, exec_plain hplain]
    cases hsig : op.sig with
    | none => exact .stop _
    | some sg =>
      rw [hsig] at hneeds hdrains
      exact runSig_over hfs hneeds hdrains

end Instructions

/-! ## Runs -/

section Runs
variable {b : Caller} {fs : List (List (Option Value))} {x : Bool} {s' : State W}

theorem Unwinds.balanced (h : Unwinds s s') (hs : s.Balanced) : s'.Balanced := by
  obtain ⟨u, us, hhandlers, rfl⟩ := h
  have hdepth := hs.handlers u (hhandlers ▸ mem_cons_self)
  have hframes := hs.frames
  refine ⟨?_, fun v hv => hs.handlers v (hhandlers ▸ mem_cons_of_mem u hv)⟩
  simp only [State.unwindTo, length_drop]
  omega

theorem Exec.balanced {op : Op} (h : Exec env s op s') (hs : s.Balanced) : s'.Balanced := by
  have hframes := hs.frames
  cases h with
  | ret hret => exact ⟨by simp [hret] at hframes; simp [hframes], hs.handlers⟩
  | localSet ix hf => exact ⟨by simpa [hf, State.advance] using hframes, hs.handlers⟩
  | panic _ hunwinds | throw _ hunwinds | awaitFails _ hunwinds =>
    exact hunwinds.balanced ⟨hframes, hs.handlers⟩
  | setUnwindHandler =>
    refine ⟨hframes, fun u hu => ?_⟩
    rcases mem_cons.1 hu with rfl | hu
    · change 1 ≤ s.frames.length
      omega
    · exact hs.handlers u hu
  | clearUnwindHandler => exact ⟨hframes, fun u hu => hs.handlers u (mem_of_mem_tail hu)⟩
  | call _ _ | callTakes _ _ _ _ | callSymbol _ _ _ _ | closureCall _ _ _ _ | deinit _ _
    | awaitRuns _ _ _ | runBody _ _ =>
    exact ⟨by simp [State.enter, hframes], hs.handlers⟩
  | _ => exact ⟨hframes, hs.handlers⟩

/-- The turn of the loop at `s` stays within the budgets, also on top of the caller, and takes
nothing of the caller's. -/
structure OwnTurn (env : Env W) (b : Caller) (s : State W) : Prop where
  budget : overBudget env (s.over s.frames b) = false
  own : ∃ op, env.program.code[s.ip]? = some op ∧ Own env op s

theorem overBudget_over (hfs : FramesAlike s.frames fs) :
    overBudget (env.calledBy x) (s.over fs b) = overBudget env (s.over s.frames b) := by
  have hlen := hfs.length_eq
  simp [overBudget, Env.calledBy, State.over, hlen]

theorem overBudget_own (h : overBudget env (s.over s.frames b) = false) :
    overBudget (env.calledBy true) s = false := by
  have hframes : (s.over s.frames b).frames.length = s.frames.length + b.frames.length :=
    length_append
  have hstack : (s.over s.frames b).stack.length = s.stack.length + b.stack.length :=
    length_append
  have hsteps : (s.over s.frames b).steps = s.steps + b.steps := rfl
  have hsame : overBudget (env.calledBy true) s = overBudget env s := rfl
  rw [hsame]
  simp only [overBudget, hframes, hstack, hsteps, Bool.or_eq_false_iff,
    decide_eq_false_iff_not] at h ⊢
  omega

/-- **On top of its caller a turn of a function does what it does on its own.** -/
theorem step_over (hfs : FramesAlike s.frames fs) (hs : s.Balanced) (hb : b.retStack ≠ [])
    (h : OwnTurn env b s) :
    Outcome.Over b (step (env.calledBy true) s) (step (env.calledBy x) (s.over fs b)) := by
  obtain ⟨op, hop, hown⟩ := h.own
  have hcode : (env.calledBy true).program.code[s.ip]? = some op := hop
  have hcode' : (env.calledBy x).program.code[(s.over fs b).ip]? = some op := hop
  have hbudget : overBudget (env.calledBy x) (s.over fs b) = overBudget env (s.over s.frames b) :=
    overBudget_over hfs
  rw [h.budget] at hbudget
  unfold step
  rw [hcode, hcode', hbudget, overBudget_own h.budget]
  have htick := exec_over (x := x) (s := s.tick) (b := b) hfs ⟨hs.frames, hs.handlers⟩ hb
    ⟨hown.operands, hown.drains, hown.halt, hown.clear⟩
  have hsteps : s.steps + 1 + b.steps = s.steps + b.steps + 1 := by omega
  simpa [State.over, State.tick, hsteps] using htick

/-- A run of a function in which it takes nothing of its caller's. -/
def OwnRun (env : Env W) (b : Caller) : State W → State W → Prop :=
  ReflTransGen (Runs.Guarded (OwnTurn env b) (Step (env.calledBy true)))

/-- **On top of its caller a function runs as it does on its own.** -/
theorem run_over {t : State W} (hb : b.retStack ≠ []) (hfs : FramesAlike s.frames fs)
    (hs : s.Balanced) (h : OwnRun env b s t) : t.Balanced ∧ ∃ gs, FramesAlike t.frames gs ∧
      ReflTransGen (Step (env.calledBy x)) (s.over fs b) (t.over gs b) := by
  induction h with
  -- the frames of the run on top need not be the same lists, they read alike in every state
  | refl => exact ⟨hs, fs, hfs, .refl⟩
  | @tail t u _ hturn ih =>
    obtain ⟨hown, hstep⟩ := hturn
    obtain ⟨ht, gs, hgs, hrun⟩ := ih
    obtain ⟨op, hop, hexec⟩ := step_exec hstep
    have hover := step_over (x := x) hgs ht hb hown
    have hgoes : step (env.calledBy true) t = .next u := hstep
    rw [hgoes] at hover
    refine ⟨hexec.balanced ⟨ht.frames, ht.handlers⟩, ?_⟩
    generalize hnext : step (env.calledBy x) (t.over gs b) = o at hover
    cases hover with
    | next hfs' => exact ⟨_, hfs', hrun.tail hnext⟩

end Runs

end Arth
