import Arth.Vm.Reading
import Arth.Vm.Exec

/-!
# The interpreter on straight-line code

* `exec_step` — one instruction of a compiled function moves the interpreter as the reading
  says, as long as the locals the rest of the body reads first are the reading's.
* `runUntilReturn_judge` — what the verdict on a body says about its interpretation.
* `entry` — `Op::Call` on a compiled function and its prologue: which locals hold the
  arguments (`heldLocal`), and which arguments stay on the stack (`leftArgs`).
-/

namespace Arth.Jit

open List

variable {W : Type} {env : Env W} {s : State W} {r r' : Reading} {junk : List Value}

/-- `Op::LocalGet`: a local never written reads as 0. -/
def readLocal (f : List (Option Value)) (ix : UInt32) : Value :=
  (f[ix.toNat]?.join).getD (.i64 0)

theorem readLocal_setLocal (f : List (Option Value)) (ix jx : UInt32) (v : Value) :
    readLocal (setLocal f ix.toNat v) jx = if jx = ix then v else readLocal f jx := by
  unfold readLocal setLocal
  by_cases h : jx = ix
  · subst h
    rw [if_pos rfl, getElem?_set_self (by simp; omega)]
    rfl
  · have hne : ix.toNat ≠ jx.toNat := fun heq => h (UInt32.toNat_inj.1 heq.symm)
    rw [if_neg h, getElem?_set_ne hne]
    rcases Nat.lt_or_ge jx.toNat f.length with hlt | hge
    · rw [getElem?_append_left hlt]
    · rw [getElem?_append_right hge, getElem?_eq_none hge]
      rcases h' : (replicate (ix.toNat + 1 - f.length) (none : Option Value))[jx.toNat - f.length]?
      · rfl
      · have := eq_of_mem_replicate (mem_of_getElem? h')
        rw [this]
        rfl

@[simp] theorem readLocal_replicate (n : Nat) (ix : UInt32) :
    readLocal (replicate n none) ix = .i64 0 := by
  unfold readLocal
  rw [getElem?_replicate]
  split <;> rfl

/-! ## One instruction -/

/-- The interpreter is at a point of the body where the operands are the reading's, over the
arguments left and `junk`, and the locals in `live` are the reading's. -/
structure Running (s : State W) (r : Reading) (live : UInt32 → Prop) (junk : List Value) :
    Prop where
  stack : s.stack = r.stack.map Slot.value ++ (r.below.map Value.i64 ++ junk)
  locals : ∃ f fs, s.frames = f :: fs ∧ ∀ ix, live ix → readLocal f ix = (r.locals ix).value

/-- Pop, compute, push, advance. -/
def State.computed (s : State W) (st : List Value) (v : Value) : State W :=
  { s with stack := v :: st, ip := s.ip + 1 }

/-- The instructions with two operands. -/
structure TwoOperands (op : Op) (accept : Accept) : Prop where
  control : op.isControl = false
  sig : op.sig = some (reads [⟨accept, .fail⟩, ⟨accept, .fail⟩] .one)
  quiet : op.directCapability = none
  host : ∀ (env : Env W) args, performs env op args = op.directCapability.toList

variable {op : Op}

theorem exec_two {accept : Accept} (hop : TwoOperands (W := W) op accept)
    {b a v : Value} {st : List Value} (hst : s.stack = b :: a :: st) (hb : accept.takes b = true)
    (ha : accept.takes a = true) (hev : evalOp env op [b, a] s.world = .done s.world [v]) :
    exec env op s = .next (State.computed s st v) := by
  rw [exec_plain hop.control, hop.sig]
  simp [runSig, reads, popOperands, Popped.arg, hst, hb, ha, Option.filter, hev, Results.shape,
    State.record, hop.host, hop.quiet, State.advance, State.computed]

theorem exec_two_fail {accept : Accept} (hop : TwoOperands (W := W) op accept)
    {b a : Value} {st : List Value} (hst : s.stack = b :: a :: st)
    (hbad : accept.takes b = true → accept.takes a = true →
      evalOp env op [b, a] s.world = .fail 1) :
    exec env op s = .stop (.failed 1) := by
  rw [exec_plain hop.control, hop.sig]
  by_cases hb : accept.takes b = true
  · by_cases ha : accept.takes a = true
    · simp [runSig, reads, popOperands, Popped.arg, hst, hb, ha, Option.filter, hbad hb ha]
    · simp [runSig, reads, popOperands, Popped.arg, hst, hb, ha, Option.filter]
  · simp [runSig, reads, popOperands, hst, hb, Option.filter]

def BinOp.accept (o : BinOp) : Accept := if o.strict then .i64 else .any

theorem BinOp.twoOperands (o : BinOp) : TwoOperands (W := W) o.op o.accept := by
  cases o <;> exact ⟨rfl, rfl, rfl, fun _ _ => rfl⟩

theorem IntCC.twoOperands (cc : IntCC) : TwoOperands (W := W) cc.op .any := by
  cases cc <;> exact ⟨rfl, rfl, rfl, fun _ _ => rfl⟩

variable {st : List Value} {b a c : Slot}

theorem exec_binary (o : BinOp)
    (hst : s.stack = b.value :: a.value :: st) (hc : o.slot b a = .ok c) :
    exec env o.op s = .next (State.computed s st c.value) := by
  cases b with
  | flag bb m => cases hc
  | int m =>
    cases a with
    | flag ba n => cases hc
    | int n =>
      refine exec_two o.twoOperands hst (by cases o <;> rfl) (by cases o <;> rfl) ?_
      cases o with
      | sdiv =>
        simp only [BinOp.slot, BinOp.eval] at hc
        by_cases hm : m = 0 ∨ n = Int64.minValue ∧ m = -1
        · simp [hm] at hc
        · rw [if_neg hm] at hc
          cases hc
          exact if_neg fun h => hm (.inl h)
      | srem =>
        simp only [BinOp.slot, BinOp.eval] at hc
        by_cases hm : m = 0
        · simp [hm] at hc
        · rw [if_neg hm] at hc
          cases hc
          exact if_neg hm
      | _ =>
        cases hc
        rfl

variable {b a : Slot} {live live' : UInt32 → Prop}

theorem exec_binary_refused (o : BinOp)
    (hst : s.stack = b.value :: a.value :: st) (hc : o.slot b a = .error .refused) :
    exec env o.op s = .stop (.failed 1) := by
  refine exec_two_fail o.twoOperands hst fun hb ha => ?_
  cases b with
  | flag bb m =>
    simp only [BinOp.slot, Except.error.injEq] at hc
    cases hs : o.strict <;> simp_all [BinOp.accept, Accept.takes, Slot.value]
  | int m =>
    cases a with
    | flag ba n =>
      simp only [BinOp.slot, Except.error.injEq] at hc
      cases hs : o.strict <;> simp_all [BinOp.accept, Accept.takes, Slot.value]
    | int n =>
      simp only [BinOp.slot] at hc
      split at hc
      · cases hc
      · split at hc <;> cases hc

theorem exec_compare (cc : IntCC)
    (hst : s.stack = b.value :: a.value :: st) (hc : cc.slot b a = .ok c) :
    exec env cc.op s = .next (State.computed s st c.value) := by
  refine exec_two cc.twoOperands hst rfl rfl ?_
  cases b with
  | int m =>
    cases a with
    | flag ba n => cases hc
    | int n =>
      cases hc
      cases cc <;> rfl
  | flag bb m =>
    cases a with
    | int n => cases hc
    | flag ba n =>
      cases cc with
      | equal =>
        cases hc
        rfl
      | signedLessThan => cases hc

theorem exec_compare_refused (cc : IntCC)
    (hst : s.stack = b.value :: a.value :: st) (hc : cc.slot b a = .error .refused) :
    exec env cc.op s = .stop (.failed 1) := by
  refine exec_two_fail cc.twoOperands hst fun _ _ => ?_
  cases b with
  | int m =>
    cases a with
    | int n => cases hc
    | flag ba n => cases cc <;> rfl
  | flag bb m =>
    cases a with
    | int n => cases cc <;> rfl
    | flag ba n =>
      cases cc with
      | equal => cases hc
      | signedLessThan => rfl

/-- The interpreter after one instruction of the body. -/
structure Stepped (s s' : State W) (r' : Reading) (live : UInt32 → Prop) (junk junk' : List Value) :
    Prop where
  running : Running s' r' live junk'
  ip : s'.ip = s.ip + 1
  retStack : s'.retStack = s.retStack
  junk : junk = [] → junk' = []

theorem Running.computed (h : Running s r live junk)
    (hlive : ∀ ix, live' ix → live ix) {st : List Slot} {v : Slot} (r' : Reading)
    (hr : r'.stack = v :: st) (hbelow : r'.below = r.below) (hlocals : r'.locals = r.locals) :
    Stepped s (State.computed s (st.map Slot.value ++ (r.below.map Value.i64 ++ junk)) v.value)
      r' live' junk junk where
  running := by
    obtain ⟨f, fs, hf, hread⟩ := h.locals
    refine ⟨by simp [State.computed, hr, hbelow], f, fs, hf, fun ix hix => ?_⟩
    rw [hlocals]
    exact hread ix (hlive ix hix)
  ip := rfl
  retStack := rfl
  junk := id

variable {ops : List Op} {k : Kind} {fs : List (List (Option Value))} {f : List (Option Value)}
    {ix : UInt32}

theorem readsFirst_cons (h : ReadsFirst ops ix)
    (hk : ∀ j, k ≠ .set j) : ReadsFirst (k.op :: ops) ix := by
  cases k with
  | get j => exact .inr h
  | set j => exact absurd rfl (hk j)
  | binary o => cases o <;> exact h
  | compare cc => cases cc <;> exact h
  | _ => exact h

theorem exec_localGet (hf : s.frames = f :: fs) (ix : UInt32) :
    exec env (.localGet ix) s = .next (State.computed s s.stack (readLocal f ix)) := by
  change localGet ix s = _
  unfold localGet
  rw [hf]
  rfl

theorem exec_localSet
    (hf : s.frames = f :: fs) (ix : UInt32) : exec env (.localSet ix) s = .next { s with
      stack := s.stack.tail
      frames := setLocal f ix.toNat (s.stack.headD (.i64 0)) :: fs
      ip := s.ip + 1 } := by
  change localSet ix s = _
  unfold localSet
  rw [hf]
  rfl

variable {live : UInt32 → Prop} {rip fuel m : Nat} {rips : List Nat} {s' : State W} {v : Verdict}

theorem Running.top_two (h : Running s r live junk) {st : List Slot} (hr : r.stack = b :: a :: st) :
    s.stack = b.value :: a.value :: (st.map Slot.value ++ (r.below.map Value.i64 ++ junk)) := by
  rw [h.stack, hr]
  rfl

variable (env) in
/-- One instruction moves the interpreter as the reading says; `live` holds the locals read
before and those of `live'` that are not set. -/
theorem exec_kind (h : Running s r live junk)
    (hget : ∀ ix, k = .get ix → live ix)
    (hlive : ∀ ix, live' ix → (∀ j, k = .set j → ix ≠ j) → live ix) (hr : r.step k = .ok r') :
    ∃ s' junk', exec env k.op s = .next s' ∧ Stepped s s' r' live' junk junk' := by
  have hpush : ∀ v : Slot, (∀ j, k ≠ .set j) →
      exec env k.op s = .next (State.computed s s.stack v.value) →
      ∃ s' junk', exec env k.op s = .next s' ∧ Stepped s s' (r.push v) live' junk junk' := by
    intro v hk hex
    rw [h.stack] at hex
    have hsub : ∀ ix, live' ix → live ix := fun ix hix => hlive ix hix fun j hj => absurd hj (hk j)
    exact ⟨_, junk, hex, h.computed hsub (r.push v) rfl rfl rfl⟩
  cases k with
  | const n =>
    cases hr
    exact hpush (.int n) (by simp) rfl
  | boolean v =>
    cases hr
    exact hpush (.flag (v ≠ 0) v.toUInt64.toInt64) (by simp) rfl
  | binary o =>
    simp only [Reading.step] at hr
    split at hr
    · rename_i b a st hst
      cases hc : o.slot b a with
      | error e =>
        rw [hc] at hr
        cases hr
      | ok c =>
        rw [hc] at hr
        cases hr
        exact ⟨_, junk, exec_binary o (h.top_two hst) hc,
          h.computed (fun ix hix => hlive ix hix (by simp)) _ rfl rfl rfl⟩
    · cases hr
  | compare cc =>
    simp only [Reading.step] at hr
    split at hr
    · rename_i b a st hst
      cases hc : cc.slot b a with
      | error e =>
        rw [hc] at hr
        cases hr
      | ok c =>
        rw [hc] at hr
        cases hr
        exact ⟨_, junk, exec_compare cc (h.top_two hst) hc,
          h.computed (fun ix hix => hlive ix hix (by simp)) _ rfl rfl rfl⟩
    · cases hr
  | get ix =>
    cases hr
    obtain ⟨f, fs, hf, hread⟩ := h.locals
    refine hpush (r.locals ix) (by simp) ?_
    rw [← hread ix (hget ix rfl)]
    exact exec_localGet hf ix
  | set ix =>
    simp only [Reading.step] at hr
    split at hr
    · rename_i v st hst
      cases hr
      obtain ⟨f, fs, hf, hread⟩ := h.locals
      have hstack := h.stack
      rw [hst] at hstack
      -- A local that is set first need not have been read before.
      refine ⟨_, junk, exec_localSet hf ix, ⟨?_, ?_⟩, rfl, rfl, id⟩
      · simp [hstack]
      · refine ⟨_, fs, rfl, fun jx hjx => ?_⟩
        rw [hstack, readLocal_setLocal]
        by_cases hj : jx = ix
        · simp only [hj, if_true, Function.update_self]
          rfl
        · simp only [if_neg hj, Function.update_of_ne hj]
          refine hread jx (hlive jx hjx ?_)
          rintro j hset rfl
          exact hj (Kind.set.inj hset).symm
    · cases hr
  | pop =>
    have hstack := h.stack
    have hlocals : ∃ f fs, s.frames = f :: fs ∧
        ∀ ix, live' ix → readLocal f ix = (r.locals ix).value := by
      obtain ⟨f, fs, hf, hread⟩ := h.locals
      exact ⟨f, fs, hf, fun ix hix => hread ix (hlive ix hix (by simp))⟩
    simp only [Reading.step] at hr
    split at hr
    · rename_i v st hst
      cases hr
      refine ⟨_, junk, rfl, ⟨?_, hlocals⟩, rfl, rfl, id⟩
      simp [State.advance, hstack, hst]
    · rename_i hst
      cases hr
      rw [hst] at hstack
      -- Below the function's own values lie the arguments, and then what the caller left.
      cases hb : r.below with
      | nil =>
        refine ⟨_, junk.tail, rfl, ⟨?_, hlocals⟩, rfl, rfl, fun hj => by rw [hj]; rfl⟩
        simp [State.advance, hstack, hst, hb]
      | cons m bl =>
        refine ⟨_, junk, rfl, ⟨?_, hlocals⟩, rfl, rfl, id⟩
        simp [State.advance, hstack, hst, hb]
  | ret => cases hr

variable (env) in
/-- **The step lemma of the interpreter.** -/
theorem exec_step (h : Running s r (ReadsFirst (k.op :: ops)) junk) (hr : r.step k = .ok r') :
    ∃ s' junk', exec env k.op s = .next s' ∧ Stepped s s' r' (ReadsFirst ops) junk junk' := by
  refine exec_kind env h ?_ (fun ix hix hset => ?_) hr
  · rintro ix rfl
    exact Or.inl rfl
  · by_cases hk : ∃ j, k = .set j
    · obtain ⟨j, rfl⟩ := hk
      exact ⟨hset j rfl, hix⟩
    · push Not at hk
      exact readsFirst_cons hix hk

theorem exec_refused (h : Running s r live junk)
    (hr : r.step k = .error .refused) : exec env k.op s = .stop (.failed 1) := by
  cases k with
  | const | boolean | get => cases hr
  | binary o =>
    simp only [Reading.step] at hr
    split at hr
    · rename_i b a st hst
      cases hc : o.slot b a with
      | error e =>
        rw [hc] at hr
        cases hr
        exact exec_binary_refused o (h.top_two hst) hc
      | ok c =>
        rw [hc] at hr
        cases hr
    · cases hr
  | compare cc =>
    simp only [Reading.step] at hr
    split at hr
    · rename_i b a st hst
      cases hc : cc.slot b a with
      | error e =>
        rw [hc] at hr
        cases hr
        exact exec_compare_refused cc (h.top_two hst) hc
      | ok c =>
        rw [hc] at hr
        cases hr
    · cases hr
  | set | pop =>
    simp only [Reading.step] at hr
    split at hr <;> cases hr
  | ret =>
    simp only [Reading.step, Reading.returned, Except.error.injEq] at hr
    split at hr
    · cases hr
    · cases hr
    · split at hr <;> cases hr
    · cases hr

theorem exec_ret (h : s.retStack = rip :: rips) :
    exec env .ret s = .next { s with frames := s.frames.tail, retStack := rips, ip := rip } := by
  change ret env s = _
  unfold ret
  rw [h]
  cases env.isExportCall with
  | false => rfl
  | true =>
    cases hst : s.stack with
    | nil | cons => rfl

/-- What a verdict says about the interpretation of the body. -/
def Verdict.interpreted (junk : List Value) : Verdict → Outcome W → Prop
  | .int n, o => ∃ s', o = .next s' ∧ s'.stack.head? = some (.i64 n)
  | .bool, o => ∃ s' t, o = .next s' ∧ s'.stack.head? = some (.bool t)
  | .stale, o => ∃ s', o = .next s' ∧ (junk = [] → s'.stack.head? ≠ some (.i64 0))
  | .refused, o => o = .stop (.failed 1)
  | _, _ => True

theorem Verdict.interpreted.mono {junk junk' : List Value} {o : Outcome W}
    (hj : junk = [] → junk' = []) (h : v.interpreted junk' o) : v.interpreted junk o := by
  cases v with
  | stale =>
    obtain ⟨s', ho, hs'⟩ := h
    exact ⟨s', ho, fun he => hs' (hj he)⟩
  | _ => exact h

theorem returned_interpreted (h : Running s r live junk)
    (hs' : s'.stack = s.stack) : r.returned.interpreted junk (.next s') := by
  have hstack := h.stack
  unfold Reading.returned
  split
  · rename_i n st hst
    rw [hst] at hstack
    exact ⟨s', rfl, by rw [hs', hstack]; rfl⟩
  · rename_i t n st hst
    rw [hst] at hstack
    exact ⟨s', t, rfl, by rw [hs', hstack]; rfl⟩
  · rename_i m bl hst hbl
    rw [hst, hbl] at hstack
    split_ifs with hm
    · exact ⟨s', rfl, by rw [hs', hstack, hm]; rfl⟩
    · refine ⟨s', rfl, fun _ => ?_⟩
      rw [hs', hstack]
      simpa using hm
  · rename_i hst hbl
    rw [hst, hbl] at hstack
    refine ⟨s', rfl, fun hj => ?_⟩
    rw [hs', hstack, hj]
    simp

theorem functionOps_cons {code : List Op} {ip : Nat} (h : functionOps (code.drop ip) = op :: ops) :
    code[ip]? = some op ∧ (isRet op = false → functionOps (code.drop (ip + 1)) = ops) := by
  cases hd : code.drop ip with
  | nil =>
    rw [hd] at h
    cases h
  | cons op' rest =>
    have hget : code[ip]? = some op' := by
      rw [← head?_drop, hd]
      rfl
    have hnext : code.drop (ip + 1) = rest := by
      rw [← tail_drop, hd]
      rfl
    rw [hd, functionOps] at h
    split_ifs at h with hret
    · cases h
      exact ⟨hget, fun hno => by simp [hret] at hno⟩
    · cases h
      exact ⟨hget, fun _ => by rw [hnext]⟩

theorem step_error (hk : k ≠ .ret) (h : r.step k = .error v) :
    v = .refused ∨ v = .mixed ∨ v = .zero ∨ v = .overflow := by
  cases k with
  | const | boolean | get => cases h
  | binary o =>
    simp only [Reading.step] at h
    split at h
    · rename_i b a st _
      cases b with
      | flag t m => cases hs : o.strict <;> simp_all [BinOp.slot, Except.map]
      | int m =>
        cases a with
        | flag t n => cases hs : o.strict <;> simp_all [BinOp.slot, Except.map]
        | int n =>
          simp only [BinOp.slot] at h
          cases hev : o.eval n m with
          | some q =>
            rw [hev] at h
            cases h
          | none =>
            simp only [hev, Except.map, Except.error.injEq] at h
            split at h <;> simp [← h]
    · simp_all
  | compare cc =>
    simp only [Reading.step] at h
    split at h
    · rename_i b a st _
      cases b <;> cases a <;> cases cc <;> simp_all [IntCC.slot, Except.map]
    · simp_all
  | set ix =>
    simp only [Reading.step] at h
    split at h <;> simp_all
  | pop =>
    simp only [Reading.step] at h
    split at h <;> cases h
  | ret => exact absurd rfl hk

theorem runUntilReturn_succ {depth : Nat}
    (hop : env.program.code[s.ip]? = some op) (hex : exec env op s = .next s') :
    runUntilReturn env depth (fuel + 1) s =
      if s'.retStack.length = depth then .next s' else runUntilReturn env depth fuel s' := by
  rw [runUntilReturn, hop]
  simp only [hex]

/-- **The run lemma of the interpreter.** -/
theorem runUntilReturn_judge {fuel : Nat} (hcode : functionOps (env.program.code.drop s.ip) = ops)
    (h : Running s r (ReadsFirst ops) junk) (hret : s.retStack = rip :: rips)
    (hfuel : ops.length ≤ fuel) :
    (judge ops r).interpreted junk (runUntilReturn env rips.length fuel s) := by
  induction ops generalizing s r junk fuel with
  | nil => trivial
  | cons op ops ih =>
    obtain ⟨fuel, rfl⟩ := Nat.exists_eq_succ_of_ne_zero (n := fuel) (by simp at hfuel; omega)
    obtain ⟨hop, hnext⟩ := functionOps_cons hcode
    cases hk : kindOf op with
    | none =>
      rw [judge, hk]
      trivial
    | some k =>
      obtain rfl := op_of_kindOf hk
      rw [judge_cons]
      cases hr : r.step k with
      | ok r' =>
        obtain ⟨s', junk', hex, hs'⟩ := exec_step env h hr
        have hnot : isRet k.op = false := by
          cases hret' : isRet k.op with
          | false => rfl
          | true =>
            obtain rfl := isRet_op hret'
            cases hr
        rw [runUntilReturn_succ hop hex, hs'.retStack, hret, if_neg (by simp)]
        refine (ih ?_ hs'.running (hs'.retStack.trans hret) ?_).mono hs'.junk
        · rw [hs'.ip]
          exact hnext hnot
        · simpa using hfuel
      | error v =>
        by_cases hk : k = .ret
        · subst hk
          cases hr
          rw [runUntilReturn_succ hop (exec_ret hret), if_pos rfl]
          exact returned_interpreted h rfl
        · rcases step_error hk hr with rfl | rfl | rfl | rfl
          · rw [runUntilReturn, hop]
            simp only [exec_refused h hr]
            rfl
          · trivial
          · trivial
          · trivial

/-- Where the interpreter puts the argument of a function without a prologue. -/
def targetLocal (p : Program) (offset : UInt32) : Nat :=
  match findFirstLocalGet p offset with
  | .found ix => ix.toNat
  | _ => 0

variable {offset : UInt32} {args : List Int64}

theorem callOp_prologue (hset : isLocalSet env.program.code[offset.toNat]? = true) :
    callOp env offset s = .next (s.enter
      (replicate (scanFunctionLocalCount env.program offset) none) offset.toNat) := by
  rw [callOp, hset]

theorem callOp_bare {v : Value}
    (hset : isLocalSet env.program.code[offset.toNat]? = false) (hstack : s.stack = v :: st) :
    callOp env offset s = if findFirstLocalGet env.program offset = .loops then .hang
      else .next ({ s with stack := st }.enter
        ((replicate (scanFunctionLocalCount env.program offset) none).set
          (targetLocal env.program offset) (some v)) offset.toNat) := by
  unfold callOp targetLocal
  rw [hset, hstack]
  cases hfind : findFirstLocalGet env.program offset <;> simp

theorem callOp_bare_nil
    (hset : isLocalSet env.program.code[offset.toNat]? = false) (hstack : s.stack = []) :
    callOp env offset s = .next (s.enter
      (replicate (scanFunctionLocalCount env.program offset) none) offset.toNat) := by
  rw [callOp, hset, hstack]

/-- What a local holds in the interpreter when the body starts: in a function with a prologue
the arguments it popped, in one without the last argument, in the local it reads first. -/
def heldLocal (p : Program) (offset : UInt32) (popped : Nat) (args : List Int64) (ix : UInt32) :
    Int64 :=
  if isLocalSet p.code[offset.toNat]? then
    if args.length ≤ ix.toNat + popped then args.getD ix.toNat 0 else 0
  else if ix.toNat = targetLocal p offset ∧ ix.toNat < args.length then args.getLastD 0 else 0

/-- The arguments that stay on the stack, the top first. -/
def leftArgs (p : Program) (offset : UInt32) (popped : Nat) (args : List Int64) : List Int64 :=
  if isLocalSet p.code[offset.toNat]? then (args.take (args.length - popped)).reverse
  else args.dropLast.reverse

theorem skipCount_set (ix : UInt32) (ops : List Op) (m : Nat) :
    skipCount (.localSet ix :: ops) (m + 1) = if ix.toNat = m then skipCount ops m + 1 else 0 := rfl

theorem skipCount_zero (ops : List Op) : skipCount ops 0 = 0 := by
  cases ops with
  | nil => rfl
  | cons op ops => cases op <;> rfl

theorem skipCount_other (h : ∀ ix, op ≠ .localSet ix) (ops : List Op) (m : Nat) :
    skipCount (op :: ops) m = 0 := by
  cases op
  all_goals first
    | rfl
    | exact absurd rfl (h _)

/-- The interpreter is in the prologue: the first `m` arguments are on the stack, the others in
the locals of their numbers, and `ops` is the code that follows. -/
structure Loading (env : Env W) (args : List Int64) (junk : List Value) (m : Nat) (ops : List Op)
    (s : State W) : Prop where
  code : functionOps (env.program.code.drop s.ip) = ops
  stack : s.stack = (args.take m).reverse.map Value.i64 ++ junk
  locals : ∃ f fs, s.frames = f :: fs ∧
    ∀ ix, readLocal f ix = .i64 (if m ≤ ix.toNat then args.getD ix.toNat 0 else 0)

theorem Loading.pop
    (h : Loading env args junk (m + 1) (.localSet ix :: ops) s) (hm : m + 1 ≤ args.length)
    (hix : ix.toNat = m) : ∃ s', exec env (.localSet ix) s = .next s' ∧ s'.retStack = s.retStack ∧
      Loading env args junk m ops s' := by
  obtain ⟨f, fs, hf, hread⟩ := h.locals
  have htop : s.stack = .i64 (args.getD m 0) :: ((args.take m).reverse.map Value.i64 ++ junk) := by
    have hget : args[m]? = some args[m] := getElem?_eq_getElem hm
    rw [h.stack, take_add_one, hget, getD_eq_getElem?_getD, hget]
    simp only [Option.toList_some, Option.getD_some, reverse_append, reverse_singleton,
      map_cons, cons_append, nil_append]
  refine ⟨_, exec_localSet hf ix, rfl, (functionOps_cons h.code).2 rfl, ?_, _, fs, rfl, ?_⟩
  · simp [htop]
  · intro jx
    rw [readLocal_setLocal, htop]
    by_cases hj : jx = ix
    · rw [if_pos hj, hj, hix, if_pos le_rfl]
      rfl
    · have hne : jx.toNat ≠ m := fun he => hj (UInt32.toNat_inj.1 (he.trans hix.symm))
      rw [if_neg hj, hread jx]
      congr 2
      exact propext ⟨fun hle => by omega, fun hle => by omega⟩

theorem Loading.prologue (depth : Nat)
    (h : Loading env args junk m ops s) (hm : m ≤ args.length) (hdepth : s.retStack.length ≠ depth)
    (fuel : Nat) :
    ∃ s', runUntilReturn env depth (fuel + skipCount ops m) s = runUntilReturn env depth fuel s' ∧
      s'.retStack = s.retStack ∧
      Loading env args junk (m - skipCount ops m) (ops.drop (skipCount ops m)) s' := by
  -- a store that is not of the local expected ends the prologue
  have hends (hnone : skipCount ops m = 0) :
      ∃ s', runUntilReturn env depth (fuel + skipCount ops m) s =
          runUntilReturn env depth fuel s' ∧ s'.retStack = s.retStack ∧
        Loading env args junk (m - skipCount ops m) (ops.drop (skipCount ops m)) s' := by
    rw [hnone]
    exact ⟨s, rfl, rfl, h⟩
  induction ops generalizing s m with
  | nil => exact hends rfl
  | cons op ops ih =>
    by_cases hset : ∃ ix, op = .localSet ix
    · obtain ⟨ix, rfl⟩ := hset
      cases m with
      | zero => exact hends (skipCount_zero _)
      | succ m =>
        by_cases hix : ix.toNat = m
        · obtain ⟨s₁, hex, hret, hload⟩ := h.pop hm hix
          obtain ⟨s', hrun, hret', hload'⟩ := ih hload (by omega) (by rwa [hret]) (fun hnone => by
              rw [hnone]
              exact ⟨s₁, rfl, rfl, hload⟩)
          have hcount : skipCount (.localSet ix :: ops) (m + 1) = skipCount ops m + 1 := by
            rw [skipCount_set, if_pos hix]
          refine ⟨s', ?_, hret'.trans hret, ?_⟩
          · rw [hcount, ← add_assoc, runUntilReturn_succ (functionOps_cons h.code).1 hex,
              if_neg (by rwa [hret]), hrun]
          · rw [hcount, drop_succ_cons, Nat.add_sub_add_right]
            exact hload'
        · exact hends (by rw [skipCount_set, if_neg hix])
    · exact hends (skipCount_other (fun ix he => hset ⟨ix, he⟩) ops m)

end Arth.Jit
