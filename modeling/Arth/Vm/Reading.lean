import Arth.Vm.Jit

/-!
# Reading straight-line code

What both executions of a compiled function compute, read off its code and its arguments.

* `Slot` — an operand as the interpreter has it, an integer or a boolean, with the integer
  the native code has in its place.
* `judge` — the reading of the whole body: the integer it returns, or what stands in the
  way (a boolean returned, a divisor 0, the quotient that overflows, nothing to return).
* `runIns_judge`, `runUntilReturn_judge` — what the reading says about the native code and
  about the interpreter.
-/

namespace Arth.Jit

open List Option Function

/-! ## The instructions that compile -/

inductive Kind where
  | const (n : Int64)
  | boolean (v : UInt8)
  | binary (o : BinOp)
  | compare (cc : IntCC)
  | get (ix : UInt32)
  | set (ix : UInt32)
  | pop
  | ret
  deriving DecidableEq

def BinOp.op : BinOp → Op
  | .iadd => .addI64
  | .isub => .subI64
  | .imul => .mulI64
  | .sdiv => .divI64
  | .srem => .modI64
  | .ishl => .shlI64
  | .sshr => .shrI64
  | .band => .andI64
  | .bor => .orI64
  | .bxor => .xorI64

def IntCC.op : IntCC → Op
  | .signedLessThan => .ltI64
  | .equal => .eqI64

def Kind.op : Kind → Op
  | .const n => .pushI64 n
  | .boolean v => .pushBool v
  | .binary o => o.op
  | .compare cc => cc.op
  | .get ix => .localGet ix
  | .set ix => .localSet ix
  | .pop => .pop
  | .ret => .ret

def kindOf : Op → Option Kind
  | .pushI64 n => some (.const n)
  | .pushBool v => some (.boolean v)
  | .addI64 => some (.binary .iadd)
  | .subI64 => some (.binary .isub)
  | .mulI64 => some (.binary .imul)
  | .divI64 => some (.binary .sdiv)
  | .modI64 => some (.binary .srem)
  | .shlI64 => some (.binary .ishl)
  | .shrI64 => some (.binary .sshr)
  | .andI64 => some (.binary .band)
  | .orI64 => some (.binary .bor)
  | .xorI64 => some (.binary .bxor)
  | .ltI64 => some (.compare .signedLessThan)
  | .eqI64 => some (.compare .equal)
  | .localGet ix => some (.get ix)
  | .localSet ix => some (.set ix)
  | .pop => some .pop
  | .ret => some .ret
  | _ => none

@[simp] theorem kindOf_op (k : Kind) : kindOf k.op = some k := by
  cases k with
  | binary o => cases o <;> rfl
  | compare cc => cases cc <;> rfl
  | _ => rfl

variable {op : Op} {vals : List Int64} {b : Builder} {k : Kind} {is : List Ins}
    {vars : UInt32 → Int64} {sl : List Slot} {st : List Nat} {r : Reading}

theorem op_of_kindOf (h : kindOf op = some k) : op = k.op := by
  cases op
  all_goals first
    | (cases h; rfl)
    | cases h

theorem kindOf_of_translateOp {r : List Ins × Builder}
    (h : translateOp b op = .ok r) : ∃ k, kindOf op = some k := by
  cases op
  all_goals first
    | exact ⟨_, rfl⟩
    | cases h

/-! ## Slots -/

inductive Slot where
  | int (n : Int64)
  | flag (b : Bool) (n : Int64)
  deriving DecidableEq

/-- The interpreter's operand. -/
def Slot.value : Slot → Value
  | .int n => .i64 n
  | .flag b _ => .bool b

/-- The native code's operand. -/
def Slot.native : Slot → Int64
  | .int n => n
  | .flag _ n => n

/-- How a body ends: with an integer, with a boolean, with nothing of its own to return, at
an instruction that refuses a boolean, at a divisor 0, at the quotient that overflows, or at
an instruction that makes a float out of a boolean. -/
inductive Verdict where
  | int (n : Int64)
  | bool
  | stale
  | refused
  | zero
  | overflow
  | mixed
  deriving DecidableEq

/-- The instructions whose operands the interpreter wants to be integers. -/
def BinOp.strict : BinOp → Bool
  | .ishl | .sshr | .band | .bor | .bxor => true
  | _ => false

/-- `b` is the operand on top. -/
def BinOp.slot (o : BinOp) : Slot → Slot → Except Verdict Slot
  | .int b, .int a =>
    match o.eval a b with
    | some n => .ok (.int n)
    | none => .error (if b = 0 then .zero else .overflow)
  | _, _ => .error (if o.strict then .refused else .mixed)

def IntCC.slot (cc : IntCC) : Slot → Slot → Except Verdict Slot
  | .int b, .int a => .ok (.flag (cc.holds a b) (ofBool (cc.holds a b)))
  | .flag b m, .flag a n =>
    match cc with
    | .equal => .ok (.flag (a = b) (ofBool (n = m)))
    | .signedLessThan => .error .refused
  | _, _ => .error .refused

/-- The operands of the function, the arguments still below them, and the locals. -/
structure Reading where
  stack : List Slot
  below : List Int64
  locals : UInt32 → Slot

def Reading.push (r : Reading) (s : Slot) : Reading := { r with stack := s :: r.stack }

/-- What a return finds: the operand on top, else the argument left on top. The native code
returns 0 when it has no operand. -/
def Reading.returned (r : Reading) : Verdict :=
  match r.stack, r.below with
  | .int n :: _, _ => .int n
  | .flag _ _ :: _, _ => .bool
  | [], m :: _ => if m = 0 then .int 0 else .stale
  | [], [] => .stale

def Reading.step (r : Reading) : Kind → Except Verdict Reading
  | .const n => .ok (r.push (.int n))
  | .boolean v => .ok (r.push (.flag (v ≠ 0) v.toUInt64.toInt64))
  | .binary o =>
    match r.stack with
    | b :: a :: st => (o.slot b a).map fun s => { r with stack := s :: st }
    | _ => .error .mixed
  | .compare cc =>
    match r.stack with
    | b :: a :: st => (cc.slot b a).map fun s => { r with stack := s :: st }
    | _ => .error .mixed
  | .get ix => .ok (r.push (r.locals ix))
  | .set ix =>
    match r.stack with
    | s :: st => .ok { r with stack := st, locals := Function.update r.locals ix s }
    | [] => .error .mixed
  | .pop =>
    match r.stack with
    | _ :: st => .ok { r with stack := st }
    | [] => .ok { r with below := r.below.tail }
  | .ret => .error r.returned

def judge : List Op → Reading → Verdict
  | [], _ => .mixed
  | op :: ops, r =>
    match kindOf op with
    | none => .mixed
    | some k =>
      match r.step k with
      | .ok r' => judge ops r'
      | .error v => v

theorem judge_cons (k : Kind) (ops : List Op) (r : Reading) : judge (k.op :: ops) r =
      match r.step k with
      | .ok r' => judge ops r'
      | .error v => v := by
  rw [judge, kindOf_op]

/-- A local the code reads before it writes it. -/
def ReadsFirst : List Op → UInt32 → Prop
  | [], _ => False
  | .localGet j :: ops, ix => ix = j ∨ ReadsFirst ops ix
  | .localSet j :: ops, ix => ix ≠ j ∧ ReadsFirst ops ix
  | _ :: ops, ix => ReadsFirst ops ix

/-! ## The native code -/

/-- The native code before an instruction agrees with the reading. -/
structure NativeRel (b : Builder) (r : Reading) (vals : List Int64) (vars : UInt32 → Int64) :
    Prop where
  length : vals.length = b.next
  lt : ∀ v ∈ b.stack, v < b.next
  stack : b.stack.map (vals.getD · 0) = r.stack.map Slot.native
  locals : ∀ ix, vars ix = (r.locals ix).native

/-- What a verdict says about the native code. -/
def Verdict.native : Verdict → NativeResult → Prop
  | .int n, res => res = .value n
  | .stale, res => res = .value 0
  | .zero, res => res = .trap
  | .overflow, res => res = .trap
  | _, _ => True

theorem getD_append_of_lt {v : Nat} (ns : List Int64) (h : v < vals.length) :
    (vals ++ ns).getD v 0 = vals.getD v 0 := by
  simp [getD_eq_getElem?_getD, getElem?_append_left h]

theorem NativeRel.result (h : NativeRel b r vals vars) (st : List Nat) (sl : List Slot) (s : Slot)
    (hlt : ∀ v ∈ st, v < b.next) (hst : st.map (vals.getD · 0) = sl.map Slot.native) :
    NativeRel (b.result st) { r with stack := s :: sl } (vals ++ [s.native]) vars where
  length := by simp [Builder.result, h.length]
  lt := by
    intro v hv
    rcases mem_cons.1 hv with rfl | hv
    · simp [Builder.result]
    · have := hlt v hv
      simp only [Builder.result]
      omega
  stack := by
    have htop : (vals ++ [s.native]).getD b.next 0 = s.native := by
      simp [← h.length]
    have hrest : st.map ((vals ++ [s.native]).getD · 0) = st.map (vals.getD · 0) := by
      refine map_congr_left fun v hv => getD_append_of_lt _ ?_
      rw [h.length]
      exact hlt v hv
    simp only [Builder.result, map_cons, htop, hrest, hst]
  locals := h.locals

theorem two_slots {y x : Nat} (h : (y :: x :: st).map (vals.getD · 0) = sl.map Slot.native) :
    ∃ b a rest, sl = b :: a :: rest ∧ vals.getD y 0 = b.native ∧ vals.getD x 0 = a.native ∧
      st.map (vals.getD · 0) = rest.map Slot.native := by
  match sl, h with
  | [], h | [_], h => simp at h
  | b :: a :: rest, h =>
    simp only [map_cons, cons.injEq] at h
    exact ⟨b, a, rest, rfl, h.1, h.2.1, h.2.2⟩

theorem translateOp_binary (b : Builder) (o : BinOp) : translateOp b o.op = translateBinary b o := by
  cases o <;> rfl

theorem translateOp_compare (b : Builder) (cc : IntCC) :
    translateOp b cc.op = translateCompare b cc := by
  cases cc <;> rfl

theorem translateOp_get (b : Builder) (ix : UInt32) : translateOp b (.localGet ix) =
      if ix ∈ b.locals then .ok ([.useVar ix], b.result b.stack)
      else .error (undefinedLocal ix) := rfl

theorem translateOp_set (b : Builder) (ix : UInt32) : translateOp b (.localSet ix) =
      match b.stack with
      | v :: st => .ok ([.defVar ix v], { b with stack := st, locals := ix :: b.locals })
      | [] => .error stackUnderflow := rfl

theorem translateOp_ret (b : Builder) : translateOp b .ret = match b.stack with
      | v :: st => .ok ([.return_ v], { b with stack := st })
      | [] => .ok ([.iconst 0, .return_ b.next], { b with next := b.next + 1 }) := rfl

/-- One instruction that goes on; `none` is a trap. -/
def stepIns (vals : List Int64) (vars : UInt32 → Int64) :
    Ins → Option (List Int64 × (UInt32 → Int64))
  | .iconst n => some (vals ++ [n], vars)
  | .binary o a b => (o.eval (vals.getD a 0) (vals.getD b 0)).map fun n => (vals ++ [n], vars)
  | .icmp cc a b => some (vals ++ [ofBool (cc.holds (vals.getD a 0) (vals.getD b 0))], vars)
  | .uextend a => some (vals ++ [vals.getD a 0], vars)
  | .useVar ix => some (vals ++ [vars ix], vars)
  | .defVar ix a => some (vals, Function.update vars ix (vals.getD a 0))
  | .return_ _ => none

def stepAll : List Ins → List Int64 → (UInt32 → Int64) → Option (List Int64 × (UInt32 → Int64))
  | [], vals, vars => some (vals, vars)
  | i :: is, vals, vars => (stepIns vals vars i).bind fun q => stepAll is q.1 q.2

theorem runIns_stepAll {vals' : List Int64} {vars' : UInt32 → Int64}
    (h : stepAll is vals vars = some (vals', vars')) (rest : List Ins) :
    runIns (is ++ rest) vals vars = runIns rest vals' vars' := by
  induction is generalizing vals vars with
  | nil =>
    cases h
    rfl
  | cons i is ih =>
    obtain ⟨q, hq, hall⟩ := bind_eq_some_iff.1 h
    rw [← ih hall]
    cases i with
    | binary o a b =>
      obtain ⟨n, hn, rfl⟩ := map_eq_some_iff.1 hq
      simp only [cons_append, runIns, hn]
    | return_ a => cases hq
    | _ =>
      cases hq
      rfl

/-- The native code agrees with the reading on the operands and on the locals it has variables
for. -/
def NativeAt (b : Builder) (r : Reading) (vals : List Int64) (vars : UInt32 → Int64) : Prop :=
  ∃ r₀, NativeRel b r₀ vals vars ∧ r₀.stack = r.stack ∧ ∀ ix ∈ b.locals, r₀.locals ix = r.locals ix

section NativeStep

variable {b b' : Builder} {r r' : Reading} {vals : List Int64} {vars : UInt32 → Int64}
  {is : List Ins} {v : Verdict} {o : BinOp}

theorem NativeAt.result (h : NativeAt b r vals vars) (s : Slot)
    (hlt : ∀ v ∈ st, v < b.next) (hst : st.map (vals.getD · 0) = sl.map Slot.native) :
    NativeAt (b.result st) { r with stack := s :: sl } (vals ++ [s.native]) vars := by
  obtain ⟨r₀, hrel, -, hlocals⟩ := h
  exact ⟨_, hrel.result st sl s hlt hst, rfl, hlocals⟩

theorem NativeAt.push (h : NativeAt b r vals vars) (s : Slot) :
    NativeAt (b.result b.stack) (r.push s) (vals ++ [s.native]) vars := by
  obtain ⟨r₀, hrel, hstack, hlocals⟩ := h
  have hst := hrel.stack
  rw [hstack] at hst
  exact NativeAt.result ⟨r₀, hrel, hstack, hlocals⟩ s hrel.lt hst

theorem BinOp.slot_ok {b a c : Slot} (h : o.slot b a = .ok c) :
    ∃ q, o.eval a.native b.native = some q ∧ c = .int q := by
  cases b with
  | flag t m => cases h
  | int m =>
    cases a with
    | flag t n => cases h
    | int n =>
      simp only [BinOp.slot, Slot.native] at h ⊢
      cases hev : o.eval n m with
      | none =>
        rw [hev] at h
        cases h
      | some q =>
        rw [hev] at h
        cases h
        exact ⟨q, rfl, rfl⟩

theorem BinOp.slot_error {b a : Slot} (h : o.slot b a = .error v)
    (go : Int64 → NativeResult) : v.native (match o.eval a.native b.native with
      | some n => go n
      | none => .trap) := by
  cases b with
  | flag t m =>
    simp only [BinOp.slot, Except.error.injEq] at h
    subst h
    split <;> trivial
  | int m =>
    cases a with
    | flag t n =>
      simp only [BinOp.slot, Except.error.injEq] at h
      subst h
      split <;> trivial
    | int n =>
      simp only [BinOp.slot, Slot.native] at h ⊢
      cases hev : o.eval n m with
      | some q =>
        rw [hev] at h
        cases h
      | none =>
        rw [hev] at h
        cases h
        simp only
        split <;> rfl

theorem IntCC.slot_ok {cc : IntCC} {b a c : Slot} (h : cc.slot b a = .ok c) :
    c.native = ofBool (cc.holds a.native b.native) := by
  cases b with
  | int m =>
    cases a with
    | int n =>
      cases h
      rfl
    | flag t n => cases h
  | flag t m =>
    cases a with
    | int n => cases h
    | flag u n =>
      cases cc with
      | equal =>
        cases h
        rfl
      | signedLessThan => cases h

theorem native_kind (h : NativeAt b r vals vars)
    (ht : translateOp b k.op = .ok (is, b')) (hr : r.step k = .ok r') :
    ∃ vals' vars', stepAll is vals vars = some (vals', vars') ∧ NativeAt b' r' vals' vars' ∧
      ∀ ix ∈ b.locals, ix ∈ b'.locals := by
  have hself := h
  obtain ⟨r₀, hrel, hstack, hlocals⟩ := h
  have hst := hrel.stack
  have hlt := hrel.lt
  rw [hstack] at hst
  cases k with
  | const n =>
    cases ht
    cases hr
    exact ⟨_, vars, rfl, hself.push (.int n), fun ix hix => hix⟩
  | boolean v =>
    cases ht
    cases hr
    exact ⟨_, vars, rfl, hself.push (.flag (v ≠ 0) v.toUInt64.toInt64), fun ix hix => hix⟩
  | binary o =>
    rw [Kind.op, translateOp_binary] at ht
    unfold translateBinary at ht
    split at ht
    · rename_i y x st hb
      cases ht
      rw [hb] at hst hlt
      obtain ⟨sb, sa, rs, hrs, hy, hx, hrest⟩ := two_slots hst
      simp only [Reading.step, hrs] at hr
      cases hc : o.slot sb sa with
      | error e =>
        rw [hc] at hr
        cases hr
      | ok c =>
        rw [hc] at hr
        cases hr
        obtain ⟨q, hq, rfl⟩ := BinOp.slot_ok hc
        refine ⟨vals ++ [q], vars, ?_, ?_, fun ix hix => hix⟩
        · simp only [stepAll, stepIns, hy, hx, hq, map_some, bind_some]
        · exact hself.result (.int q) (fun v hv => hlt v (by simp [hv])) hrest
    · cases ht
  | compare cc =>
    rw [Kind.op, translateOp_compare] at ht
    unfold translateCompare at ht
    split at ht
    · rename_i y x st hb
      cases ht
      rw [hb] at hst hlt
      obtain ⟨sb, sa, rs, hrs, hy, hx, hrest⟩ := two_slots hst
      simp only [Reading.step, hrs] at hr
      cases hc : cc.slot sb sa with
      | error e =>
        rw [hc] at hr
        cases hr
      | ok c =>
        rw [hc] at hr
        cases hr
        have hnative := IntCC.slot_ok hc
        -- `icmp` gives the truth value, `uextend` copies it
        have hicmp : NativeAt (b.result st) { r with stack := c :: rs } (vals ++ [c.native]) vars :=
          hself.result c (fun v hv => hlt v (by simp [hv])) hrest
        obtain ⟨r₁, hrel₁, hstack₁, hlocals₁⟩ := hicmp
        have htail : NativeAt { b with next := b.next + 1, stack := st } { r with stack := rs }
            (vals ++ [c.native]) vars := by
          refine ⟨{ r₁ with stack := rs }, ⟨hrel₁.length, ?_, ?_, hrel₁.locals⟩, rfl, hlocals₁⟩
          · exact fun v hv => hrel₁.lt v (mem_cons_of_mem _ hv)
          · have hcons := hrel₁.stack
            simp only [hstack₁, Builder.result, map_cons, cons.injEq] at hcons
            exact hcons.2
        obtain ⟨r₂, hrel₂, hstack₂, hlocals₂⟩ := htail
        have hst₂ := hrel₂.stack
        rw [hstack₂] at hst₂
        have hlast : (vals ++ [c.native]).getD b.next 0 = c.native := by simp [← hrel.length]
        refine ⟨vals ++ [c.native] ++ [c.native], vars, ?_,
          NativeAt.result ⟨r₂, hrel₂, hstack₂, hlocals₂⟩ c hrel₂.lt hst₂, fun ix hix => hix⟩
        simp only [stepAll, stepIns, hy, hx, ← hnative, bind_some, hlast]
    · cases ht
  | get ix =>
    rw [Kind.op, translateOp_get] at ht
    split at ht
    · rename_i hix
      cases ht
      cases hr
      have hvar : vars ix = (r.locals ix).native := by rw [hrel.locals ix, hlocals ix hix]
      refine ⟨vals ++ [vars ix], vars, rfl, ?_, fun jx hjx => hjx⟩
      rw [hvar]
      exact hself.push (r.locals ix)
    · cases ht
  | set ix =>
    rw [Kind.op, translateOp_set] at ht
    split at ht
    · rename_i v st hb
      cases ht
      rw [hb] at hst hlt
      simp only [Reading.step] at hr
      split at hr
      · rename_i sl rs hrs
        cases hr
        simp only [hrs, map_cons, cons.injEq] at hst
        refine ⟨vals, _, rfl, ⟨⟨rs, r₀.below, update r₀.locals ix sl⟩, ⟨hrel.length, ?_,
          hst.2, fun jx => ?_⟩, rfl, fun jx hjx => ?_⟩, fun jx hjx => mem_cons_of_mem _ hjx⟩
        · exact fun w hw => hlt w (mem_cons_of_mem _ hw)
        · by_cases hj : jx = ix
          · subst hj
            simp only [update_self]
            exact hst.1
          · simp only [update_of_ne hj]
            exact hrel.locals jx
        · by_cases hj : jx = ix
          · subst hj
            simp only [update_self]
          · simp only [update_of_ne hj]
            exact hlocals jx ((mem_cons.1 hjx).resolve_left hj)
      · cases hr
    · cases ht
  | pop =>
    cases ht
    have htail : b.stack.tail.map (vals.getD · 0) = r.stack.tail.map Slot.native := by
      rw [map_tail, map_tail, hst]
    have hlt' : ∀ v ∈ b.stack.tail, v < b.next := fun v hv => hlt v (mem_of_mem_tail hv)
    have hat (bl : List Int64) : NativeAt { b with stack := b.stack.tail }
        ⟨r.stack.tail, bl, r.locals⟩ vals vars :=
      ⟨⟨r.stack.tail, bl, r₀.locals⟩, ⟨hrel.length, hlt', htail, hrel.locals⟩, rfl, hlocals⟩
    refine ⟨vals, vars, rfl, ?_, fun ix hix => hix⟩
    simp only [Reading.step] at hr
    split at hr
    · rename_i sl rs hrs
      cases hr
      simpa [hrs] using hat r.below
    · rename_i hrs
      cases hr
      simpa [hrs] using hat r.below.tail
  | ret => cases hr

theorem native_error (h : NativeAt b r vals vars)
    (ht : translateOp b k.op = .ok (is, b')) (hr : r.step k = .error v) (rest : List Ins) :
    v.native (runIns (is ++ rest) vals vars) := by
  obtain ⟨r₀, hrel, hstack, -⟩ := h
  have hst := hrel.stack
  rw [hstack] at hst
  cases k with
  | const | boolean | get => cases hr
  | set ix =>
    simp only [Reading.step] at hr
    split at hr
    · cases hr
    · cases hr
      trivial
  | pop =>
    simp only [Reading.step] at hr
    split at hr <;> cases hr
  | binary o =>
    rw [Kind.op, translateOp_binary] at ht
    unfold translateBinary at ht
    split at ht
    · rename_i y x st hb
      cases ht
      rw [hb] at hst
      obtain ⟨sb, sa, rs, hrs, hy, hx, -⟩ := two_slots hst
      simp only [Reading.step, hrs] at hr
      cases hc : o.slot sb sa with
      | ok c =>
        rw [hc] at hr
        cases hr
      | error e =>
        rw [hc] at hr
        cases hr
        rw [singleton_append, runIns, hy, hx]
        exact BinOp.slot_error hc _
    · cases ht
  | compare cc =>
    rw [Kind.op, translateOp_compare] at ht
    unfold translateCompare at ht
    split at ht
    · rename_i y x st hb
      rw [hb] at hst
      obtain ⟨sb, sa, rs, hrs, -⟩ := two_slots hst
      simp only [Reading.step, hrs] at hr
      cases sb <;> cases sa <;> cases cc <;> cases hr <;> trivial
    · cases ht
  | ret =>
    rw [Kind.op, translateOp_ret] at ht
    cases hr
    unfold Reading.returned
    split at ht
    · rename_i w st hb
      cases ht
      rw [hb] at hst
      split
      · rename_i n sl hrs
        simp only [hrs, map_cons, cons.injEq] at hst
        exact congrArg NativeResult.value hst.1
      · trivial
      · simp_all
      · simp_all
    · rename_i hb
      cases ht
      -- with nothing on the stack the translation returns a constant zero
      have hzero : runIns ([.iconst 0, .return_ b.next] ++ rest) vals vars = .value 0 := by
        simp [runIns, ← hrel.length]
      rw [hb] at hst
      split
      · simp_all
      · trivial
      · split <;> exact hzero
      · exact hzero

end NativeStep

theorem translateOps_cons {ops : List Op}
    (h : translateOps b (op :: ops) = .ok is) : ∃ is₁ b', translateOp b op = .ok (is₁, b') ∧
      (isRet op = true ∧ is = is₁ ∨
        isRet op = false ∧ ∃ rest, translateOps b' ops = .ok rest ∧ is = is₁ ++ rest) := by
  rw [translateOps] at h
  cases hop : translateOp b op with
  | error e =>
    rw [hop] at h
    cases h
  | ok r =>
    refine ⟨r.1, r.2, rfl, ?_⟩
    rw [hop] at h
    cases hret : isRet op with
    | true =>
      simp only [hret, if_true] at h
      cases h
      exact .inl ⟨rfl, rfl⟩
    | false =>
      refine .inr ⟨rfl, ?_⟩
      cases hops : translateOps r.2 ops with
      | error e => simp [hret, hops, bind, Except.bind] at h
      | ok rest =>
        simp only [hret, hops, bind, Except.bind, Bool.false_eq_true, if_false] at h
        cases h
        exact ⟨rest, rfl, rfl⟩

theorem isRet_op (h : isRet k.op = true) : k = .ret := by
  cases k with
  | binary o => cases o <;> cases h
  | compare cc => cases cc <;> cases h
  | ret => rfl
  | _ => cases h

theorem runIns_judge {ops : List Op} (h : NativeAt b r vals vars)
    (ht : translateOps b ops = .ok is) : (judge ops r).native (runIns is vals vars) := by
  induction ops generalizing b r vals vars is with
  | nil => cases ht
  | cons op ops ih =>
    obtain ⟨is₁, b', hop, hcases⟩ := translateOps_cons ht
    obtain ⟨k, hk⟩ := kindOf_of_translateOp hop
    obtain rfl := op_of_kindOf hk
    rw [judge_cons]
    cases hr : r.step k with
    | error v =>
      rcases hcases with ⟨-, rfl⟩ | ⟨-, rest, -, rfl⟩
      · rw [← append_nil is]
        exact native_error h hop hr []
      · exact native_error h hop hr rest
    | ok r' =>
      rcases hcases with ⟨hret, -⟩ | ⟨-, rest, hrest, rfl⟩
      · obtain rfl := isRet_op hret
        cases hr
      · obtain ⟨vals', vars', hall, hat, -⟩ := native_kind h hop hr
        rw [runIns_stepAll hall]
        exact ih hat hrest

end Arth.Jit
