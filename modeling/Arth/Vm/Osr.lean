import Arth.Lib.Runs
import Arth.Vm.Interpreted

/-!
# On-stack replacement

`jit.rs`, `compile_osr` to `call_osr`: the instructions from the header of a loop to its back
edge become one native function of the locals.

* `compileOsr` — the translation. All ways out of the loop lead to one block, which returns one
  number; code that goes on behind a jump does not end its block and is refused.
* `nativeTurn` — the native code from the header to the next jump to it.
* `Loop.Straight` — when the jumps of the code go where those of the bytecode go
  (`jumpsRight_iff`).
* `readPass` — a pass through the loop, read off the bytecode; `native_pass` — what it says about
  the native code.
-/

namespace Arth.Jit

open List Option

/-- A loop as `register_loop` is told it. -/
structure Loop (p : Program) where
  header : UInt32
  backEdge : UInt32
  localCount : UInt32
  header_le : header.toNat ≤ backEdge.toNat
  backEdge_lt : backEdge.toNat < p.code.length

/-- `extract_loop_ops` -/
def extractLoopOps (p : Program) (header backEdge : UInt32) : Except JitError (List Op) :=
  match (p.code.take (backEdge.toNat + 1)).drop header.toNat with
  | [] => .error (.codegen "Empty loop body")
  | ops => .ok ops

inductive Block where
  | loopBlock | exitBlock
  deriving DecidableEq

/-- The instructions of the loop block and of the blocks that continue it. A jump has the number
of its bytecode instruction in the loop; `branch` goes on in a new block if the value is not 0. -/
inductive LoopIns where
  | ins (i : Ins)
  | branch (n a : Nat) (otherwise : Block)
  | brif (n a : Nat) (yes no : Block)
  | jump (n : Nat) (dest : Block)
  deriving DecidableEq

/-- The instructions `translate_osr_loop` knows besides the jumps. -/
def isLoopOp : Op → Bool
  | .pushI64 _ | .pushBool _ | .addI64 | .subI64 | .mulI64 | .divI64 | .modI64 | .ltI64 | .eqI64
  | .localGet _ | .localSet _ | .pop => true
  | _ => false

def translateLoopOp (header : UInt32) (n : Nat) (isLast : Bool) (b : Builder) :
    Op → Except JitError (List LoopIns × Builder)
  | .jump tgt => .ok ([.jump n (if tgt = header then .loopBlock else .exitBlock)], b)
  | .jumpIfFalse tgt =>
    match b.stack with
    | [] => .error stackUnderflow
    | cond :: st =>
      -- at the back edge a true condition continues the loop, elsewhere it goes on behind the jump
      let i : LoopIns :=
        if isLast then .brif n cond .loopBlock .exitBlock
        else .branch n cond (if tgt ≤ header then .loopBlock else .exitBlock)
      .ok ([i], { b with stack := st })
  | op =>
    if isLoopOp op then (translateOp b op).map fun r => (r.1.map .ins, r.2)
    else .error (.unsupportedOpcode op)

def translateLoopOps (header : UInt32) : Nat → Builder → List Op →
    Except JitError (List LoopIns × Builder)
  | _, b, [] => .ok ([], b)
  | n, b, op :: ops => do
    let (is, b') ← translateLoopOp header n ops.isEmpty b op
    let (rest, b'') ← translateLoopOps header (n + 1) b' ops
    .ok (is ++ rest, b'')

/-- Only the last instruction ends a block without opening the next one. -/
def terminated : List LoopIns → Bool
  | [.jump _ _] => true
  | [.brif _ _ _ _] => true
  | .ins _ :: is => terminated is
  | .branch _ _ _ :: is => terminated is
  | _ => false

structure OsrCode where
  params : UInt32
  body : List LoopIns
  /-- What the exit block returns: the operand on top behind the last instruction, else 0. -/
  result : Option Nat
  deriving DecidableEq

/-- `compile_osr` of a registered loop that has no code yet. -/
def compileOsr (p : Program) (header backEdge localCount : UInt32) : Except JitError OsrCode := do
  let ops ← extractLoopOps p header backEdge
  let (body, b) ←
    translateLoopOps (backEdge - (.ofNat ops.length - 1)) 0 (entryBlock localCount) ops
  if terminated body then .ok ⟨localCount, body, b.stack.head?⟩ else .error .unterminated

/-! ## Native code -/

inductive PassEnd where
  | again (vars : UInt32 → Int64)
  | exit (n : Nat) (vals : List Int64)
  | trap

def PassEnd.goTo (n : Nat) (vals : List Int64) (vars : UInt32 → Int64) : Block → PassEnd
  | .loopBlock => .again vars
  | .exitBlock => .exit n vals

/-- The loop block from one instruction on. -/
def runPass : List LoopIns → List Int64 → (UInt32 → Int64) → PassEnd
  | [], _, _ => .trap
  | .ins i :: is, vals, vars =>
    match stepIns vals vars i with
    | some (vals', vars') => runPass is vals' vars'
    | none => .trap
  | .branch n a otherwise :: is, vals, vars =>
    if vals.getD a 0 ≠ 0 then runPass is vals vars else .goTo n vals vars otherwise
  | .brif n a yes no :: _, vals, vars =>
    .goTo n vals vars (if vals.getD a 0 ≠ 0 then yes else no)
  | .jump n dest :: _, vals, vars => .goTo n vals vars dest

/-- How a call of the native loop ends: it returns from the jump numbered `n`, or traps. -/
inductive NativeExit where
  | returned (n : Nat) (v : Int64)
  | trap

def nativeTurn (c : OsrCode) (args : List Int64) (vars : UInt32 → Int64) :
    (UInt32 → Int64) ⊕ NativeExit :=
  match runPass c.body args vars with
  | .again vars' => .inl vars'
  | .exit n vals => .inr (.returned n ((c.result.map (vals.getD · 0)).getD 0))
  | .trap => .inr .trap

/-- `call_osr` of a compiled loop: the code it runs, and on what. The locals are handed over by
value, and all that comes back is the number the code returns. -/
def callOsr (localCount : UInt32) (c : OsrCode) (locals : List Int64) :
    Except JitError (OsrCode × List Int64) :=
  if locals.length ≠ localCount.toNat then
    .error (.codegen s!"Expected {localCount.toNat} locals, got {locals.length}")
  else if locals.length ≤ 8 then .ok (c, locals)
  else .error (.codegen s!"Too many locals for OSR: {locals.length} (max 8)")

/-- The instructions from the header to the back edge. -/
def Loop.ops {p : Program} (lp : Loop p) : List Op :=
  (p.code.take (lp.backEdge.toNat + 1)).drop lp.header.toNat

variable {header tgt : UInt32} {n : Nat}

section Compiled

variable {p : Program} {lp : Loop p} {c : OsrCode} {b b' : Builder} {op : Op} {ops : List Op}
  {is : List LoopIns} {n : Nat}

theorem Loop.length_ops (lp : Loop p) :
    lp.ops.length = lp.backEdge.toNat + 1 - lp.header.toNat := by
  have hlt := lp.backEdge_lt
  rw [Loop.ops, length_drop, length_take]
  omega

theorem Loop.getElem?_ops (lp : Loop p) {op : Op} (h : lp.ops[n]? = some op) :
    p.code[lp.header.toNat + n]? = some op := by
  have hlt := (List.getElem?_eq_some_iff.1 h).1
  rw [lp.length_ops] at hlt
  rwa [Loop.ops, getElem?_drop, getElem?_take_of_lt (by omega)] at h

theorem Loop.header_eq (lp : Loop p) : lp.backEdge - (.ofNat lp.ops.length - 1) = lp.header := by
  have hle := lp.header_le
  have hlt := lp.backEdge.toNat_lt
  refine UInt32.toNat_inj.1 ?_
  rw [lp.length_ops, UInt32.toNat_sub, UInt32.toNat_sub, UInt32.toNat_ofNat', UInt32.toNat_one]
  omega

structure Loop.Compiled (lp : Loop p) (c : OsrCode) : Prop where
  body : ∃ b, translateLoopOps lp.header 0 (entryBlock lp.localCount) lp.ops = .ok (c.body, b)

theorem compiled_of_compileOsr
    (h : compileOsr p lp.header lp.backEdge lp.localCount = .ok c) : lp.Compiled c := by
  have hextract : extractLoopOps p lp.header lp.backEdge = .ok lp.ops := by
    have hlen := lp.length_ops
    have hle := lp.header_le
    unfold extractLoopOps Loop.ops at *
    split
    · rename_i hnil
      rw [hnil, length_nil] at hlen
      omega
    · rfl
  unfold compileOsr at h
  simp only [hextract, bind, Except.bind, lp.header_eq] at h
  split at h
  · cases h
  · rename_i r hr
    split at h
    · cases h
      exact ⟨r.2, hr⟩
    · cases h

/-- What the translation of one instruction comes to. -/
inductive LoopStep (header : UInt32) (n : Nat) (isLast : Bool) (b : Builder) :
    Op → List LoopIns → Builder → Prop
  | jump (tgt : UInt32) : LoopStep header n isLast b (.jump tgt)
      [.jump n (if tgt = header then .loopBlock else .exitBlock)] b
  | back (tgt : UInt32) {cond : Nat} {st : List Nat} (hst : b.stack = cond :: st)
      (hlast : isLast = true) : LoopStep header n isLast b (.jumpIfFalse tgt)
      [.brif n cond .loopBlock .exitBlock] { b with stack := st }
  | branch (tgt : UInt32) {cond : Nat} {st : List Nat} (hst : b.stack = cond :: st)
      (hlast : isLast = false) : LoopStep header n isLast b (.jumpIfFalse tgt)
      [.branch n cond (if tgt ≤ header then .loopBlock else .exitBlock)] { b with stack := st }
  | other {k : Kind} {is : List Ins} {b' : Builder} (ht : translateOp b k.op = .ok (is, b'))
      (hk : isLoopOp k.op = true) : LoopStep header n isLast b k.op (is.map .ins) b'

theorem loopStep_of_translate {isLast : Bool}
    (h : translateLoopOp header n isLast b op = .ok (is, b')) :
    LoopStep header n isLast b op is b' := by
  unfold translateLoopOp at h
  split at h
  · cases h
    exact .jump _
  · rename_i tgt
    split at h
    · cases h
    · rename_i cond st hst
      cases isLast with
      | true =>
        cases h
        exact .back tgt hst rfl
      | false =>
        cases h
        exact .branch tgt hst rfl
  · split at h
    · rename_i hk
      cases ht : translateOp b op with
      | error e =>
        rw [ht] at h
        cases h
      | ok r =>
        rw [ht] at h
        cases h
        obtain ⟨k, hkind⟩ := kindOf_of_translateOp ht
        obtain rfl := op_of_kindOf hkind
        exact .other ht hk
    · cases h

theorem translateLoopOps_cons (h : translateLoopOps header n b (op :: ops) = .ok (is, b')) :
    ∃ is₁ b₁ rest, LoopStep header n ops.isEmpty b op is₁ b₁ ∧
      translateLoopOps header (n + 1) b₁ ops = .ok (rest, b') ∧ is = is₁ ++ rest := by
  rw [translateLoopOps] at h
  cases hop : translateLoopOp header n ops.isEmpty b op with
  | error e => simp [hop, bind, Except.bind] at h
  | ok r =>
    cases hops : translateLoopOps header (n + 1) r.2 ops with
    | error e => simp [hop, hops, bind, Except.bind] at h
    | ok q =>
      simp only [hop, hops, bind, Except.bind, Except.ok.injEq, Prod.mk.injEq] at h
      obtain ⟨rfl, rfl⟩ := h
      exact ⟨r.1, r.2, q.1, loopStep_of_translate hop, hops, rfl⟩

/-! ## Where the jumps go -/

def Loop.Inside (lp : Loop p) (t : Nat) : Prop := lp.header.toNat ≤ t ∧ t ≤ lp.backEdge.toNat

instance (lp : Loop p) (t : Nat) : Decidable (lp.Inside t) :=
  inferInstanceAs (Decidable (_ ∧ _))

/-- The block of a place in the bytecode; a place behind the header has none. -/
def Loop.blockAt (lp : Loop p) (t : Nat) : Option Block :=
  if t = lp.header.toNat then some .loopBlock
  else if lp.Inside t then none
  else some .exitBlock

/-- The bytecode target of a jump. -/
def Loop.target (lp : Loop p) (n : Nat) : Option Nat :=
  match lp.ops[n]? with
  | some (.jump tgt) => some tgt.toNat
  | some (.jumpIfFalse tgt) => some tgt.toNat
  | _ => none

/-- A jump of the code goes to the block of its bytecode target. A condition that holds goes on
behind the jump. -/
def LoopIns.Right (lp : Loop p) : LoopIns → Prop
  | .ins _ => True
  | .branch n _ otherwise => (lp.target n).bind lp.blockAt = some otherwise
  | .brif n _ yes no =>
    lp.blockAt (lp.header.toNat + n + 1) = some yes ∧ (lp.target n).bind lp.blockAt = some no
  | .jump n dest => (lp.target n).bind lp.blockAt = some dest

def JumpsRight (lp : Loop p) (c : OsrCode) : Prop := ∀ i ∈ c.body, i.Right lp

/-- Every jump goes to the header or out of the loop, a conditional one only forwards, and the
back edge is not conditional. -/
def Loop.StraightAt (lp : Loop p) (n : Nat) : Op → Prop
  | .jump tgt => tgt = lp.header ∨ ¬ lp.Inside tgt.toNat
  | .jumpIfFalse tgt =>
    n + 1 < lp.ops.length ∧ (tgt = lp.header ∨ lp.backEdge.toNat < tgt.toNat)
  | _ => True

def Loop.Straight (lp : Loop p) : Prop := ∀ n op, lp.ops[n]? = some op → lp.StraightAt n op

theorem Loop.blockAt_tgt (lp : Loop p) (tgt : UInt32) : lp.blockAt tgt.toNat =
    if tgt = lp.header then some .loopBlock
    else if lp.Inside tgt.toNat then none else some .exitBlock := by
  unfold Loop.blockAt
  simp only [UInt32.toNat_inj]

theorem LoopStep.right_iff (h : LoopStep lp.header n ops.isEmpty b op is b')
    (hops : lp.ops.drop n = op :: ops) : (∀ i ∈ is, i.Right lp) ↔ lp.StraightAt n op := by
  have hget : lp.ops[n]? = some op := by
    rw [← head?_drop, hops]
    rfl
  have hlen : n + 1 + ops.length = lp.ops.length := by
    have hdrop := congrArg length hops
    rw [length_drop, length_cons] at hdrop
    omega
  have hback := lp.length_ops
  have hle := lp.header_le
  cases h with
  | jump tgt =>
    simp only [forall_mem_singleton, LoopIns.Right, Loop.target, hget, bind_some,
      lp.blockAt_tgt, Loop.StraightAt]
    by_cases ht : tgt = lp.header
    · simp [ht]
    · by_cases hin : lp.Inside tgt.toNat <;> simp [ht, hin]
  | back tgt hst hlast =>
    have hnil : ops = [] := isEmpty_iff.1 hlast
    subst hnil
    -- behind the back edge lies the way out, and the code goes to the header
    have hout : lp.blockAt (lp.header.toNat + n + 1) = some .exitBlock := by
      rw [length_nil] at hlen
      have hbehind : ¬ lp.Inside (lp.header.toNat + n + 1) := by
        unfold Loop.Inside
        omega
      unfold Loop.blockAt
      rw [if_neg (by omega), if_neg hbehind]
    have hno : ¬ n + 1 < lp.ops.length := by
      rw [length_nil] at hlen
      omega
    simp only [forall_mem_singleton, LoopIns.Right, hout, Loop.StraightAt, hno, false_and,
      iff_false]
    rintro ⟨heq, -⟩
    cases heq
  | branch tgt hst hlast =>
    have hne : 0 < ops.length := by
      rw [length_pos_iff]
      rintro rfl
      cases hlast
    have hlt : n + 1 < lp.ops.length := by omega
    simp only [forall_mem_singleton, LoopIns.Right, Loop.target, hget, bind_some,
      lp.blockAt_tgt, Loop.StraightAt, hlt, true_and]
    by_cases ht : tgt = lp.header
    · simp [ht]
    · have hne' : tgt.toNat ≠ lp.header.toNat := fun heq => ht (UInt32.toNat_inj.1 heq)
      rw [if_neg ht, or_iff_right ht]
      by_cases hle' : tgt ≤ lp.header
      · have hlow := UInt32.le_iff_toNat_le.1 hle'
        have hout : ¬ lp.Inside tgt.toNat := fun hin => by
          have := hin.1
          omega
        rw [if_neg hout, if_pos hle']
        simp only [some.injEq, reduceCtorEq, false_iff]
        omega
      · have hhigh := mt UInt32.le_iff_toNat_le.2 hle'
        rw [if_neg hle']
        by_cases hin : lp.Inside tgt.toNat
        · have := hin.2
          rw [if_pos hin]
          simp only [reduceCtorEq, false_iff]
          omega
        · have hfar : lp.backEdge.toNat < tgt.toNat := by
            unfold Loop.Inside at hin
            omega
          rw [if_neg hin]
          simp [hfar]
  | other ht hk =>
    rename_i k is₁
    have hright : ∀ i ∈ is₁.map LoopIns.ins, i.Right lp := by
      intro i hi
      obtain ⟨j, -, rfl⟩ := mem_map.1 hi
      trivial
    have hstraight : lp.StraightAt n k.op := by
      cases k with
      | binary o => cases o <;> trivial
      | compare cc => cases cc <;> trivial
      | _ => trivial
    exact iff_of_true hright hstraight

theorem jumpsRight_of_translate (hops : lp.ops.drop n = ops)
    (h : translateLoopOps lp.header n b ops = .ok (is, b')) :
    (∀ i ∈ is, i.Right lp) ↔ ∀ m op, lp.ops[m]? = some op → n ≤ m → lp.StraightAt m op := by
  induction ops generalizing n b is with
  | nil =>
    cases h
    have hshort := drop_eq_nil_iff.1 hops
    refine iff_of_true (by simp) fun m op hm hle => ?_
    have hlt := (List.getElem?_eq_some_iff.1 hm).1
    omega
  | cons op ops ih =>
    obtain ⟨is₁, b₁, rest, hstep, hrest, rfl⟩ := translateLoopOps_cons h
    have hnext : lp.ops.drop (n + 1) = ops := by
      rw [← tail_drop, hops]
      rfl
    have hget : lp.ops[n]? = some op := by
      rw [← head?_drop, hops]
      rfl
    rw [forall_mem_append, hstep.right_iff hops, ih hnext hrest]
    constructor
    · rintro ⟨hop, hlater⟩ m op' hm hle
      rcases Nat.eq_or_lt_of_le hle with rfl | hlt
      · rw [hget] at hm
        cases hm
        exact hop
      · exact hlater m op' hm hlt
    · intro hall
      exact ⟨hall n op hget le_rfl, fun m op' hm hle => hall m op' hm (by omega)⟩

/-- **The jumps** of the code go to their bytecode targets just when the loop is straight. -/
theorem jumpsRight_iff (h : lp.Compiled c) : JumpsRight lp c ↔ lp.Straight := by
  obtain ⟨b, hb⟩ := h.body
  have hiff := jumpsRight_of_translate rfl hb
  exact hiff.trans ⟨fun hall n op hn => hall n op hn (Nat.zero_le n), fun hall n op hn _ => hall n op hn⟩

end Compiled

/-- The locals at the header, or the place outside of the loop with the locals there; `none` if
an operation of the pass has no result in the interpreter or operands that the native code takes
for others. -/
abbrev PassReading : Type := (UInt32 → Slot) ⊕ Option (Nat × (UInt32 → Slot))

/-- A jump of a straight loop. -/
def readJump (header tgt : UInt32) (locals : UInt32 → Slot) : PassReading :=
  if tgt = header then .inl locals else .inr (some (tgt.toNat, locals))

def readPass (header : UInt32) : List Op → Reading → PassReading
  | [], _ => .inr none
  | .jump tgt :: _, r => readJump header tgt r.locals
  | .jumpIfFalse tgt :: ops, r =>
    match r.stack with
    | .flag c m :: st =>
      if c = decide (m ≠ 0) then
        if c then readPass header ops { r with stack := st } else readJump header tgt r.locals
      else .inr none
    | _ => .inr none
  | op :: ops, r =>
    match kindOf op with
    | some k =>
      match r.step k with
      | .ok r' => readPass header ops r'
      | .error _ => .inr none
    | none => .inr none

theorem readPass_kind (header : UInt32) (k : Kind) (ops : List Op) (r : Reading) :
    readPass header (k.op :: ops) r = match r.step k with
      | .ok r' => readPass header ops r'
      | .error _ => .inr none := by
  cases k with
  | binary o => cases o <;> rfl
  | compare cc => cases cc <;> rfl
  | _ => rfl

theorem readPass_branch {ops : List Op} {r : Reading}
    (h : readPass header (.jumpIfFalse tgt :: ops) r ≠ .inr none) :
    ∃ c m st, r.stack = .flag c m :: st ∧ c = decide (m ≠ 0) ∧
      readPass header (.jumpIfFalse tgt :: ops) r =
        if c then readPass header ops { r with stack := st } else readJump header tgt r.locals := by
  rw [readPass] at h ⊢
  split at h
  · rename_i c m st hst
    by_cases hc : c = decide (m ≠ 0)
    · exact ⟨c, m, st, hst, hc, if_pos hc⟩
    · rw [if_neg hc] at h
      exact absurd rfl h
  · exact absurd rfl h

/-! ## The native code of a pass -/

theorem runPass_ins {is : List Ins} {vals vals' : List Int64} {vars vars' : UInt32 → Int64}
    (h : stepAll is vals vars = some (vals', vars')) (rest : List LoopIns) :
    runPass (is.map .ins ++ rest) vals vars = runPass rest vals' vars' := by
  induction is generalizing vals vars with
  | nil =>
    cases h
    rfl
  | cons i is ih =>
    obtain ⟨q, hq, hall⟩ := bind_eq_some_iff.1 h
    rw [map_cons, cons_append, runPass, hq]
    exact ih hall

section Loops

variable {p : Program} {lp : Loop p} {c : OsrCode} {b b' : Builder} {r : Reading}
  {vals : List Int64} {vars : UInt32 → Int64} {locals : UInt32 → Slot}

/-- The variables of the native loop at the header. -/
def Carries (lp : Loop p) (vars : UInt32 → Int64) (locals : UInt32 → Slot) : Prop :=
  ∀ ix ∈ (entryBlock lp.localCount).locals, vars ix = (locals ix).native

/-- What the reading of a pass says about the native code of it. -/
def PassEnd.Reads (lp : Loop p) (e : PassEnd) : PassReading → Prop
  | .inl locals => ∃ vars, e = .again vars ∧ Carries lp vars locals
  | .inr (some (t, _)) => ∃ n vals, e = .exit n vals ∧ lp.target n = some t
  | .inr none => True

theorem reads_jump {dest : Block} (htarget : lp.target n = some tgt.toNat)
    (hright : (lp.target n).bind lp.blockAt = some dest)
    (hcarries : Carries lp vars locals) :
    (PassEnd.goTo n vals vars dest).Reads lp (readJump lp.header tgt locals) := by
  rw [htarget, bind_some, lp.blockAt_tgt] at hright
  unfold readJump
  split at hright
  · rename_i hheader
    cases hright
    rw [if_pos hheader]
    exact ⟨vars, rfl, hcarries⟩
  · rename_i hheader
    rw [if_neg hheader]
    split at hright
    · cases hright
    · cases hright
      exact ⟨n, vals, rfl, htarget⟩

theorem native_ops {ops : List Op} {is : List LoopIns} (hops : lp.ops.drop n = ops)
    (ht : translateLoopOps lp.header n b ops = .ok (is, b')) (hright : ∀ i ∈ is, i.Right lp)
    (h : NativeAt b r vals vars)
    (hentry : ∀ ix ∈ (entryBlock lp.localCount).locals, ix ∈ b.locals) :
    (runPass is vals vars).Reads lp (readPass lp.header ops r) := by
  induction ops generalizing n b is r vals vars with
  | nil => trivial
  | cons op ops ih =>
    obtain ⟨is₁, b₁, rest, hstep, hrest, rfl⟩ := translateLoopOps_cons ht
    have hnext : lp.ops.drop (n + 1) = ops := by
      rw [← tail_drop, hops]
      rfl
    have hget : lp.ops[n]? = some op := by
      rw [← head?_drop, hops]
      rfl
    have hfirst : ∀ i ∈ is₁, i.Right lp := fun i hi => hright i (mem_append_left _ hi)
    have hlater : ∀ i ∈ rest, i.Right lp := fun i hi => hright i (mem_append_right _ hi)
    obtain ⟨r₀, hrel, hstack, hlocals⟩ := id h
    have hcarries : Carries lp vars r.locals := fun ix hix => by
      rw [hrel.locals ix, hlocals ix (hentry ix hix)]
    cases hstep with
    | jump tgt =>
      have htarget : lp.target n = some tgt.toNat := by rw [Loop.target, hget]
      exact reads_jump htarget (hfirst _ mem_cons_self) hcarries
    | back tgt hst hlast =>
      -- the way out behind the back edge has no place in the code
      have hnil : ops = [] := isEmpty_iff.1 hlast
      have hdrop := congrArg length hops
      have hlen := lp.length_ops
      have hle := lp.header_le
      rw [hnil, length_drop, length_singleton] at hdrop
      have hyes := (hfirst _ mem_cons_self).1
      have hbehind : ¬ lp.Inside (lp.header.toNat + n + 1) := by
        unfold Loop.Inside
        omega
      unfold Loop.blockAt at hyes
      rw [if_neg (by omega), if_neg hbehind] at hyes
      cases hyes
    | branch tgt hst hlast =>
      rename_i cond st
      by_cases hsettled : readPass lp.header (.jumpIfFalse tgt :: ops) r = .inr none
      · rw [hsettled]
        trivial
      · obtain ⟨t, m, rs, hrs, ht', hread⟩ := readPass_branch hsettled
        have htarget : lp.target n = some tgt.toNat := by rw [Loop.target, hget]
        have hstack' := hrel.stack
        rw [hst, hstack, hrs] at hstack'
        simp only [map_cons, cons.injEq, Slot.native] at hstack'
        rw [hread, singleton_append, runPass, hstack'.1]
        by_cases hm : m = 0
        · have hfalse : t = false := by simp [ht', hm]
          simp only [hm, ne_eq, not_true_eq_false, if_false, hfalse, Bool.false_eq_true]
          exact reads_jump htarget (hfirst _ mem_cons_self) hcarries
        · have htrue : t = true := by simp [ht', hm]
          simp only [hm, ne_eq, not_false_eq_true, if_true, htrue]
          refine ih hnext hrest hlater ?_ hentry
          refine ⟨{ r₀ with stack := rs }, ⟨hrel.length, ?_, hstack'.2, hrel.locals⟩, rfl, hlocals⟩
          intro v hv
          exact hrel.lt v (by simp [hst, hv])
    | other ht' hk =>
      rename_i k is₀
      rw [readPass_kind]
      cases hr : r.step k with
      | error e => trivial
      | ok r' =>
        obtain ⟨vals', vars', hall, hat, hkeep⟩ := native_kind h ht' hr
        rw [runPass_ins hall]
        exact ih hnext hrest hlater hat fun ix hix => hkeep ix (hentry ix hix)

/-- **The native pass** of a loop whose jumps are right. -/
theorem native_pass (hc : lp.Compiled c) (hright : JumpsRight lp c) {args : List Int64}
    (hargs : args.length = lp.localCount.toNat)
    (hcarries : Carries lp vars locals) :
    (runPass c.body args vars).Reads lp (readPass lp.header lp.ops ⟨[], [], locals⟩) := by
  obtain ⟨b, hb⟩ := hc.body
  refine native_ops (n := 0) rfl hb hright ?_ fun ix hix => hix
  -- the locals without a variable are taken from the variables
  refine ⟨⟨[], [], fun ix =>
    if ix ∈ (entryBlock lp.localCount).locals then locals ix else .int (vars ix)⟩,
    ⟨hargs, by simp [entryBlock], rfl, fun ix => ?_⟩, rfl, fun ix hix => if_pos hix⟩
  by_cases hix : ix ∈ (entryBlock lp.localCount).locals
  · simp only [if_pos hix]
    exact hcarries ix hix
  · simp only [if_neg hix]
    rfl

end Loops

end Arth.Jit
