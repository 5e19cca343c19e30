import Arth.Vm.Interpreted
import Arth.Vm.Confinement

/-!
# Native calls against interpreted calls

* `scan_eq_iff` — when `Op::Call` passes as many arguments as the native code has parameters.
* `entry` — a call of a compiled function up to its body.
* `agrees_of_clean`, `clean_of_agrees` — the native code returns what the interpreter leaves
  when the reading of the body is an integer, and, for a body whose reading is settled, only
  then.
-/

namespace Arth.Jit

open List

variable {W : Type} {env : Env W} {p : Program} {offset : UInt32} {f : NativeFunction}

/-- The instructions of a function. -/
def instructions (p : Program) (offset : UInt32) : List Op :=
  functionOps (p.code.drop offset.toNat)

def paramCount (p : Program) (offset : UInt32) : UInt32 :=
  (instructions p offset).foldl countLocal 0

/-- The number of arguments the prologue pops. -/
def popped (p : Program) (offset : UInt32) : Nat :=
  prologueLength (instructions p offset) (paramCount p offset)

def body (p : Program) (offset : UInt32) : List Op :=
  (instructions p offset).drop (popped p offset)

/-- What a successful compilation says. -/
structure Compiled (p : Program) (offset : UInt32) (f : NativeFunction) : Prop where
  params : f.params = paramCount p offset
  body : translateOps (entryBlock (paramCount p offset)) (body p offset) = .ok f.body

theorem compiled_of_compile (h : compile p offset = .ok f) : Compiled p offset f := by
  unfold compile extractFunctionOps at h
  cases hops : functionOps (p.code.drop offset.toNat) with
  | nil =>
    rw [hops] at h
    cases h
  | cons op ops =>
    rw [hops] at h
    simp only [bind, Except.bind] at h
    split at h
    · cases h
    · rename_i is hbody
      cases h
      refine ⟨by simp [paramCount, instructions, hops], ?_⟩
      simpa [Jit.body, popped, paramCount, instructions, hops] using hbody

theorem functionOps_idem (l : List Op) : functionOps (functionOps l) = functionOps l := by
  induction l with
  | nil => rfl
  | cons op l ih =>
    by_cases h : isRet op = true
    · simp [functionOps, h]
    · simp [functionOps, h, ih]

variable {ops : List Op}

theorem functionOps_tail {op : Op} (h : functionOps (op :: ops) = op :: ops) :
    functionOps ops = ops := by
  rw [functionOps] at h
  split at h
  · obtain ⟨-, rfl⟩ := cons.inj h
    rfl
  · exact (cons.inj h).2

theorem functionOps_drop (h : functionOps ops = ops) (k : Nat) :
    functionOps (ops.drop k) = ops.drop k := by
  induction k generalizing ops with
  | zero => exact h
  | succ k ih =>
    cases ops with
    | nil => rfl
    | cons op ops => exact ih (functionOps_tail h)

theorem isSome_of_translateOps {b : Builder} {is : List Ins}
    (hops : functionOps ops = ops) (h : translateOps b ops = .ok is) :
    ∀ op ∈ ops, (kindOf op).isSome := by
  induction ops generalizing b is with
  | nil => simp
  | cons op ops ih =>
    obtain ⟨is₁, b', hop, hcases⟩ := translateOps_cons h
    obtain ⟨k, hk⟩ := kindOf_of_translateOp hop
    intro op' hop'
    rcases mem_cons.1 hop' with rfl | hmem
    · rw [hk]
      rfl
    · rcases hcases with ⟨hret, -⟩ | ⟨-, rest, hrest, -⟩
      · -- nothing follows a return
        rw [functionOps, if_pos hret] at hops
        obtain rfl := (cons.inj hops).2
        cases hmem
      · exact ih (functionOps_tail hops) hrest op' hmem

theorem isSome_of_skipped (ops : List Op) (m : Nat) :
    ∀ op ∈ ops.take (skipCount ops m), (kindOf op).isSome := by
  induction ops generalizing m with
  | nil => simp
  | cons op ops ih =>
    by_cases hset : ∃ ix, op = .localSet ix
    · obtain ⟨ix, rfl⟩ := hset
      cases m with
      | zero => simp [skipCount_zero]
      | succ m =>
        rw [skipCount_set]
        split
        · intro op' hop'
          rcases mem_cons.1 hop' with rfl | hmem
          · rfl
          · exact ih m op' hmem
        · simp
    · rw [skipCount_other fun ix he => hset ⟨ix, he⟩]
      simp

theorem Compiled.isSome (h : Compiled p offset f) :
    ∀ op ∈ instructions p offset, (kindOf op).isSome := by
  intro op hop
  rw [← take_append_drop (popped p offset) (instructions p offset), mem_append] at hop
  rcases hop with hop | hop
  · exact isSome_of_skipped _ _ op hop
  · exact isSome_of_translateOps (functionOps_drop (functionOps_idem _) _) h.body op hop

/-! ## The number of arguments -/

theorem functionOps_take (l : List Op) (n : Nat) :
    functionOps (l.take n) = (functionOps l).take n := by
  induction l generalizing n with
  | nil => simp [functionOps]
  | cons op l ih =>
    cases n with
    | zero => rfl
    | succ n =>
      by_cases h : isRet op = true
      · simp [functionOps, h]
      · simp [functionOps, h, ih]

theorem toNat_foldl_countLocal_le (ops : List Op) (n : UInt32) (N : Nat) :
    (ops.foldl countLocal n).toNat ≤ N ↔
      n.toNat ≤ N ∧ ∀ op ∈ ops, ∀ ix, localOf op = some ix → (ix + 1).toNat ≤ N := by
  induction ops generalizing n with
  | nil => simp
  | cons op ops ih =>
    rw [foldl_cons, ih]
    unfold countLocal
    cases hop : localOf op with
    | none => simp [hop]
    | some ix =>
      have hmax : (max n (ix + 1)).toNat = max n.toNat (ix + 1).toNat := by
        change (if n ≤ ix + 1 then ix + 1 else n).toNat = _
        have hle := UInt32.le_iff_toNat_le (a := n) (b := ix + 1)
        split
        · have := hle.1 ‹_›
          omega
        · have := mt hle.2 ‹_›
          omega
      simp only [hmax, max_le_iff, forall_mem_cons, hop, Option.some.injEq, forall_eq']
      tauto

theorem scan_cons (k : Kind) (l : List Op) (m : Int) :
    scanFunctionLocalCount.go offset (k.op :: l) m = if isRet k.op then m
      else scanFunctionLocalCount.go offset l
        ((localOf k.op).elim m fun ix => max m ix.toInt32.toInt) := by
  cases k with
  | binary o => cases o <;> rfl
  | compare cc => cases cc <;> rfl
  | _ => rfl

variable (offset) in
theorem scan_le {l : List Op} (hl : ∀ op ∈ functionOps l, (kindOf op).isSome) (m N : Int) :
    scanFunctionLocalCount.go offset l m ≤ N ↔
      m ≤ N ∧ ∀ op ∈ functionOps l, ∀ ix, localOf op = some ix → ix.toInt32.toInt ≤ N := by
  induction l generalizing m with
  | nil =>
    have hnil : scanFunctionLocalCount.go offset [] m = m := rfl
    simp [hnil, functionOps]
  | cons op l ih =>
    obtain ⟨k, hk⟩ : ∃ k, kindOf op = some k := by
      have hop : op ∈ functionOps (op :: l) := by
        rw [functionOps]
        split <;> simp
      exact Option.isSome_iff_exists.1 (hl op hop)
    obtain rfl := op_of_kindOf hk
    rw [scan_cons]
    rw [functionOps] at hl ⊢
    by_cases hret : isRet k.op = true
    · obtain rfl := isRet_op hret
      simp [isRet, localOf, Kind.op]
    · simp only [if_neg hret] at hl ⊢
      rw [ih fun op hop => hl op (mem_cons_of_mem _ hop)]
      cases hloc : localOf k.op with
      | none => simp [hloc]
      | some ix =>
        simp only [Option.elim, max_le_iff, forall_mem_cons, hloc, Option.some.injEq, forall_eq']
        tauto

theorem toInt_toInt32 (ix : UInt32) :
    ix.toInt32.toInt = if ix.toNat < 2 ^ 31 then (ix.toNat : Int) else ix.toNat - 2 ^ 32 := by
  have h : ix.toInt32.toInt = ix.toBitVec.toInt := rfl
  rw [h, BitVec.toInt_eq_toNat_cond]
  simp only [UInt32.toNat_toBitVec]
  split <;> split <;> omega

theorem toNat_succ {ix : UInt32} (h : ix + 1 ≠ 0) : (ix + 1).toNat = ix.toNat + 1 := by
  have hlt : ix.toNat + 1 < 2 ^ 32 := by
    have h1 : ix.toNat < 2 ^ 32 := ix.toNat_lt
    have h2 : ix.toNat + 1 ≠ 2 ^ 32 := by
      intro he
      refine h (UInt32.toNat_inj.1 ?_)
      rw [UInt32.toNat_add, UInt32.toNat_one, he]
      rfl
    omega
  rw [UInt32.toNat_add, UInt32.toNat_one, Nat.mod_eq_of_lt hlt]

/-- The highest local of the function is among its first 10001 instructions and below
`2 ^ 31`. -/
def CountsAlike (p : Program) (offset : UInt32) : Prop :=
  ∀ op ∈ instructions p offset, ∀ ix, localOf op = some ix → ix + 1 ≠ 0 →
    ∃ op' ∈ (instructions p offset).take 10001, ∃ jx, localOf op' = some jx ∧
      jx.toNat < 2 ^ 31 ∧ ix.toNat ≤ jx.toNat

theorem jitArgCount_le (h : Compiled p offset f) (N : Nat) :
    jitArgCount p offset ≤ N ↔ ∀ op ∈ (instructions p offset).take 10001, ∀ ix,
      localOf op = some ix → ix.toInt32.toInt < N := by
  have hl : ∀ op ∈ functionOps ((p.code.drop offset.toNat).take 10001), (kindOf op).isSome := by
    rw [functionOps_take]
    exact fun op hop => h.isSome op (mem_of_mem_take hop)
  have hscan := scan_le offset hl (-1) (N - 1)
  rw [functionOps_take] at hscan
  unfold jitArgCount scanFunctionLocalCount
  constructor
  · intro hle op hop ix hix
    have := (hscan.1 (by omega)).2 op hop ix hix
    omega
  · intro hall
    have := hscan.2 ⟨by omega, fun op hop ix hix => by have := hall op hop ix hix; omega⟩
    omega

/-- **Arguments against parameters.** -/
theorem scan_eq_iff (h : Compiled p offset f) :
    jitArgCount p offset = f.params.toNat ↔ CountsAlike p offset := by
  have hparams (N : Nat) := toNat_foldl_countLocal_le (instructions p offset) 0 N
  rw [h.params]
  unfold paramCount
  have hpassed : jitArgCount p offset ≤ ((instructions p offset).foldl countLocal 0).toNat := by
    rw [jitArgCount_le h]
    intro op hop ix hix
    have hle := ((hparams _).1 le_rfl).2 op (mem_of_mem_take hop) ix hix
    have hlt := ix.toNat_lt
    rw [toInt_toInt32]
    split
    · have hne : ix + 1 ≠ 0 := by
        intro h0
        have := congrArg UInt32.toNat h0
        simp at this
        omega
      rw [toNat_succ hne] at hle
      omega
    · omega
  constructor
  · intro heq op hop ix hix hne
    by_contra hnone
    have hle : jitArgCount p offset ≤ ix.toNat := by
      rw [jitArgCount_le h]
      intro op' hop' jx hjx
      have hno : ¬(jx.toNat < 2 ^ 31 ∧ ix.toNat ≤ jx.toNat) :=
        fun hj => hnone ⟨op', hop', jx, hjx, hj⟩
      have hlt := jx.toNat_lt
      rw [toInt_toInt32]
      split <;> omega
    have hge := ((hparams _).1 le_rfl).2 op hop ix hix
    rw [toNat_succ hne] at hge
    omega
  · intro hall
    refine le_antisymm hpassed ((hparams _).2 ⟨by simp, fun op hop ix hix => ?_⟩)
    by_cases hne : ix + 1 = 0
    · simp [hne]
    · obtain ⟨op', hop', jx, hjx, hlt, hle⟩ := hall op hop ix hix hne
      have := ((jitArgCount_le h _).1 le_rfl) op' hop' jx hjx
      rw [toInt_toInt32, if_pos hlt] at this
      rw [toNat_succ hne]
      omega

/-! ## The call up to the body -/

theorem scanOp_kind (set : List UInt32) (k : Kind) : (∃ r, scanOp set k.op = .ends r ∧ r ≠ .loops) ∨
      isRet k.op = false ∧ ∃ set', scanOp set k.op = .on set' := by
  cases k with
  | binary o => cases o <;> exact .inr ⟨rfl, _, rfl⟩
  | compare cc => cases cc <;> exact .inr ⟨rfl, _, rfl⟩
  | get ix =>
    by_cases h : ix ∈ set
    · exact .inr ⟨rfl, set, if_pos h⟩
    · exact .inl ⟨.found ix, if_neg h, by simp⟩
  | ret => exact .inl ⟨.absent, rfl, by simp⟩
  | _ => exact .inr ⟨rfl, _, rfl⟩

theorem findFirstLocalGet_go_ne_loops (ops : List Op) {ip fuel : Nat} {set : List UInt32}
    (hops : functionOps (p.code.drop ip) = ops) (hsome : ∀ op ∈ ops, (kindOf op).isSome)
    (hfuel : ops.length < fuel) : findFirstLocalGet.go p offset fuel ip set ≠ .loops := by
  induction ops generalizing ip fuel set with
  | nil =>
    obtain ⟨fuel, rfl⟩ := Nat.exists_eq_succ_of_ne_zero (n := fuel) (by omega)
    have hnone : p.code[ip]? = none := by
      rw [← head?_drop]
      cases hd : p.code.drop ip with
      | nil => rfl
      | cons op l =>
        rw [hd, functionOps] at hops
        split at hops <;> cases hops
    rw [findFirstLocalGet.go, hnone]
    simp
  | cons op ops ih =>
    obtain ⟨fuel, rfl⟩ := Nat.exists_eq_succ_of_ne_zero (n := fuel) (by simp at hfuel; omega)
    obtain ⟨hget, hnext⟩ := functionOps_cons hops
    obtain ⟨k, hk⟩ := Option.isSome_iff_exists.1 (hsome op mem_cons_self)
    obtain rfl := op_of_kindOf hk
    rw [findFirstLocalGet.go, hget]
    rcases scanOp_kind set k with ⟨r, hr, hne⟩ | ⟨hret, set', hset⟩
    · simpa only [hr] using hne
    · simp only [hset]
      split
      · simp
      · exact ih (hnext hret) (fun op hop => hsome op (mem_cons_of_mem _ hop))
          (by simpa using hfuel)

theorem length_functionOps_le (l : List Op) : (functionOps l).length ≤ l.length := by
  induction l with
  | nil => simp [functionOps]
  | cons op l ih =>
    rw [functionOps]
    split <;> simp
    exact ih

theorem length_instructions_le (p : Program) (offset : UInt32) :
    (instructions p offset).length ≤ p.code.length := by
  have hlen := length_functionOps_le (p.code.drop offset.toNat)
  rw [length_drop] at hlen
  exact hlen.trans (Nat.sub_le _ _)

theorem Compiled.finds (h : Compiled p offset f) : findFirstLocalGet p offset ≠ .loops := by
  refine findFirstLocalGet_go_ne_loops (instructions p offset) rfl h.isSome ?_
  have hlen := length_instructions_le p offset
  have hself := Nat.le_mul_self (p.code.length + 1)
  omega

/-- The reading of a body starts with the arguments as locals. -/
def start (p : Program) (offset : UInt32) (args : List Int64) : Reading :=
  ⟨[], leftArgs p offset (popped p offset) args, fun ix => .int (paramVars args ix)⟩

def verdict (p : Program) (offset : UInt32) (args : List Int64) : Verdict :=
  judge (body p offset) (start p offset args)

/-- Every local the body reads first holds in the interpreter the argument it is in the
native code. -/
def Bound (p : Program) (offset : UInt32) (args : List Int64) : Prop :=
  ∀ ix, ReadsFirst (body p offset) ix →
    heldLocal p offset (popped p offset) args ix = paramVars args ix

theorem popped_eq (p : Program) (offset : UInt32) :
    popped p offset = skipCount (instructions p offset) (paramCount p offset).toNat := by
  unfold popped prologueLength
  cases hn : (paramCount p offset).toNat with
  | succ n => rfl
  | zero =>
    -- without locals there is nothing to store to
    rw [skipCount_zero]
    cases hops : instructions p offset with
    | nil => rfl
    | cons op ops =>
      by_cases hset : ∃ ix, op = .localSet ix
      · obtain ⟨ix, rfl⟩ := hset
        have hle := ((toNat_foldl_countLocal_le (instructions p offset) 0 0).1 (by
          rw [← hn]
          rfl)).2 (.localSet ix) (by simp [hops]) ix rfl
        rw [Nat.zero_add, skipCount_set, if_neg]
        intro hix
        rw [UInt32.toNat_add, hix] at hle
        simp at hle
      · exact skipCount_other (fun ix he => hset ⟨ix, he⟩) ops _

theorem skipCount_le (ops : List Op) (m : Nat) : skipCount ops m ≤ ops.length := by
  induction ops generalizing m with
  | nil => exact le_rfl
  | cons op ops ih =>
    by_cases hset : ∃ ix, op = .localSet ix
    · obtain ⟨ix, rfl⟩ := hset
      cases m with
      | zero => simp [skipCount_zero]
      | succ m =>
        rw [skipCount_set, length_cons]
        have := ih m
        split <;> omega
    · rw [skipCount_other fun ix he => hset ⟨ix, he⟩]
      exact Nat.zero_le _

variable {f : NativeFunction} {s : State W} {args : List Int64} {rest : List Value}

/-- A call of a compiled function up to its body. -/
def ReachesBody (env : Env W) (offset : UInt32) (args : List Int64) (rest : List Value)
    (s : State W) : Prop :=
  ∃ s' junk fuel, interpretCall env offset s = runUntilReturn env s.retStack.length fuel s' ∧
    (body env.program offset).length ≤ fuel ∧
    functionOps (env.program.code.drop s'.ip) = body env.program offset ∧
    s'.retStack = (s.ip + 1) :: s.retStack ∧ (rest = [] → junk = []) ∧
    Running s' (start env.program offset args) (ReadsFirst (body env.program offset)) junk

theorem reachesBody_prologue (hargs : args.length = (paramCount env.program offset).toNat)
    (hcount : args.length = scanFunctionLocalCount env.program offset)
    (hset : isLocalSet env.program.code[offset.toNat]? = true)
    (hstack : s.stack = args.reverse.map Value.i64 ++ rest) (hbound : Bound env.program offset args) :
    ReachesBody env offset args rest s := by
  set s₀ := s.enter (replicate args.length none) offset.toNat with hs₀
  have hcall : callOp env offset s = .next s₀ := by
    rw [callOp_prologue hset, ← hcount]
  have hload : Loading env args rest args.length (instructions env.program offset) s₀ := by
    refine ⟨rfl, by simpa [hs₀, State.enter] using hstack, _, _, rfl, fun ix => ?_⟩
    rw [readLocal_replicate]
    split
    · rw [getD_eq_default _ _ ‹_›]
    · rfl
  have hpopped : skipCount (instructions env.program offset) args.length =
      popped env.program offset := by
    rw [popped_eq, hargs]
  obtain ⟨s', hrun, hret, hload'⟩ := hload.prologue s.retStack.length le_rfl
    (by simp [hs₀, State.enter]) (env.program.code.length + 1 - popped env.program offset)
  rw [hpopped] at hrun hload'
  have hlen := length_instructions_le env.program offset
  have hskip : popped env.program offset ≤ (instructions env.program offset).length := by
    exact skipCount_le _ _
  refine ⟨s', rest, env.program.code.length + 1 - popped env.program offset, ?_, ?_, hload'.code,
    hret, id, ?_, ?_⟩
  · unfold interpretCall
    rw [hcall]
    rw [← hrun, Nat.sub_add_cancel (by omega)]
  · unfold body
    rw [length_drop]
    omega
  · rw [hload'.stack]
    simp only [start, leftArgs, if_pos hset, map_nil, nil_append]
  · obtain ⟨f, fs, hf, hread⟩ := hload'.locals
    refine ⟨f, fs, hf, fun ix hix => ?_⟩
    rw [hread ix]
    have hheld := hbound ix hix
    simp only [heldLocal, if_pos hset] at hheld
    simp only [start, Slot.value, ← hheld, Nat.sub_le_iff_le_add]

theorem popped_of_not_set (hset : isLocalSet p.code[offset.toNat]? = false) :
    popped p offset = 0 := by
  rw [popped_eq]
  cases hops : instructions p offset with
  | nil => rfl
  | cons op ops =>
    refine skipCount_other (fun ix he => ?_) ops _
    rw [(functionOps_cons hops).1, he] at hset
    cases hset

theorem callOp_takes (h : Compiled env.program offset f)
    (hset : isLocalSet env.program.code[offset.toNat]? = false) {v : Value} {st : List Value}
    (hstack : s.stack = v :: st) : callOp env offset s = .next ({ s with stack := st }.enter
      ((replicate (scanFunctionLocalCount env.program offset) none).set
        (targetLocal env.program offset) (some v)) offset.toNat) := by
  rw [callOp_bare hset hstack, if_neg h.finds]

theorem readLocal_set (n t : Nat) (v : Value) (ix : UInt32) :
    readLocal ((replicate n none).set t (some v)) ix =
      if ix.toNat = t ∧ ix.toNat < n then v else .i64 0 := by
  unfold readLocal
  by_cases ht : ix.toNat = t
  · by_cases hn : ix.toNat < n
    · rw [if_pos ⟨ht, hn⟩, ← ht, getElem?_set_self (by simpa using hn)]
      rfl
    · rw [if_neg (fun h => hn h.2), getElem?_eq_none (by simpa using hn)]
      rfl
  · rw [if_neg (fun h => ht h.1), getElem?_set_ne (fun h => ht h.symm), getElem?_replicate]
    split <;> rfl

theorem reachesBody_bare (h : Compiled env.program offset f)
    (hcount : args.length = scanFunctionLocalCount env.program offset)
    (hset : isLocalSet env.program.code[offset.toNat]? = false)
    (hstack : s.stack = args.reverse.map Value.i64 ++ rest) (hbound : Bound env.program offset args) :
    ReachesBody env offset args rest s := by
  have hbody : body env.program offset = instructions env.program offset := by
    rw [body, popped_of_not_set hset, drop_zero]
  have hreach {s₀ : State W} (junk : List Value) (hcall : callOp env offset s = .next s₀)
      (hip : s₀.ip = offset.toNat) (hret : s₀.retStack = (s.ip + 1) :: s.retStack)
      (hjunk : rest = [] → junk = [])
      (hrunning : Running s₀ (start env.program offset args)
        (ReadsFirst (body env.program offset)) junk) : ReachesBody env offset args rest s := by
    refine ⟨s₀, junk, env.program.code.length + 1, ?_, ?_, ?_, hret, hjunk, hrunning⟩
    · unfold interpretCall
      rw [hcall]
    · rw [hbody]
      have := length_instructions_le env.program offset
      omega
    · rw [hbody, hip]
      rfl
  have hlocals {t : Nat} {v : Value} (hv : args ≠ [] → v = .i64 (args.getLastD 0))
      (ht : t = targetLocal env.program offset) (ix : UInt32)
      (hix : ReadsFirst (body env.program offset) ix) :
      readLocal ((replicate args.length none).set t (some v)) ix = .i64 (paramVars args ix) := by
    rw [readLocal_set, ht, ← hbound ix hix]
    simp only [heldLocal, hset, Bool.false_eq_true, if_false]
    by_cases hheld : ix.toNat = targetLocal env.program offset ∧ ix.toNat < args.length
    · have hne : args ≠ [] := by
        rintro rfl
        simp at hheld
      rw [if_pos hheld, if_pos hheld, hv hne]
    · rw [if_neg hheld, if_neg hheld]
  have hleft : (start env.program offset args).below = args.dropLast.reverse := by
    simp [start, leftArgs, hset]
  rcases eq_nil_or_concat args with rfl | ⟨l, x, hargs⟩
  · cases rest with
    | nil =>
      have hcall : callOp env offset s = .next (s.enter (replicate 0 none) offset.toNat) := by
        unfold callOp
        rw [hset, hstack, ← hcount]
        rfl
      refine hreach [] hcall rfl rfl id ⟨?_, _, _, rfl, fun ix _ => ?_⟩
      · rw [hleft]
        simpa [State.enter, start] using hstack
      · rfl
    | cons v st =>
      have hcall := callOp_takes h hset (hstack.trans rfl)
      rw [← hcount] at hcall
      refine hreach st hcall rfl rfl (nofun)
        ⟨by simp [State.enter, start, leftArgs, hset], _, _, rfl, hlocals (by simp) rfl⟩
  · have htop : s.stack = .i64 x :: (l.reverse.map Value.i64 ++ rest) := by
      rw [hstack, hargs]
      simp
    have hcall := callOp_takes h hset htop
    rw [← hcount] at hcall
    refine hreach rest hcall rfl rfl id ⟨?_, _, _, rfl, hlocals (fun _ => by simp [hargs]) rfl⟩
    rw [hleft, hargs]
    simp [State.enter, start]

theorem reachesBody (h : Compiled env.program offset f)
    (hcount : args.length = jitArgCount env.program offset)
    (hparams : jitArgCount env.program offset = f.params.toNat)
    (hstack : s.stack = args.reverse.map Value.i64 ++ rest) (hbound : Bound env.program offset args) :
    ReachesBody env offset args rest s := by
  cases hset : isLocalSet env.program.code[offset.toNat]? with
  | false => exact reachesBody_bare h hcount hset hstack hbound
  | true =>
    refine reachesBody_prologue ?_ hcount hset hstack hbound
    rw [hcount, hparams, h.params]

theorem interpretCall_verdict (h : ReachesBody env offset args rest s) :
    (verdict env.program offset args).interpreted rest (interpretCall env offset s) := by
  obtain ⟨s', junk, fuel, hrun, hfuel, hcode, hret, hjunk, hrunning⟩ := h
  rw [hrun]
  exact (runUntilReturn_judge hcode hrunning hret hfuel).mono hjunk

theorem runNative_verdict (h : Compiled p offset f) (hargs : args.length = f.params.toNat) :
    (verdict p offset args).native (runNative f args) := by
  refine runIns_judge (b := entryBlock (paramCount p offset))
    ⟨_, ⟨?_, ?_, rfl, fun _ => rfl⟩, rfl, fun _ _ => rfl⟩ h.body
  · rw [hargs, h.params]
    rfl
  · simp [entryBlock]

/-- The native code returns what the interpreter leaves on the stack. Native code has no way
to panic: no result of it is that of a call that fails in the interpreter. -/
def SameResult : NativeResult → Outcome W → Prop
  | .value n, .next s => s.stack.head? = some (.i64 n)
  | _, _ => False

/-- The native call of a function with `args` against the interpreted one: as many arguments
as parameters, and the same result whatever the caller. -/
def Agrees (env : Env W) (offset : UInt32) (f : NativeFunction) (args : List Int64) : Prop :=
  jitArgCount env.program offset = f.params.toNat ∧
    ∀ (s : State W) (rest : List Value), s.stack = args.reverse.map Value.i64 ++ rest →
      ∀ res, callNative f args = .ok res → SameResult res (interpretCall env offset s)

/-- The condition on the function and its arguments: the scans agree and, where the native
code runs at all, the locals are bound alike and the body reads as an integer. -/
def Clean (p : Program) (offset : UInt32) (args : List Int64) : Prop :=
  CountsAlike p offset ∧
    (args.length ≤ 8 → Bound p offset args ∧ ∃ n, verdict p offset args = .int n)

theorem callNative_ok {res : NativeResult} (h : callNative f args = .ok res) :
    args.length ≤ 8 ∧ res = runNative f args := by
  unfold callNative at h
  split at h
  · cases h
    exact ⟨‹_›, rfl⟩
  · cases h

theorem agrees_of_clean (h : Compiled env.program offset f)
    (hcount : args.length = jitArgCount env.program offset)
    (hclean : Clean env.program offset args) : Agrees env offset f args := by
  have hparams := (scan_eq_iff h).2 hclean.1
  refine ⟨hparams, fun s rest hstack res hres => ?_⟩
  obtain ⟨hlen, rfl⟩ := callNative_ok hres
  obtain ⟨hbound, n, hn⟩ := hclean.2 hlen
  have hinterp := interpretCall_verdict (reachesBody h hcount hparams hstack hbound)
  have hnative := runNative_verdict h (hcount.trans hparams)
  rw [hn] at hinterp hnative
  obtain ⟨s', hs', htop⟩ := hinterp
  rw [hs', hnative]
  exact htop

theorem clean_of_agrees [Inhabited W] (h : Compiled env.program offset f)
    (hcount : args.length = jitArgCount env.program offset) (hbound : Bound env.program offset args)
    (hmixed : verdict env.program offset args ≠ .mixed) (hagrees : Agrees env offset f args) :
    Clean env.program offset args := by
  refine ⟨(scan_eq_iff h).1 hagrees.1, fun hlen => ⟨hbound, ?_⟩⟩
  -- a caller with nothing else on its stack
  set s : State W := { State.initial default with stack := args.reverse.map Value.i64 } with hs
  have hstack : s.stack = args.reverse.map Value.i64 ++ [] := by simp [hs]
  have hsame := hagrees.2 s [] hstack (runNative f args) (by rw [callNative, if_pos hlen])
  have hinterp := interpretCall_verdict (reachesBody h hcount hagrees.1 hstack hbound)
  have hnative := runNative_verdict h (hcount.trans hagrees.1)
  cases hv : verdict env.program offset args with
  | int n => exact ⟨n, rfl⟩
  | bool =>
    rw [hv] at hinterp
    obtain ⟨s', t, hs', htop⟩ := hinterp
    rw [hs'] at hsame
    cases hres : runNative f args with
    | trap => simp [hres, SameResult] at hsame
    | value n => simp [hres, SameResult, htop] at hsame
  | stale =>
    rw [hv] at hinterp hnative
    obtain ⟨s', hs', htop⟩ := hinterp
    rw [hs', hnative] at hsame
    exact absurd hsame (htop rfl)
  | refused =>
    rw [hv] at hinterp
    rw [hinterp] at hsame
    cases hres : runNative f args <;> simp [hres, SameResult] at hsame
  | zero | overflow =>
    rw [hv] at hnative
    rw [hnative] at hsame
    simp [SameResult] at hsame
  | mixed => exact absurd hv hmixed

/-- **Native calls.** Of a function that compiles, called with the arguments `Op::Call`
passes: the native call agrees with the interpreted one when the call is `Clean`; and where
the locals are bound alike and no arithmetic meets a boolean, only then. -/
theorem native_agrees_iff [Inhabited W] (env : Env W) {offset : UInt32} {f : NativeFunction}
    {args : List Int64} (hcompile : compile env.program offset = .ok f)
    (hcount : args.length = jitArgCount env.program offset) :
    (Clean env.program offset args → Agrees env offset f args) ∧
      (Bound env.program offset args → verdict env.program offset args ≠ .mixed →
        (Agrees env offset f args ↔ Clean env.program offset args)) := by
  have h := compiled_of_compile hcompile
  refine ⟨agrees_of_clean h hcount, fun hbound hmixed => ⟨?_, agrees_of_clean h hcount⟩⟩
  exact clean_of_agrees h hcount hbound hmixed

/-- A function of two parameters that applies `op` to them. -/
def applyTwo (op : Op) : List Op :=
  [.localSet 1, .localSet 0, .localGet 0, .localGet 1, op, .ret]

def nativeTwo (ins : List Ins) : NativeFunction :=
  ⟨2, .useVar 0 :: .useVar 1 :: ins⟩

theorem sum_agrees :
    Agrees (exampleEnv none (applyTwo .addI64)) 0 (nativeTwo [.binary .iadd 2 3, .return_ 4])
      [3, 4] := by
  have hcompile : compile (exampleEnv none (applyTwo .addI64)).program 0 =
      .ok (nativeTwo [.binary .iadd 2 3, .return_ 4]) := rfl
  refine (native_agrees_iff (exampleEnv none (applyTwo .addI64)) hcompile rfl).1
    ⟨?_, fun _ => ⟨?_, 7, rfl⟩⟩
  · exact (scan_eq_iff (compiled_of_compile hcompile)).1 rfl
  · intro ix hix
    rcases hix with rfl | rfl | hix
    · rfl
    · rfl
    · cases hix

/-- **Disagreement.** A quotient by 0, which panics in the interpreter, traps the process; and a
comparison, which leaves a boolean in the interpreter, gives the integer 1. -/
theorem quotient_and_comparison_disagree : (compile (exampleEnv none (applyTwo .divI64)).program 0 =
        .ok (nativeTwo [.binary .sdiv 2 3, .return_ 4]) ∧
      interpretCall (exampleEnv none (applyTwo .divI64)) 0
        { State.initial () with stack := [.i64 0, .i64 1] } = .stop (.failed 2) ∧
      ¬ Agrees (exampleEnv none (applyTwo .divI64)) 0
        (nativeTwo [.binary .sdiv 2 3, .return_ 4]) [1, 0]) ∧
    compile (exampleEnv none (applyTwo .ltI64)).program 0 =
        .ok (nativeTwo [.icmp .signedLessThan 2 3, .uextend 4, .return_ 5]) ∧
      ¬ Agrees (exampleEnv none (applyTwo .ltI64)) 0
        (nativeTwo [.icmp .signedLessThan 2 3, .uextend 4, .return_ 5]) [1, 2] := by
  refine ⟨⟨rfl, rfl, fun h => ?_⟩, rfl, fun h => ?_⟩
  · exact h.2 { State.initial () with stack := [.i64 0, .i64 1] } [] rfl .trap rfl
  · have hsame := h.2 { State.initial () with stack := [.i64 2, .i64 1] } [] rfl _ rfl
    have htop : (some (Value.bool true)) = some (.i64 1) := hsame
    cases htop

end Arth.Jit
