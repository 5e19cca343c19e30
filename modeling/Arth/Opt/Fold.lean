import Arth.Ir.Semantics
import Arth.Lib.Runs

/-!
# Constant folding

* `evalBin`, `evalCmp`, `constFold` — the pass; `none` is a panic of the pass itself.
* `evalBin_correct`: the fold of an operator agrees with the interpreter except where the
  divisor is zero, and panics on the quotient the interpreter wraps.
* `constFold_turn`: a folded block does what the block does, as long as the run executes no
  fold that goes wrong.
-/

namespace Arth.Opt

open Ir List Option Function

/-! ## The pass -/

/-- `i64::wrapping_shl`, whose shift amount is taken modulo 64. -/
def wrappingShl (a : Int64) (n : UInt32) : Int64 := a <<< Int64.ofNat (n.toNat % 64)

def wrappingShr (a : Int64) (n : UInt32) : Int64 := a >>> Int64.ofNat (n.toNat % 64)

/-- `b as u32 & 63`. -/
def shiftAmount (b : Int64) : UInt32 := b.toUInt64.toUInt32 &&& 63

/-- The quotients for which `a / b` and `a % b` panic in Rust. -/
def overflows (a b : Int64) : Bool := a = Int64.minValue && b = -1

/-- `eval_bin`. -/
def evalBin : BinOp → Int64 → Int64 → Option Int64
  | .add, a, b => some (a + b)
  | .sub, a, b => some (a - b)
  | .mul, a, b => some (a * b)
  | .div, a, b => if b = 0 then some a else if overflows a b then none else some (a / b)
  | .mod, a, b => if b = 0 then some 0 else if overflows a b then none else some (a % b)
  | .shl, a, b => some (wrappingShl a (shiftAmount b))
  | .shr, a, b => some (wrappingShr a (shiftAmount b))
  | .and, a, b => some (a &&& b)
  | .or, a, b => some (a ||| b)
  | .xor, a, b => some (a ^^^ b)

/-- `eval_cmp`. -/
def evalCmp (pred : CmpPred) (a b : Int64) : Int64 :=
  let res : Bool := match pred with
    | .eq => a = b
    | .ne => a ≠ b
    | .lt => a < b
    | .le => a ≤ b
    | .gt => a > b
    | .ge => a ≥ b
  if res then 1 else 0

/-- The constants of a block that the pass has seen. -/
abbrev Consts := Ir.Value → Option Int64

def Consts.empty : Consts := fun _ => none

def Consts.insert (consts : Consts) (v : Ir.Value) (n : Int64) : Consts :=
  Function.update consts v (some n)

/-- What the pass makes of an instruction: the instruction stays, becomes a constant, or the
pass panics. -/
inductive Fold where
  | stays
  | becomes (n : Int64)
  | panics
  deriving DecidableEq

def Fold.ofOption : Option Int64 → Fold
  | some n => .becomes n
  | none => .panics

def foldKind (consts : Consts) : InstKind → Fold
  | .copy v =>
    match consts v with
    | some c => .becomes c
    | none => .stays
  | .binary op a c =>
    match consts a, consts c with
    | some va, some vb => Fold.ofOption (evalBin op va vb)
    | _, _ => .stays
  | .cmp pred a c =>
    match consts a, consts c with
    | some va, some vb => .becomes (evalCmp pred va vb)
    | _, _ => .stays
  | .phi (first :: rest) =>
    match consts first.2 with
    | some c0 => if rest.all fun o => consts o.2 = some c0 then .becomes c0 else .stays
    | none => .stays
  | _ => .stays

/-- The table after an instruction. -/
def learn (consts : Consts) (inst : Inst) : Consts :=
  match inst.kind, foldKind consts inst.kind with
  | .constI64 v, _ => consts.insert inst.result v
  | _, .becomes c => consts.insert inst.result c
  | _, _ => consts

/-- One instruction: what it becomes, and whether it changed. -/
def foldInst (consts : Consts) (inst : Inst) : Option (Inst × Bool) :=
  match foldKind consts inst.kind with
  | .stays => some (inst, false)
  | .becomes c => some (⟨inst.result, .constI64 c⟩, true)
  | .panics => none

def foldInsts (consts : Consts) : List Inst → Option (List Inst × Bool)
  | [] => some ([], false)
  | inst :: insts => do
    let (inst', changed) ← foldInst consts inst
    let (insts', changed') ← foldInsts (learn consts inst) insts
    some (inst' :: insts', changed || changed')

def foldBlocks : List BlockData → Option (List BlockData × Bool)
  | [] => some ([], false)
  | b :: bs => do
    let (insts, changed) ← foldInsts .empty b.insts
    let (bs', changed') ← foldBlocks bs
    some ({ b with insts } :: bs', changed || changed')

/-- `const_fold`: the folded function, and whether anything changed. -/
def constFold (f : Func) : Option (Func × Bool) := do
  let (blocks, changed) ← foldBlocks f.blocks
  some ({ f with blocks }, changed)

/-- The operands of a division whose quotient panics the pass. -/
def overflowing (consts : Consts) : InstKind → Bool
  | .binary .div a b | .binary .mod a b =>
    consts a = some Int64.minValue && consts b = some (-1)
  | _ => false

/-- The pass folds a division of a constant by zero, or a comparison of two constants, which
leaves a number where the comparison leaves a boolean. -/
def misfolds (consts : Consts) : InstKind → Bool
  | .binary .div a b | .binary .mod a b => (consts a).isSome && consts b = some 0
  | .cmp _ a b => (consts a).isSome && (consts b).isSome
  | _ => false

/-- Somewhere in the function the pass divides the least integer by `-1`. -/
def Overflows (f : Func) : Prop :=
  ∃ b ∈ f.blocks, ∃ pre inst post, b.insts = pre ++ inst :: post ∧
    overflowing (pre.foldl learn .empty) inst.kind = true

variable {W : Type} (vm : Vm W)

/-- The run of a block executes no fold that goes wrong. -/
def FoldsWell : Consts → List Inst → Ir.State W → Prop
  | _, [], _ => True
  | consts, inst :: insts, s =>
    misfolds consts inst.kind = false ∧
      ∀ s', vm.exec s inst = .next s' → FoldsWell (learn consts inst) insts s'

/-! ## One operator -/

theorem toNat_smod_64 (x : BitVec 64) : (x.smod 64).toNat = x.toNat % 64 := by
  have h64 : (64#64).msb = false := by decide
  rw [BitVec.smod_eq]
  cases hx : x.msb with
  | false => simp [h64]
  | true =>
    have hneg : (-x % 64).toNat = (2 ^ 64 - x.toNat) % 64 := by
      simp
    by_cases hu : -x % 64 = 0#64
    · simp only [BitVec.ofNat_eq_ofNat, h64, BitVec.umod_eq] at hu ⊢
      rw [if_pos hu, hu, BitVec.toNat_zero]
      simp [hu] at hneg
      omega
    · have hne : (-x % 64).toNat ≠ 0 := fun h => hu (BitVec.eq_of_toNat_eq h)
      simp only [BitVec.ofNat_eq_ofNat, h64, BitVec.umod_eq] at hu hne hneg ⊢
      rw [if_neg hu, BitVec.toNat_sub, hneg]
      simp
      omega

theorem smod_shiftAmount (b : Int64) :
    (Int64.ofNat ((shiftAmount b).toNat % 64)).toBitVec.smod 64 = b.toBitVec.smod 64 := by
  have hmask : (shiftAmount b).toNat = b.toBitVec.toNat % 64 := by
    have h := Nat.and_two_pow_sub_one_eq_mod b.toUInt64.toUInt32.toNat 6
    simp at h ⊢
    exact h
  apply BitVec.eq_of_toNat_eq
  rw [toNat_smod_64, toNat_smod_64, Int64.toBitVec_ofNat', BitVec.toNat_ofNat]
  omega

theorem wrappingShl_shiftAmount (a b : Int64) : wrappingShl a (shiftAmount b) = a <<< b := by
  apply Int64.toBitVec_inj.1
  rw [wrappingShl, Int64.toBitVec_shiftLeft, Int64.toBitVec_shiftLeft, smod_shiftAmount]

theorem wrappingShr_shiftAmount (a b : Int64) : wrappingShr a (shiftAmount b) = a >>> b := by
  apply Int64.toBitVec_inj.1
  rw [wrappingShr, Int64.toBitVec_shiftRight, Int64.toBitVec_shiftRight, smod_shiftAmount]

/-- An operator whose fold does not go wrong. -/
def divides : BinOp → Bool
  | .div | .mod => true
  | _ => false

/-- **`eval_bin` is the interpreter's arithmetic** where the divisor is not zero: what it
returns is what the opcode pushes, wrap-around and shift amounts included. -/
theorem evalBin_correct {op : BinOp} {a b n : Int64} (hn : evalBin op a b = some n)
    (hb : divides op = true → b ≠ 0) : i64Binary op a b = .ok (.i64 n) := by
  cases op with
  | div | mod =>
    have hb := hb rfl
    simp only [evalBin] at hn
    rw [if_neg hb] at hn
    split at hn
    · cases hn
    · cases hn
      exact if_neg hb
  | shl =>
    cases hn
    rw [wrappingShl_shiftAmount]
    rfl
  | shr =>
    cases hn
    rw [wrappingShr_shiftAmount]
    rfl
  | _ =>
    cases hn
    rfl

theorem evalBin_eq_none {op : BinOp} {a b : Int64} :
    evalBin op a b = none ↔ divides op = true ∧ a = Int64.minValue ∧ b = -1 := by
  have h0 : (-1 : Int64) ≠ 0 := by decide
  have key : overflows a b = true ↔ a = Int64.minValue ∧ b = -1 := by simp [overflows]
  cases op <;> simp only [evalBin, divides, reduceCtorEq, Bool.false_eq_true, false_and, true_and]
  all_goals
    by_cases hb : b = 0
    · simp [hb, h0.symm]
    · simp [hb, key]

/-- The table holds what the registers hold. -/
def Holds (consts : Consts) (regs : Regs) : Prop :=
  ∀ v n, consts v = some n → regs v = .i64 n

variable {vm} {consts : Consts} {s s' : Ir.State W} {inst inst' : Inst}

theorem compute_of_becomes {n : Int64} (hh : Holds consts s.regs)
    (hphi : inst.kind.isPhi = true → consts = .empty)
    (hfold : foldKind consts inst.kind = .becomes n) (hok : misfolds consts inst.kind = false) :
    vm.compute inst s.regs s.world = some (.ok (.i64 n)) := by
  obtain ⟨r, kind⟩ := inst
  cases kind with
  | copy v =>
    simp only [foldKind] at hfold
    split at hfold
    · rename_i c hc
      cases hfold
      exact congrArg (some ∘ Except.ok) (hh v n hc)
    · cases hfold
  | binary op a b =>
    simp only [foldKind] at hfold
    split at hfold
    · rename_i va vb ha hb
      obtain ⟨m, hm⟩ : ∃ m, evalBin op va vb = some m := by
        cases he : evalBin op va vb with
        | none => rw [he] at hfold; cases hfold
        | some m => exact ⟨m, rfl⟩
      rw [hm] at hfold
      cases hfold
      have hdiv : divides op = true → vb ≠ 0 := by
        rintro hdiv rfl
        cases op <;> simp_all [divides, misfolds]
      have hval := evalBin_correct hm hdiv
      simp only [Vm.compute, hh a va ha, hh b vb hb, Vm.binary, hval]
    · cases hfold
  | cmp pred a b =>
    simp only [foldKind] at hfold
    split at hfold
    · rename_i va vb ha hb
      simp [misfolds, ha, hb] at hok
    · cases hfold
  | phi ops =>
    rw [hphi rfl] at hfold
    cases ops <;> cases hfold
  | _ => cases hfold

theorem foldInst_exec {ch : Bool} (hh : Holds consts s.regs)
    (hphi : inst.kind.isPhi = true → consts = .empty)
    (hfold : foldInst consts inst = some (inst', ch)) (hok : misfolds consts inst.kind = false) :
    vm.exec s inst' = vm.exec s inst := by
  unfold foldInst at hfold
  split at hfold
  · cases hfold
    rfl
  · rename_i n hn
    cases hfold
    rw [exec_constI64, exec_compute (compute_of_becomes hh hphi hn hok)]
  · cases hfold

theorem Holds.learn (hh : Holds consts s.regs) (hnew : consts inst.result = none)
    (hphi : inst.kind.isPhi = true → consts = .empty)
    (hok : misfolds consts inst.kind = false) (hexec : vm.exec s inst = .next s') :
    Holds (learn consts inst) s'.regs := by
  have hold : Holds consts s'.regs := by
    intro v n hv
    have hne : v ≠ inst.result := by
      rintro rfl
      rw [hnew] at hv
      cases hv
    rw [exec_regs hexec hne]
    exact hh v n hv
  have hins : ∀ n, vm.compute inst s.regs s.world = some (.ok (.i64 n)) →
      Holds (consts.insert inst.result n) s'.regs := by
    intro n hn v m hv
    rw [exec_compute hn] at hexec
    cases hexec
    by_cases hvr : v = inst.result
    · subst hvr
      rw [Consts.insert, update_self] at hv
      cases hv
      exact update_self ..
    · rw [Consts.insert, update_of_ne hvr] at hv
      exact hold v m hv
  unfold Opt.learn
  split
  · rename_i n hkind
    apply hins
    rw [Vm.compute, hkind]
  · rename_i n hn _
    exact hins n (compute_of_becomes hh hphi hn hok)
  · exact hold

/-! ## One block -/

/-- The results of a block are distinct, and its phis stand first. -/
structure SsaBlock (insts : List Inst) : Prop where
  distinct : (insts.map (·.result)).Nodup
  phisFirst : insts.Pairwise fun i j => j.kind.isPhi = true → i.kind.isPhi = true

/-- What the pass knows when it comes to the rest of a block: nothing of the values defined
there, and nothing at all while there are phis. -/
structure Ahead (consts : Consts) (insts : List Inst) : Prop extends SsaBlock insts where
  fresh : ∀ inst ∈ insts, consts inst.result = none
  phi : ∀ inst ∈ insts, inst.kind.isPhi = true → consts = .empty

variable {insts insts' : List Inst} {ch : Bool}

theorem SsaBlock.ahead (h : SsaBlock insts) : Ahead .empty insts :=
  ⟨h, fun _ _ => rfl, fun _ _ _ => rfl⟩

theorem learn_cases (consts : Consts) (inst : Inst) :
    learn consts inst = consts ∨ ∃ n, learn consts inst = consts.insert inst.result n := by
  unfold Opt.learn
  split
  · exact .inr ⟨_, rfl⟩
  · exact .inr ⟨_, rfl⟩
  · exact .inl rfl

theorem learn_other {v : Ir.Value} (hv : v ≠ inst.result) : learn consts inst v = consts v := by
  rcases learn_cases consts inst with h | ⟨n, h⟩
  · rw [h]
  · rw [h]
    exact update_of_ne hv _ _

theorem learn_phi (h : inst.kind.isPhi = true) : learn .empty inst = .empty := by
  obtain ⟨r, kind⟩ := inst
  cases kind with
  | phi ops => cases ops <;> rfl
  | _ => cases h

theorem Ahead.tail (h : Ahead consts (inst :: insts)) : Ahead (learn consts inst) insts := by
  have hd := nodup_cons.1 h.distinct
  have hp := pairwise_cons.1 h.phisFirst
  refine ⟨⟨hd.2, hp.2⟩, ?_, ?_⟩
  · intro i hi
    have hne : i.result ≠ inst.result := by
      intro he
      exact hd.1 (mem_map.2 ⟨i, hi, he⟩)
    rw [learn_other hne]
    exact h.fresh i (mem_cons_of_mem _ hi)
  · intro i hi hphi
    rw [h.phi i (mem_cons_of_mem _ hi) hphi]
    exact learn_phi (hp.1 i hi hphi)

theorem foldInsts_cons (h : foldInsts consts (inst :: insts) = some (insts', ch)) :
    ∃ inst₁ c₁ insts₁ c₂, foldInst consts inst = some (inst₁, c₁) ∧
      foldInsts (learn consts inst) insts = some (insts₁, c₂) ∧ insts' = inst₁ :: insts₁ := by
  simp only [foldInsts, bind_eq_bind, bind_eq_some_iff] at h
  obtain ⟨⟨inst₁, c₁⟩, h₁, ⟨insts₁, c₂⟩, h₂, h₃⟩ := h
  cases h₃
  exact ⟨inst₁, c₁, insts₁, c₂, h₁, h₂, rfl⟩

theorem foldInsts_execs (hh : Holds consts s.regs) (ha : Ahead consts insts)
    (hok : FoldsWell vm consts insts s) (hfold : foldInsts consts insts = some (insts', ch)) :
    vm.execs s insts' = vm.execs s insts := by
  induction insts generalizing consts s insts' ch with
  | nil =>
    cases hfold
    rfl
  | cons inst insts ih =>
    obtain ⟨inst₁, c₁, insts₁, c₂, h₁, h₂, rfl⟩ := foldInsts_cons hfold
    have hphi : inst.kind.isPhi = true → consts = .empty := ha.phi inst mem_cons_self
    have hexec : vm.exec s inst₁ = vm.exec s inst := foldInst_exec hh hphi h₁ hok.1
    unfold Vm.execs
    rw [hexec]
    cases hnext : vm.exec s inst with
    | next s₁ =>
      have hh₁ : Holds (learn consts inst) s₁.regs :=
        hh.learn (ha.fresh inst mem_cons_self) hphi hok.1 hnext
      exact ih hh₁ ha.tail (hok.2 s₁ hnext) h₂
    | raise => rfl
    | stop => rfl

theorem foldInst_phi (hphi : inst.kind.isPhi = true → consts = .empty)
    (h : foldInst consts inst = some (inst', ch)) :
    inst'.result = inst.result ∧ inst'.kind.isPhi = inst.kind.isPhi ∧
      (inst.kind.isPhi = true → inst' = inst) := by
  unfold foldInst at h
  split at h
  · cases h
    exact ⟨rfl, rfl, fun _ => rfl⟩
  · rename_i n hn
    cases h
    have hno : inst.kind.isPhi ≠ true := by
      intro hp
      rw [hphi hp] at hn
      obtain ⟨r, kind⟩ := inst
      cases kind with
      | phi ops => cases ops <;> cases hn
      | _ => cases hp
    exact ⟨rfl, (Bool.eq_false_iff.2 hno).symm, fun hp => absurd hp hno⟩
  · cases h

theorem foldInsts_shape (ha : Ahead consts insts)
    (hfold : foldInsts consts insts = some (insts', ch)) :
    insts'.map (·.result) = insts.map (·.result) ∧
      insts'.map (·.kind.isPhi) = insts.map (·.kind.isPhi) ∧
      ∀ src old regs, assignPhis src old insts' regs = assignPhis src old insts regs := by
  induction insts generalizing consts insts' ch with
  | nil =>
    cases hfold
    exact ⟨rfl, rfl, fun _ _ _ => rfl⟩
  | cons inst insts ih =>
    obtain ⟨inst₁, c₁, insts₁, c₂, h₁, h₂, rfl⟩ := foldInsts_cons hfold
    obtain ⟨hres, hisPhi, hsame⟩ := foldInst_phi (ha.phi inst mem_cons_self) h₁
    obtain ⟨hrs, hps, hassign⟩ := ih ha.tail h₂
    refine ⟨by simp [hres, hrs], by simp [hisPhi, hps], ?_⟩
    intro src old regs
    by_cases hp : inst.kind.isPhi = true
    · rw [hsame hp]
      exact hassign _ _ _
    · have hskip : ∀ i : Inst, i.kind.isPhi ≠ true → ∀ is,
          assignPhis src old (i :: is) regs = assignPhis src old is regs := by
        rintro ⟨r, kind⟩ hi is
        cases kind with
        | phi => exact absurd rfl hi
        | _ => rfl
      rw [hskip inst hp, hskip inst₁ (hisPhi ▸ hp)]
      exact hassign _ _ _

/-- Every block is as `SsaBlock` says. -/
def Ssa (f : Func) : Prop := ∀ b ∈ f.blocks, SsaBlock b.insts

theorem foldBlocks_getElem? {bs bs' : List BlockData} (h : foldBlocks bs = some (bs', ch))
    (i : Nat) : (bs[i]? = none ∧ bs'[i]? = none) ∨
      ∃ b insts' c, bs[i]? = some b ∧ bs'[i]? = some { b with insts := insts' } ∧
        foldInsts .empty b.insts = some (insts', c) := by
  induction bs generalizing bs' ch i with
  | nil =>
    cases h
    exact .inl ⟨rfl, rfl⟩
  | cons b bs ih =>
    simp only [foldBlocks, bind_eq_bind, bind_eq_some_iff] at h
    obtain ⟨⟨insts₁, c₁⟩, h₁, ⟨bs₁, c₂⟩, h₂, h₃⟩ := h
    cases h₃
    cases i with
    | zero => exact .inr ⟨b, insts₁, c₁, rfl, rfl, h₁⟩
    | succ i => exact ih h₂ i

variable {f g : Func}

theorem constFold_blocks (h : constFold f = some (g, ch)) :
    ∃ c, foldBlocks f.blocks = some (g.blocks, c) := by
  simp only [constFold, bind_eq_bind, bind_eq_some_iff] at h
  obtain ⟨⟨bs, c⟩, h₁, h₂⟩ := h
  cases h₂
  exact ⟨c, h₁⟩

theorem constFold_ssa (hf : Ssa f) (h : constFold f = some (g, ch)) : Ssa g := by
  obtain ⟨c, hb⟩ := constFold_blocks h
  intro b' hb'
  obtain ⟨i, hi⟩ := mem_iff_getElem?.1 hb'
  rcases foldBlocks_getElem? hb i with ⟨-, hnone⟩ | ⟨b, insts', c', hfb, hgb, hfold⟩
  · rw [hi] at hnone
    cases hnone
  · rw [hi] at hgb
    cases hgb
    have hssa := hf b (mem_of_getElem? hfb)
    obtain ⟨hres, hphi, -⟩ := foldInsts_shape hssa.ahead hfold
    refine ⟨hres ▸ hssa.distinct, ?_⟩
    have hpair : (b.insts.map (·.kind.isPhi)).Pairwise fun x y => y = true → x = true :=
      pairwise_map.2 hssa.phisFirst
    rw [← hphi] at hpair
    exact pairwise_map.1 hpair

theorem constFold_getElem? (h : constFold f = some (g, ch)) (i : Nat) :
    (f.blocks[i]? = none ∧ g.blocks[i]? = none) ∨
      ∃ b insts' c, f.blocks[i]? = some b ∧ g.blocks[i]? = some { b with insts := insts' } ∧
        foldInsts .empty b.insts = some (insts', c) := by
  obtain ⟨c, hb⟩ := constFold_blocks h
  exact foldBlocks_getElem? hb i

theorem constFold_goto (hf : Ssa f) (h : constFold f = some (g, ch)) :
    (State.goto g : Ir.State W → Ir.Block → Ir.State W) = State.goto f := by
  funext s dst
  have hassign : ∀ src old regs,
      assignPhis src old (g.insts dst) regs = assignPhis src old (f.insts dst) regs := by
    intro src old regs
    rcases constFold_getElem? h dst with ⟨hfn, hgn⟩ | ⟨b, insts', c, hfb, hgb, hfold⟩
    · simp only [Func.insts, hfn, hgn]
    · simp only [Func.insts, hfb, hgb]
      exact (foldInsts_shape (hf b (mem_of_getElem? hfb)).ahead hfold).2.2 src old regs
  unfold State.goto
  rw [hassign]

/-- **A folded block does what the block does**, if the run of the block executes no fold
that goes wrong. -/
theorem constFold_turn (hf : Ssa f) (h : constFold f = some (g, ch))
    (hok : FoldsWell vm .empty (f.insts s.block) s) : vm.turn g s = vm.turn f s := by
  have hgoto := constFold_goto (W := W) hf h
  rcases constFold_getElem? h s.block with ⟨hfn, hgn⟩ | ⟨b, insts', c, hfb, hgb, hfold⟩
  · simp only [Vm.turn, hfn, hgn]
  · have hh : Holds .empty s.regs := fun _ _ hv => by cases hv
    simp only [Func.insts, hfb] at hok
    have hexecs : vm.execs s insts' = vm.execs s b.insts :=
      foldInsts_execs hh (hf b (mem_of_getElem? hfb)).ahead hok hfold
    simp only [Vm.turn, hfb, hgb, hexecs, Vm.leave, State.unwind, State.branch, hgoto]

theorem foldInst_eq_none : foldInst consts inst = none ↔ overflowing consts inst.kind = true := by
  have hkey : foldInst consts inst = none ↔ foldKind consts inst.kind = .panics := by
    unfold foldInst
    cases foldKind consts inst.kind <;> simp
  rw [hkey]
  obtain ⟨r, kind⟩ := inst
  cases kind with
  | binary op a b =>
    simp only [foldKind]
    cases ha : consts a with
    | none => cases op <;> simp [overflowing, ha]
    | some va =>
      cases hb : consts b with
      | none => cases op <;> simp [overflowing, hb]
      | some vb =>
        have hnone := @evalBin_eq_none op va vb
        cases he : evalBin op va vb with
        | none | some =>
          cases op <;> simp_all [overflowing, divides, Fold.ofOption]
  | copy v => cases h : consts v <;> simp [foldKind, overflowing, h]
  | cmp pred a b =>
    cases ha : consts a <;> cases hb : consts b <;> simp [foldKind, overflowing, ha, hb]
  | phi ops =>
    cases ops with
    | nil => simp [foldKind, overflowing]
    | cons first rest =>
      simp only [foldKind, overflowing]
      cases consts first.2 with
      | none => simp
      | some c => by_cases hall : (rest.all fun o => consts o.2 = some c) = true <;> simp [hall]
  | _ => simp [foldKind, overflowing]

theorem foldInsts_eq_none : foldInsts consts insts = none ↔
    ∃ pre inst post, insts = pre ++ inst :: post ∧
      overflowing (pre.foldl learn consts) inst.kind = true := by
  induction insts generalizing consts with
  | nil => simp [foldInsts]
  | cons i insts ih =>
    have hstep : foldInsts consts (i :: insts) = none ↔
        foldInst consts i = none ∨ foldInsts (learn consts i) insts = none := by
      simp only [foldInsts, bind_eq_bind]
      cases foldInst consts i with
      | none => simp
      | some r => cases foldInsts (learn consts i) insts <;> simp
    rw [hstep, foldInst_eq_none, ih]
    constructor
    · rintro (h | ⟨pre, inst, post, rfl, h⟩)
      · exact ⟨[], i, insts, rfl, h⟩
      · exact ⟨i :: pre, inst, post, rfl, h⟩
    · rintro ⟨pre, inst, post, hsplit, h⟩
      cases pre with
      | nil =>
        cases hsplit
        exact .inl h
      | cons j pre =>
        cases hsplit
        exact .inr ⟨pre, inst, post, rfl, h⟩

/-- **The pass panics exactly on the quotient that overflows.** -/
theorem constFold_eq_none : constFold f = none ↔ Overflows f := by
  have hblocks : ∀ bs, foldBlocks bs = none ↔ ∃ b ∈ bs, foldInsts .empty b.insts = none := by
    intro bs
    induction bs with
    | nil => simp [foldBlocks]
    | cons b bs ih =>
      simp only [foldBlocks, bind_eq_bind, exists_mem_cons_iff, ← ih]
      cases foldInsts .empty b.insts with
      | none => simp
      | some r => cases foldBlocks bs <;> simp
  have hfunc : constFold f = none ↔ foldBlocks f.blocks = none := by
    simp only [constFold, bind_eq_bind]
    cases foldBlocks f.blocks <;> simp
  rw [hfunc, hblocks]
  unfold Overflows
  simp only [foldInsts_eq_none]

end Arth.Opt
