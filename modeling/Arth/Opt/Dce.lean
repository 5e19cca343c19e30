import Arth.Ir.Semantics

/-!
# Dead code elimination

* `sideEffectFree`, `dce` — the pass: it counts the uses of every value, then goes through
  each block backwards and removes what is unused and on the table.
* `dceInsts_counts`: the counts stay the numbers of uses in what is left, so that what is
  removed is used nowhere.
* `dce_turn`: a thinned block does what the block does, up to unused registers, as long as
  nothing that traps is removed from the run.
-/

namespace Arth.Opt

open Ir List Option Function

/-- `side_effect_free`. -/
def sideEffectFree : InstKind → Bool
  | .constI64 _ | .constF64 _ | .constStr _ | .copy _ | .binary .. | .cmp .. | .strEq ..
  | .strConcat .. | .load _ | .alloca | .phi _ => true
  | .store .. | .call .. | .externCall .. | .makeClosure .. | .closureCall .. | .landingPad ..
  | .setUnwindHandler _ | .clearUnwindHandler | .drop .. | .condDrop .. | .fieldDrop ..
  | .rcAlloc _ | .rcInc _ | .rcDec .. | .rcStore .. | .regionEnter _ | .regionExit ..
  | .asyncFrameAlloc .. | .asyncFrameFree _ | .asyncFrameSetState .. | .asyncFrameStore ..
  | .asyncYield _ | .awaitPoint .. | .providerNew .. | .providerFieldGet ..
  | .providerFieldSet .. | .structAlloc _ | .structFieldSet .. | .enumAlloc _
  | .enumSetTag .. | .enumSetPayload .. => false
  | .rcLoad _ | .rcGetCount _ | .getTypeName _ => true
  | .structFieldGet .. | .enumGetTag .. | .enumGetPayload .. => true
  | .asyncFrameGetState _ | .asyncFrameLoad .. | .asyncCheckCancelled _ => true

/-- How often each value is used. -/
abbrev Counts := Ir.Value → Nat

def Counts.add (used : Counts) (vs : List Ir.Value) : Counts :=
  vs.foldl (fun m v => Function.update m v (m v + 1)) used

/-- One less use of each operand, down to 0. -/
def Counts.release (used : Counts) (vs : List Ir.Value) : Counts :=
  vs.foldl (fun m v => Function.update m v (m v - 1)) used

def countBlock (used : Counts) (b : BlockData) : Counts :=
  (b.insts.foldl (fun m inst => m.add inst.kind.uses) used).add b.term.uses

def countUses (f : Func) : Counts := f.blocks.foldl countBlock fun _ => 0

/-- The test of the backward scan: the counts are those after the rest of the block. -/
def removes (used : Counts) (inst : Inst) : Bool :=
  used inst.result = 0 && sideEffectFree inst.kind

/-- The backward scan of a block. -/
def dceInsts (used : Counts) : List Inst → Counts × List Inst × Bool
  | [] => (used, [], false)
  | inst :: insts =>
    let (used', insts', changed) := dceInsts used insts
    if removes used' inst then (used'.release inst.kind.uses, insts', true)
    else (used', inst :: insts', changed)

def dceBlocks (used : Counts) : List BlockData → List BlockData × Bool
  | [] => ([], false)
  | b :: bs =>
    let (used', insts, changed) := dceInsts used b.insts
    let (bs', changed') := dceBlocks used' bs
    ({ b with insts } :: bs', changed || changed')

/-- `dce`: the thinned function, and whether anything changed. -/
def dce (f : Func) : Func × Bool :=
  let (blocks, changed) := dceBlocks (countUses f) f.blocks
  ({ f with blocks }, changed)

/-! ## Counting -/

variable {used used' : Counts} {insts insts' : List Inst} {inst : Inst} {ch : Bool}

theorem add_apply (vs : List Ir.Value) (v : Ir.Value) : used.add vs v = used v + vs.count v := by
  induction vs generalizing used with
  | nil => rfl
  | cons u vs ih =>
    have hstep : used.add (u :: vs) = Counts.add (update used u (used u + 1)) vs := rfl
    rw [hstep, ih, count_cons]
    by_cases h : v = u
    · subst h
      simp
      omega
    · rw [update_of_ne h]
      simp [Ne.symm h]

theorem release_apply (vs : List Ir.Value) (v : Ir.Value) :
    used.release vs v = used v - vs.count v := by
  induction vs generalizing used with
  | nil => rfl
  | cons u vs ih =>
    have hstep : used.release (u :: vs) = Counts.release (update used u (used u - 1)) vs := rfl
    rw [hstep, ih, count_cons]
    by_cases h : v = u
    · subst h
      simp
      omega
    · rw [update_of_ne h]
      simp [Ne.symm h]

/-- The uses in a list of instructions. -/
def usesOf (insts : List Inst) : List Ir.Value := insts.flatMap (·.kind.uses)

def usesOfBlock (b : BlockData) : List Ir.Value := usesOf b.insts ++ b.term.uses

def usesOfFunc (f : Func) : List Ir.Value := f.blocks.flatMap usesOfBlock

theorem countUses_apply (f : Func) (v : Ir.Value) : countUses f v = (usesOfFunc f).count v := by
  have hinsts : ∀ (insts : List Inst) (m : Counts),
      insts.foldl (fun m inst => m.add inst.kind.uses) m v = m v + (usesOf insts).count v := by
    intro insts
    induction insts with
    | nil => intro m; rfl
    | cons inst insts ih =>
      intro m
      simp only [foldl_cons, ih, add_apply, usesOf, flatMap_cons, count_append]
      omega
  have hblocks : ∀ (bs : List BlockData) (m : Counts),
      bs.foldl countBlock m v = m v + (bs.flatMap usesOfBlock).count v := by
    intro bs
    induction bs with
    | nil => intro m; rfl
    | cons b bs ih =>
      intro m
      simp only [foldl_cons, ih, countBlock, add_apply, hinsts, flatMap_cons,
        count_append, usesOfBlock]
      omega
  rw [countUses, hblocks]
  exact zero_add _

/-! ## One block -/

theorem dceInsts_cons (used : Counts) (inst : Inst) (insts : List Inst) :
    ((removes (dceInsts used insts).1 inst = true ∧ (dceInsts used (inst :: insts)).1 =
          (dceInsts used insts).1.release inst.kind.uses ∧
        (dceInsts used (inst :: insts)).2.1 = (dceInsts used insts).2.1) ∨
      (removes (dceInsts used insts).1 inst = false ∧
        (dceInsts used (inst :: insts)).1 = (dceInsts used insts).1 ∧
        (dceInsts used (inst :: insts)).2.1 = inst :: (dceInsts used insts).2.1)) := by
  simp only [dceInsts]
  split_ifs with h
  · exact .inl ⟨h, rfl, rfl⟩
  · exact .inr ⟨Bool.eq_false_iff.2 h, rfl, rfl⟩

theorem dceInsts_sublist (used : Counts) (insts : List Inst) :
    (dceInsts used insts).2.1.Sublist insts := by
  induction insts with
  | nil => exact Sublist.refl _
  | cons inst insts ih =>
    rcases dceInsts_cons used inst insts with ⟨-, -, h⟩ | ⟨-, -, h⟩
    · rw [h]
      exact ih.cons _
    · rw [h]
      exact ih.cons_cons _

theorem usesOf_cons (inst : Inst) (insts : List Inst) :
    usesOf (inst :: insts) = inst.kind.uses ++ usesOf insts := rfl

variable {others : List Ir.Value} {rest : List Inst}

/-- **The counts are the uses in what is left**: in the rest of the function, `others`, and
in what the scan has kept of the block. -/
theorem dceInsts_counts (h : ∀ v, used v = others.count v + (usesOf insts).count v) (v : Ir.Value) :
    (dceInsts used insts).1 v = others.count v + (usesOf (dceInsts used insts).2.1).count v := by
  induction insts generalizing others with
  | nil => exact h v
  | cons inst insts ih =>
    have hrest : ∀ v, used v = (others ++ inst.kind.uses).count v + (usesOf insts).count v := by
      intro v
      rw [h v, usesOf_cons, count_append, count_append]
      omega
    have hih := ih hrest
    rw [count_append] at hih
    rcases dceInsts_cons used inst insts with ⟨-, hcounts, hkept⟩ | ⟨-, hcounts, hkept⟩
    · rw [hcounts, hkept, release_apply, hih]
      omega
    · rw [hcounts, hkept, hih, usesOf_cons, count_append]
      omega

/-- **What the scan removes is used nowhere in what is left.** -/
theorem dceInsts_removed (h : ∀ v, used v = others.count v + (usesOf insts).count v)
    (hsuffix : inst :: rest <:+ insts) (hrem : removes (dceInsts used rest).1 inst = true) :
    inst.result ∉ others ∧ inst.result ∉ usesOf (dceInsts used insts).2.1 := by
  induction insts generalizing others with
  | nil => simp at hsuffix
  | cons i insts ih =>
    have hrest : ∀ v, used v = (others ++ i.kind.uses).count v + (usesOf insts).count v := by
      intro v
      rw [h v, usesOf_cons, count_append, count_append]
      omega
    rcases suffix_cons_iff.1 hsuffix with heq | hsuffix
    · cases heq
      have hzero : (dceInsts used rest).1 inst.result = 0 := by
        simp only [removes, Bool.and_eq_true, decide_eq_true_eq] at hrem
        exact hrem.1
      rw [dceInsts_counts hrest, count_append] at hzero
      refine ⟨count_eq_zero.1 (by omega), ?_⟩
      rcases dceInsts_cons used inst rest with ⟨-, -, hkept⟩ | ⟨hno, -, -⟩
      · rw [hkept]
        exact count_eq_zero.1 (by omega)
      · rw [hrem] at hno
        cases hno
    · obtain ⟨hothers, hkept⟩ := ih hrest hsuffix
      rw [mem_append, not_or] at hothers
      refine ⟨hothers.1, ?_⟩
      rcases dceInsts_cons used i insts with ⟨-, -, he⟩ | ⟨-, -, he⟩
      · rw [he]
        exact hkept
      · rw [he, usesOf_cons, mem_append, not_or]
        exact ⟨hothers.2, hkept⟩

/-- The counts when the scan comes to a block. -/
def countsAt (used : Counts) : List BlockData → Nat → Counts
  | _, 0 => used
  | [], _ => used
  | b :: bs, i + 1 => countsAt (dceInsts used b.insts).1 bs i

/-- What the scan leaves of a block. -/
def thinned (used : Counts) (b : BlockData) : BlockData :=
  { b with insts := (dceInsts used b.insts).2.1 }

theorem dceBlocks_getElem? (used : Counts) (bs : List BlockData) (i : Nat) :
    (dceBlocks used bs).1[i]? = bs[i]?.map (thinned (countsAt used bs i)) := by
  induction bs generalizing used i with
  | nil => simp [dceBlocks]
  | cons b bs ih =>
    cases i with
    | zero => rfl
    | succ i => exact ih _ i

theorem dceBlocks_uses (used : Counts) (bs : List BlockData) :
    (dceBlocks used bs).1.flatMap usesOfBlock ⊆ bs.flatMap usesOfBlock := by
  induction bs generalizing used with
  | nil => exact Subset.refl _
  | cons b bs ih =>
    have hinsts : usesOf (dceInsts used b.insts).2.1 ⊆ usesOf b.insts :=
      ((dceInsts_sublist used b.insts).flatMap _).subset
    have hblock : usesOfBlock (thinned used b) ⊆ usesOfBlock b :=
      append_subset.2 ⟨subset_append_of_subset_left _ hinsts, subset_append_right _ _⟩
    exact append_subset.2 ⟨subset_append_of_subset_left _ hblock,
      subset_append_of_subset_right _ (ih _)⟩

variable {b : BlockData} {i : Nat}

theorem dceBlocks_removed {bs : List BlockData}
    (h : ∀ v, used v = others.count v + (bs.flatMap usesOfBlock).count v)
    (hb : bs[i]? = some b) (hsuffix : inst :: rest <:+ b.insts)
    (hrem : removes (dceInsts (countsAt used bs i) rest).1 inst = true) :
    inst.result ∉ others ∧ inst.result ∉ (dceBlocks used bs).1.flatMap usesOfBlock := by
  induction bs generalizing used others i with
  | nil => simp at hb
  | cons b₀ bs ih =>
    -- the uses outside the instructions of the first block
    have hfirst : ∀ v, used v = (others ++ b₀.term.uses ++ bs.flatMap usesOfBlock).count v +
          (usesOf b₀.insts).count v := by
      intro v
      rw [h v]
      simp only [flatMap_cons, usesOfBlock, count_append]
      omega
    have hnext : ∀ v, (dceInsts used b₀.insts).1 v =
        (others ++ usesOfBlock (thinned used b₀)).count v + (bs.flatMap usesOfBlock).count v := by
      intro v
      rw [dceInsts_counts hfirst v]
      simp only [usesOfBlock, thinned, count_append]
      omega
    have hblocks : (dceBlocks used (b₀ :: bs)).1 =
        thinned used b₀ :: (dceBlocks (dceInsts used b₀.insts).1 bs).1 := rfl
    rw [hblocks, flatMap_cons, mem_append, not_or]
    cases i with
    | zero =>
      cases hb
      obtain ⟨hothers, hkept⟩ := dceInsts_removed hfirst hsuffix hrem
      simp only [mem_append, not_or] at hothers
      refine ⟨hothers.1.1, ?_, ?_⟩
      · rw [usesOfBlock, mem_append, not_or]
        exact ⟨hkept, hothers.1.2⟩
      · exact fun hmem => hothers.2 (dceBlocks_uses _ _ hmem)
    | succ i =>
      obtain ⟨hothers, hkept⟩ := ih hnext hb hrem
      rw [mem_append, not_or] at hothers
      exact ⟨hothers.1, hothers.2, hkept⟩

/-! ## The simulation -/

variable {W : Type} {vm : Vm W} {U : List Ir.Value}

/-- Two states that differ in registers outside `U` only. -/
structure Agree (U : List Ir.Value) (s t : Ir.State W) : Prop where
  block : s.block = t.block
  handlers : s.handlers = t.handlers
  world : s.world = t.world
  trace : s.trace = t.trace
  regs : ∀ v ∈ U, s.regs v = t.regs v

inductive FlowAgree (U : List Ir.Value) : Flow W → Flow W → Prop
  | next {s t} (h : Agree U s t) : FlowAgree U (.next s) (.next t)
  | raise {s t} (h : Agree U s t) : FlowAgree U (.raise s) (.raise t)
  | stop (r) : FlowAgree U (.stop r) (.stop r)

variable {s t : Ir.State W} {regs regs' : Regs}

theorem Agree.map_regs (h : Agree U s t) {vs : List Ir.Value} (hvs : vs ⊆ U) :
    vs.map s.regs = vs.map t.regs :=
  map_congr_left fun v hv => h.regs v (hvs hv)

theorem Agree.set (h : Agree U s t) (v : Ir.Value) (x : Arth.Value) :
    Agree U (s.set v x) (t.set v x) := by
  refine ⟨h.block, h.handlers, h.world, h.trace, fun u hu => ?_⟩
  by_cases huv : u = v
  · subst huv
    simp [State.set]
  · simp [State.set, huv, h.regs u hu]

theorem Agree.set_unused (h : Agree U s t) {v : Ir.Value} (hv : v ∉ U) (x : Arth.Value) :
    Agree U (s.set v x) t := by
  refine ⟨h.block, h.handlers, h.world, h.trace, fun u hu => ?_⟩
  have huv : u ≠ v := fun he => hv (he ▸ hu)
  simp [State.set, huv, h.regs u hu]

theorem compute_congr (h : ∀ v ∈ inst.kind.uses, regs v = regs' v) (w : W) :
    vm.compute inst regs w = vm.compute inst regs' w := by
  obtain ⟨r, kind⟩ := inst
  cases kind <;> simp_all [Vm.compute, InstKind.uses]

theorem Agree.answer (h : Agree U s t) (e : Event) (v : Option Ir.Value) (a : Answer W) :
    FlowAgree U (s.answer e v a) (t.answer e v a) := by
  cases a with
  | done w x =>
    refine .next ⟨h.block, h.handlers, rfl, congrArg (e :: ·) h.trace, fun u hu => ?_⟩
    cases v with
    | none => exact h.regs u hu
    | some v =>
      by_cases huv : u = v
      · subst huv
        simp
      · simp [huv, h.regs u hu]
  | trap w tr =>
    simp only [State.answer, h.trace]
    exact .stop _
  | raise w => exact .raise ⟨h.block, h.handlers, rfl, congrArg (e :: ·) h.trace, h.regs⟩

theorem Agree.final (h : Agree U s t) (e : Exit) : s.final e = t.final e := by
  simp only [State.final, h.world, h.trace]

theorem Agree.exec (h : Agree U s t) (hU : inst.kind.uses ⊆ U) :
    FlowAgree U (vm.exec s inst) (vm.exec t inst) := by
  unfold Vm.exec
  split
  · exact .next h
  · exact .next ⟨h.block, congrArg (_ :: ·) h.handlers, h.world, h.trace, h.regs⟩
  · exact .next ⟨h.block, congrArg List.tail h.handlers, h.world, h.trace, h.regs⟩
  · rw [compute_congr (fun v hv => h.regs v (hU hv)), h.world, h.map_regs hU]
    split
    · exact .next (h.set _ _)
    · rw [h.final]
      exact .stop _
    · exact h.answer _ _ _

/-- **The table of `side_effect_free` is right**: what is on it changes at most the register
of its result. -/
theorem exec_sideEffectFree (hfree : sideEffectFree inst.kind = true)
    (htrap : ∀ t, vm.compute inst s.regs s.world ≠ some (.error t)) :
    vm.exec s inst = .next s ∨ ∃ x, vm.exec s inst = .next (s.set inst.result x) := by
  obtain ⟨r, kind⟩ := inst
  by_cases hphi : ∃ ops, kind = .phi ops
  · obtain ⟨ops, rfl⟩ := hphi
    exact .inl rfl
  have hsome : ∃ x, vm.compute ⟨r, kind⟩ s.regs s.world = some x := by
    cases kind with
    | phi ops => exact absurd ⟨ops, rfl⟩ hphi
    | _ => first
      | exact ⟨_, rfl⟩
      | cases hfree
  obtain ⟨x, hx⟩ := hsome
  cases x with
  | error e => exact absurd hx (htrap e)
  | ok x =>
    exact .inr ⟨x, exec_compute hx⟩

/-- The run of a block comes to no instruction that traps and is removed. -/
def DropsWell (vm : Vm W) (used : Counts) : List Inst → Ir.State W → Prop
  | [], _ => True
  | inst :: insts, s =>
    (removes (dceInsts used insts).1 inst = true →
      ∀ t, vm.compute inst s.regs s.world ≠ some (.error t)) ∧
    ∀ s', vm.exec s inst = .next s' → DropsWell vm used insts s'

/-- What the scan of a block keeps reads values of `U` only, and what it removes defines
none. -/
structure Thins (U : List Ir.Value) (used : Counts) (insts : List Inst) : Prop where
  kept : usesOf (dceInsts used insts).2.1 ⊆ U
  removed : ∀ inst rest, inst :: rest <:+ insts →
    removes (dceInsts used rest).1 inst = true → inst.result ∉ U

theorem Thins.tail (h : Thins U used (inst :: insts)) : Thins U used insts := by
  refine ⟨?_, fun i rest hsuffix => h.removed i rest (hsuffix.trans (suffix_cons _ _))⟩
  rcases dceInsts_cons used inst insts with ⟨-, -, he⟩ | ⟨-, -, he⟩
  · exact he ▸ h.kept
  · have hk := h.kept
    rw [he, usesOf_cons] at hk
    exact (append_subset.1 hk).2

theorem Thins.execs (hu : Thins U used insts) (h : Agree U s t) (hok : DropsWell vm used insts s) :
    FlowAgree U (vm.execs s insts) (vm.execs t (dceInsts used insts).2.1) := by
  induction insts generalizing s t with
  | nil => exact .next h
  | cons inst insts ih =>
    rcases dceInsts_cons used inst insts with ⟨hrem, -, he⟩ | ⟨-, -, he⟩
    · -- removed: the first machine alone makes a step
      rw [he]
      have hunused := hu.removed inst insts (suffix_refl _) hrem
      have hfree : sideEffectFree inst.kind = true := (Bool.and_eq_true_iff.1 hrem).2
      rcases exec_sideEffectFree hfree (hok.1 hrem) with hexec | ⟨x, hexec⟩
      · rw [execs_next hexec]
        exact ih hu.tail h (hok.2 _ hexec)
      · rw [execs_next hexec]
        exact ih hu.tail (h.set_unused hunused x) (hok.2 _ hexec)
    · rw [he]
      have hk := hu.kept
      rw [he, usesOf_cons] at hk
      have hexec : FlowAgree U (vm.exec s inst) (vm.exec t inst) :=
        h.exec (append_subset.1 hk).1
      have hrest := hok.2
      unfold Vm.execs
      generalize vm.exec s inst = o, vm.exec t inst = o' at hexec hrest
      cases hexec with
      | next h' => exact ih hu.tail h' (hrest _ rfl)
      | raise h' => exact .raise h'
      | stop r => exact .stop r

theorem Thins.assignPhis (hu : Thins U used insts) (src : Ir.Block) {old old' : Regs}
    (hold : ∀ v ∈ U, old v = old' v) (hregs : ∀ v ∈ U, regs v = regs' v) :
    ∀ v ∈ U, Ir.assignPhis src old insts regs v =
      Ir.assignPhis src old' (dceInsts used insts).2.1 regs' v := by
  induction insts generalizing regs regs' with
  | nil => exact hregs
  | cons inst insts ih =>
    rcases dceInsts_cons used inst insts with ⟨hrem, -, he⟩ | ⟨-, -, he⟩
    · rw [he]
      have hunused := hu.removed inst insts (suffix_refl _) hrem
      apply ih hu.tail
      intro v hv
      have hne : v ≠ inst.result := fun heq => hunused (heq ▸ hv)
      cases phiOperand src inst.kind with
      | none => exact hregs v hv
      | some u =>
        rw [elim_some, update_of_ne hne]
        exact hregs v hv
    · rw [he]
      have hk := hu.kept
      rw [he, usesOf_cons] at hk
      apply ih hu.tail
      intro v hv
      cases hphi : phiOperand src inst.kind with
      | none => exact hregs v hv
      | some u =>
        rw [elim_some, elim_some]
        by_cases hvr : v = inst.result
        · subst hvr
          rw [update_self, update_self]
          exact hold u ((append_subset.1 hk).1 (phiOperand_uses hphi))
        · rw [update_of_ne hvr, update_of_ne hvr]
          exact hregs v hv

variable {f : Func}

/-- The values used in what the pass leaves of a function. -/
def leftUses (f : Func) : List Ir.Value := usesOfFunc (dce f).1

theorem dce_getElem? (f : Func) (i : Nat) :
    (dce f).1.blocks[i]? = f.blocks[i]?.map (thinned (countsAt (countUses f) f.blocks i)) :=
  dceBlocks_getElem? _ _ i

theorem dce_thins (hb : f.blocks[i]? = some b) :
    Thins (leftUses f) (countsAt (countUses f) f.blocks i) b.insts := by
  constructor
  · intro v hv
    have hblock : thinned (countsAt (countUses f) f.blocks i) b ∈ (dce f).1.blocks := by
      apply mem_of_getElem? (i := i)
      rw [dce_getElem?, hb]
      rfl
    exact mem_flatMap.2 ⟨_, hblock, mem_append_left _ hv⟩
  · intro inst rest hsuffix hrem
    have hcounts : ∀ v, countUses f v =
        ([] : List Ir.Value).count v + (f.blocks.flatMap usesOfBlock).count v := by
      intro v
      rw [countUses_apply, count_nil, zero_add]
      rfl
    exact (dceBlocks_removed hcounts hb hsuffix hrem).2

theorem dce_term (hb : f.blocks[i]? = some b) : b.term.uses ⊆ leftUses f := by
  intro v hv
  have hblock : thinned (countsAt (countUses f) f.blocks i) b ∈ (dce f).1.blocks := by
    apply mem_of_getElem? (i := i)
    rw [dce_getElem?, hb]
    rfl
  exact mem_flatMap.2 ⟨_, hblock, mem_append_right _ hv⟩

theorem Agree.goto (h : Agree (leftUses f) s t) (dst : Ir.Block) :
    Agree (leftUses f) (s.goto f dst) (t.goto (dce f).1 dst) := by
  refine ⟨rfl, h.handlers, h.world, h.trace, ?_⟩
  simp only [State.goto, Func.insts, dce_getElem?, h.block]
  cases hb : f.blocks[dst]? with
  | none => exact h.regs
  | some b => exact (dce_thins hb).assignPhis t.block h.regs h.regs

/-- Related ends of a turn. -/
abbrev TurnAgree (f : Func) : Ir.State W ⊕ Final W → Ir.State W ⊕ Final W → Prop :=
  Sum.LiftRel (Agree (leftUses f)) Eq

theorem Agree.unwind (h : Agree (leftUses f) s t) :
    TurnAgree f (s.unwind f) (t.unwind (dce f).1) := by
  unfold State.unwind
  rw [← h.handlers]
  cases s.handlers with
  | nil =>
    rw [h.final]
    exact .inr rfl
  | cons b hs =>
    have h' : Agree (leftUses f) { s with handlers := hs } { t with handlers := hs } :=
      ⟨h.block, rfl, h.world, h.trace, h.regs⟩
    exact .inl (h'.goto b)

theorem Agree.branch (h : Agree (leftUses f) s t) (b : Except Trap Ir.Block) :
    TurnAgree f (s.branch f b) (t.branch (dce f).1 b) := by
  cases b with
  | ok b => exact .inl (h.goto b)
  | error e =>
    simp only [State.branch, h.final]
    exact .inr rfl

theorem Agree.leave (h : Agree (leftUses f) s t) {term : Terminator} (hU : term.uses ⊆ leftUses f) :
    TurnAgree f (vm.leave f s term) (vm.leave (dce f).1 t term) := by
  have hopt : ∀ {v : Option Ir.Value}, v.toList ⊆ leftUses f → v.map s.regs = v.map t.regs := by
    intro v hv
    cases v with
    | none => rfl
    | some v => exact congrArg some (h.regs v (hv (by simp)))
  have hmap := h.map_regs hU
  cases term with
  | ret | pollReturn =>
    simp only [Vm.leave, hopt hU, h.final]
    exact .inr rfl
  | br b => exact .inl (h.goto b)
  | condBr cond thenBb elseBb =>
    simp only [Vm.leave, h.regs cond (hU (by simp [Terminator.uses]))]
    exact h.branch _
  | switch scrut default cases =>
    simp only [Vm.leave, h.regs scrut (hU (by simp [Terminator.uses]))]
    exact h.branch _
  | unreachable =>
    simp only [Vm.leave, h.final]
    exact .inr rfl
  | throw | panic =>
    simp only [Vm.leave, hopt hU, hmap, h.world, h.trace]
    exact Agree.unwind ⟨h.block, h.handlers, rfl, rfl, h.regs⟩
  | invoke callee args ret result normal unwind =>
    have hargs : args.map s.regs = args.map t.regs := hmap
    simp only [Vm.leave, hmap, hargs, h.world]
    have hanswer := h.answer (.leave (.invoke callee args ret result normal unwind)
      ((Terminator.invoke callee args ret result normal unwind).uses.map t.regs)) result
      (vm.invoke callee (args.map t.regs) t.world)
    generalize s.answer _ _ _ = o, t.answer _ _ _ = o' at hanswer
    cases hanswer with
    | next h' => exact .inl (h'.goto normal)
    | raise h' => exact h'.unwind
    | stop r => exact .inr rfl

/-- **A thinned block does what the block does**, up to the registers that nothing reads,
if the run of the block comes to no instruction that traps and is removed. -/
theorem dce_turn (h : Agree (leftUses f) s t)
    (hok : DropsWell vm (countsAt (countUses f) f.blocks s.block) (f.insts s.block) s) :
    TurnAgree f (vm.turn f s) (vm.turn (dce f).1 t) := by
  unfold Vm.turn
  rw [← h.block, dce_getElem?]
  cases hb : f.blocks[s.block]? with
  | none =>
    simp only [map_none, h.final]
    exact .inr rfl
  | some b =>
    simp only [Func.insts, hb, map_some, getD_some] at hok ⊢
    have hflow := (dce_thins hb).execs h hok
    simp only [thinned]
    generalize vm.execs s b.insts = o, vm.execs t _ = o' at hflow
    cases hflow with
    | next h' => exact h'.leave (dce_term hb)
    | raise h' => exact h'.unwind
    | stop r => exact .inr rfl

end Arth.Opt
