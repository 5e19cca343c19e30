import Arth.Opt.Dce
import Arth.Opt.Fold

/-!
# The optimiser

* `runSimpleOpts` — rounds of constant folding and dead code elimination.
* `Preserves`: the optimiser returns, and the optimised function does what the function
  does: the same effects with the same operands in every prefix of the run, the same end.
* `preserves_of_harmless`: this holds of every run in which no pass takes a branch that goes
  wrong; `not_preserves_divZero`: it fails on a constant division by zero.
-/

namespace Arth.Opt

open Ir Runs List Option

/-- At most `n` rounds, fewer if one changes nothing. -/
def runRounds : Nat → Func → Option Func
  | 0, f => some f
  | n + 1, f => do
    let (g, folded) ← constFold f
    let (h, removed) := dce g
    if folded || removed then runRounds n h else some h

/-- `run_simple_opts`. -/
def runSimpleOpts (f : Func) : Option Func := runRounds 2 f

variable {W : Type}

/-- What can be seen of a run that has not ended: the effects so far and the world. -/
def seen : Ir.State W ⊕ Final W → (W × List Event) ⊕ Final W :=
  Sum.map (fun s => (s.world, s.trace)) id

/-- The run of a function on some arguments, for at most `n` blocks. -/
def behaviour (vm : Vm W) (f : Func) (args : List Arth.Value) (w : W) (n : Nat) :
    (W × List Event) ⊕ Final W :=
  seen (turns (vm.turn f) n (.initial args w))

/-- Two functions do the same. -/
def Same (vm : Vm W) (f g : Func) (args : List Arth.Value) (w : W) : Prop :=
  ∀ n, behaviour vm f args w n = behaviour vm g args w n

/-- The optimiser returns a function that does the same. -/
def Preserves (vm : Vm W) (f : Func) (args : List Arth.Value) (w : W) : Prop :=
  ∃ g, runSimpleOpts f = some g ∧ Same vm f g args w

/-- The states in which a run enters a block. -/
def Visits (vm : Vm W) (f : Func) (args : List Arth.Value) (w : W) (s : Ir.State W) : Prop :=
  ∃ n, turns (vm.turn f) n (.initial args w) = .inl s

/-- The run executes no fold that goes wrong. -/
def FoldsHarmlessly (vm : Vm W) (f : Func) (args : List Arth.Value) (w : W) : Prop :=
  ∀ s, Visits vm f args w s → FoldsWell vm .empty (f.insts s.block) s

/-- The run comes to no instruction that traps and is removed. -/
def DropsHarmlessly (vm : Vm W) (f : Func) (args : List Arth.Value) (w : W) : Prop :=
  ∀ s, Visits vm f args w s →
    DropsWell vm (countsAt (countUses f) f.blocks s.block) (f.insts s.block) s

/-- No pass of the next `n` rounds takes a branch that goes wrong: none divides the least
integer by `-1`, and in the run no constant is divided by zero, no two constants are
compared, and nothing that traps is removed. -/
def Harmless (vm : Vm W) (args : List Arth.Value) (w : W) : Nat → Func → Prop
  | 0, _ => True
  | n + 1, f =>
    ¬Overflows f ∧ FoldsHarmlessly vm f args w ∧
      ∀ g folded, constFold f = some (g, folded) →
        DropsHarmlessly vm g args w ∧
          ((folded || (dce g).2) = true → Harmless vm args w n (dce g).1)

/-! ## The passes -/

variable {vm : Vm W} {f g h : Func} {args : List Arth.Value} {w : W} {s : Ir.State W}

theorem Same.trans (h₁ : Same vm f g args w) (h₂ : Same vm g h args w) : Same vm f h args w :=
  fun n => (h₁ n).trans (h₂ n)

theorem constFold_same {folded : Bool} (hf : Ssa f) (hfold : constFold f = some (g, folded))
    (hok : FoldsHarmlessly vm f args w) : Same vm f g args w := by
  have hturn : ∀ s t : Ir.State W, s = t → FoldsWell vm .empty (f.insts s.block) s →
      Sum.LiftRel Eq Eq (vm.turn f s) (vm.turn g t) := by
    rintro s _ rfl hwell
    rw [constFold_turn hf hfold hwell]
  intro n
  have hrun := turns_lockstep hturn n (.initial args w) _ rfl fun m s hs => hok s ⟨m, hs⟩
  unfold behaviour
  generalize turns (vm.turn f) n _ = o, turns (vm.turn g) n _ = o' at hrun
  cases hrun with
  | inl h => exact congrArg (seen ∘ .inl) h
  | inr h => exact congrArg (seen ∘ .inr) h

theorem dce_same (hok : DropsHarmlessly vm f args w) : Same vm f (dce f).1 args w := by
  have hturn : ∀ s t : Ir.State W, Agree (leftUses f) s t →
      DropsWell vm (countsAt (countUses f) f.blocks s.block) (f.insts s.block) s →
      TurnAgree f (vm.turn f s) (vm.turn (dce f).1 t) :=
    fun _ _ h hwell => dce_turn h hwell
  have hstart : Agree (leftUses f) (Ir.State.initial args w) (Ir.State.initial args w) :=
    ⟨rfl, rfl, rfl, rfl, fun _ _ => rfl⟩
  intro n
  have hrun := turns_lockstep hturn n _ _ hstart fun m s hs => hok s ⟨m, hs⟩
  unfold behaviour
  generalize turns (vm.turn f) n _ = o, turns (vm.turn (dce f).1) n _ = o' at hrun
  cases hrun with
  | inl h =>
    simp only [seen, Sum.map_inl, h.world, h.trace]
  | inr h => exact congrArg (seen ∘ .inr) h

theorem dce_ssa (hf : Ssa f) : Ssa (dce f).1 := by
  intro b hb
  obtain ⟨i, hi⟩ := mem_iff_getElem?.1 hb
  rw [dce_getElem?] at hi
  obtain ⟨b₀, hb₀, rfl⟩ := map_eq_some_iff.1 hi
  have hssa := hf b₀ (mem_of_getElem? hb₀)
  have hsub := dceInsts_sublist (countsAt (countUses f) f.blocks i) b₀.insts
  exact ⟨hssa.distinct.sublist (hsub.map _), hssa.phisFirst.sublist hsub⟩

theorem runRounds_same (n : Nat) (hf : Ssa f) (hok : Harmless vm args w n f) :
    ∃ g, runRounds n f = some g ∧ Same vm f g args w := by
  induction n generalizing f with
  | zero => exact ⟨f, rfl, fun _ => rfl⟩
  | succ n ih =>
    obtain ⟨hover, hfolds, hnext⟩ := hok
    obtain ⟨⟨g, folded⟩, hfold⟩ :=
      ne_none_iff_exists'.1 fun hnone => hover (constFold_eq_none.1 hnone)
    obtain ⟨hdrops, hrest⟩ := hnext g folded hfold
    have hsame : Same vm f (dce g).1 args w :=
      (constFold_same hf hfold hfolds).trans (dce_same hdrops)
    simp only [runRounds, hfold, bind_eq_bind, bind_some]
    split_ifs with hch
    · obtain ⟨k, hk, hsame'⟩ := ih (dce_ssa (constFold_ssa hf hfold)) (hrest hch)
      exact ⟨k, hk, hsame.trans hsame'⟩
    · exact ⟨(dce g).1, rfl, hsame⟩

/-- **The optimiser preserves behaviour** in every run in which no pass takes a branch that
goes wrong. Where the fold divides the least integer by `-1` there is no optimised function
at all. -/
theorem preserves_of_harmless (hf : Ssa f) : (Harmless vm args w 2 f → Preserves vm f args w) ∧
      (Overflows f → ¬Preserves vm f args w) := by
  refine ⟨runRounds_same 2 hf, ?_⟩
  rintro hover ⟨g, hg, -⟩
  rw [runSimpleOpts, runRounds, constFold_eq_none.2 hover] at hg
  cases hg

/-- A machine for functions that only compute with integers. -/
def integerVm : Vm Unit where
  constStr _ := .str ""
  arith _ _ _ := .error ⟨1, none⟩
  compare _ _ _ := .error ⟨1, none⟩
  concat _ _ := .error ⟨1, none⟩
  look _ _ _ := .ok (.i64 0)
  act _ _ _ := .done () (.i64 0)
  invoke _ _ _ := .done () (.i64 0)
  throw _ _ := ()
  panic _ _ := ()

/-- Two constants, one operator, and the return of its value. -/
def constOp (op : BinOp) (a b : Int64) : Func :=
  ⟨"f", [], .i64,
    [⟨"entry", [⟨1, .constI64 a⟩, ⟨2, .constI64 b⟩, ⟨3, .binary op 1 2⟩], .ret (some 3)⟩], none⟩

theorem constOp_ssa (op : BinOp) (a b : Int64) : Ssa (constOp op a b) := by
  intro blk hblk
  cases mem_singleton.1 hblk
  exact ⟨by simp, by simp [InstKind.isPhi]⟩

def exitOf {W : Type} : (W × List Event) ⊕ Final W → Option Exit
  | .inl _ => none
  | .inr r => some r.exit

theorem not_preserves_divZero : ¬Preserves integerVm (constOp .div 1 0) [] () := by
  rintro ⟨g, hg, hsame⟩
  cases hg
  have hexit := congrArg exitOf (hsame 1)
  cases hexit

theorem visits_once {r : Final W} (hend : vm.turn f (.initial args w) = .inr r)
    (hs : Visits vm f args w s) : s = .initial args w := by
  obtain ⟨n, hn⟩ := hs
  cases n with
  | zero =>
    cases hn
    rfl
  | succ n =>
    rw [turns, hend] at hn
    cases hn

theorem dropsWell_constI64 {used : Counts} {insts : List Inst}
    (h : ∀ inst ∈ insts, ∃ n, inst.kind = .constI64 n) : DropsWell vm used insts s := by
  induction insts generalizing s with
  | nil => trivial
  | cons inst insts ih =>
    obtain ⟨n, hn⟩ := h inst mem_cons_self
    refine ⟨fun _ t ht => ?_, fun s' _ => ih fun i hi => h i (mem_cons_of_mem _ hi)⟩
    rw [Vm.compute, hn] at ht
    cases ht

/-- The function of the unit test, `4 + 2`: both rounds fold and remove, and the optimised
function returns 6 as the function does. -/
theorem preserves_add : Preserves integerVm (constOp .add 4 2) [] () := by
  apply (preserves_of_harmless (constOp_ssa .add 4 2)).1
  refine ⟨fun h => ?_, fun s hs => ?_, fun g folded hg => ?_⟩
  · cases constFold_eq_none.2 h
  · cases visits_once (r := ⟨.returned (some (.i64 6)), (), []⟩) rfl hs
    exact ⟨rfl, fun _ _ => ⟨rfl, fun _ _ => ⟨rfl, fun _ _ => trivial⟩⟩⟩
  · cases hg
    refine ⟨fun s hs => ?_, fun _ => ⟨fun h => ?_, fun s hs => ?_, fun g' folded' hg' => ?_⟩⟩
    · cases visits_once (r := ⟨.returned (some (.i64 6)), (), []⟩) rfl hs
      exact dropsWell_constI64 (by simp [Func.insts, Ir.State.initial])
    · cases constFold_eq_none.2 h
    · cases visits_once (r := ⟨.returned (some (.i64 6)), (), []⟩) rfl hs
      exact ⟨rfl, fun _ _ => trivial⟩
    · cases hg'
      refine ⟨fun s hs => ?_, fun _ => trivial⟩
      cases visits_once (r := ⟨.returned (some (.i64 6)), (), []⟩) rfl hs
      exact dropsWell_constI64 (by simp [Func.insts, Ir.State.initial])

end Arth.Opt
