import Arth.Lower.Expr
import Arth.Lower.Quiet

/-!
# Expressions are lowered quietly

`hirExprs_lawful`: the lowering of expressions drops nothing. What it registers are values
that foreign functions hand over, in slots of their own.
-/

namespace Arth.Lower

open Builder List
open Ir (Block InstKind Inst Terminator BlockData)

variable {st st' : LowerState HirExpr} {externFuncs : String → Option ExternSig}

theorem Quiet.owned {info : DropInfo} (h : Quiet st st') (howned : Owned info)
    (hlo : st.nextVal ≤ info.slot) (hhi : info.slot < st'.nextVal)
    (horder : info.declOrder = st'.declOrderCounter) : Quiet st { st' with
      declOrderCounter := st'.declOrderCounter + 1
      dropScopes := addInfos [info] st'.dropScopes } where
  nextVal := h.nextVal
  declOrder := h.declOrder.trans (Nat.le_succ _)
  insts := h.insts
  dropScopes := by
    obtain ⟨infos, heq, hsorted, hinfos⟩ := h.dropScopes
    refine ⟨infos ++ [info], ?_, ?_, ?_⟩
    · rw [heq, addInfos_addInfos]
    · apply pairwise_append.2 ⟨hsorted, pairwise_singleton _ _, ?_⟩
      intro i hi j hj
      rw [mem_singleton.1 hj, horder]
      exact (hinfos i hi).2.2.2.2
    · intro i hi
      rcases mem_append.1 hi with hi | hi
      · obtain ⟨ho, h₁, h₂, h₃, h₄⟩ := hinfos i hi
        exact ⟨ho, h₁, h₂, h₃, Nat.lt_succ_of_lt h₄⟩
      · rw [mem_singleton.1 hi]
        refine ⟨howned, hlo, hhi, ?_, ?_⟩
        · rw [horder]
          exact h.declOrder
        · rw [horder]
          exact Nat.lt_succ_self _
  loopRegions := h.loopRegions
  typesNeedingDrop := h.typesNeedingDrop
  escapeInfo := h.escapeInfo
  decls := h.decls

theorem registerFfiOwnedDrop_eq (name : String) (slot : Ir.Value) (tyName : String) :
    registerFfiOwnedDrop name slot tyName st = some ((), { st with
        declOrderCounter := st.declOrderCounter + 1
        dropScopes := addInfos
          [{ name, slot, tyName
             declOrder := st.declOrderCounter
             allocStrategy := .stack
             moveState := .available
             dropFlagSlot := none
             fieldDropInfo := []
             hasExplicitDeinit := true }] st.dropScopes }) := by
  exact addDropInfo_eq _

variable {I : LowerState HirExpr → Prop} [QuietClosed I]

instance lowerIdent_kept {name : String} : Kept I (lowerIdent name) := by
  apply Kept.bind
  intro st
  split <;> infer_instance

theorem ownedResult_quiet (name : String) (args : List Ir.Value) (sig : ExternSig) :
    IsQuiet (E := HirExpr) (do
      let result ← emit (.externCall name args sig.params sig.ret)
      let slot ← emit .alloca
      let _ ← emit (.store slot result)
      registerFfiOwnedDrop ("__ffi_owned_" ++ name ++ "_" ++ toString result) slot
        (sig.retTypeName.getD "FFI")
      emit (.load slot)) := by
  intro st a st' hr
  obtain ⟨result, st₁, hcall, hr⟩ := bind_inv hr
  obtain ⟨slot, st₂, halloca, hr⟩ := bind_inv hr
  obtain ⟨_, st₃, hstore, hr⟩ := bind_inv hr
  obtain ⟨⟨⟩, st₄, hregister, hload⟩ := bind_inv hr
  cases hcall
  cases halloca
  cases hstore
  cases hregister
  cases hload
  have hquiet : Quiet st (((st.push (.externCall name args sig.params sig.ret)).push .alloca).push
      (.store (st.nextVal + 1) st.nextVal)) :=
    ((quiet_push rfl).trans (quiet_push rfl)).trans (quiet_push rfl)
  refine Quiet.trans (hquiet.owned ⟨rfl, rfl, rfl⟩ ?_ ?_ rfl) (quiet_push rfl)
  · exact Nat.le_succ _
  · exact Nat.lt_succ_of_lt (Nat.lt_succ_self _)

theorem freshValue_quiet : IsQuiet (E := HirExpr) freshValue := by
  intro st a st' hr
  cases hr
  exact ⟨Nat.le_succ _, le_rfl, fun b => ⟨[], by rw [append_nil], by simp⟩,
    ⟨[], by rw [addInfos_nil], by simp, by simp⟩, rfl, rfl, rfl, rfl⟩

instance lowerCall_kept {name : String} {args : List Ir.Value} :
    Kept I (lowerCall externFuncs name args) := by
  have hfresh : Kept I (freshValue (E := HirExpr)) := freshValue_quiet.kept
  apply Kept.bind
  intro st
  split
  · infer_instance
  · split
    · rename_i sig _
      have hcall : Kept I (emit (E := HirExpr) (.externCall name args sig.params sig.ret)) :=
        (emit_quiet rfl).kept
      by_cases howned : (sig.returnOwned && decide (sig.ret ≠ .void)) = true
      · simp only [howned, if_true]
        exact (ownedResult_quiet name args sig).kept
      · simp only [howned, Bool.false_eq_true, if_false]
        infer_instance
    · split <;> infer_instance

section

variable {left right third : LowerM HirExpr Ir.Value} [Kept I left] [Kept I right] [Kept I third]

instance lowerAnd_kept : Kept I (lowerAnd left right) := by
  unfold lowerAnd
  repeat (with_reducible apply Kept.bind; intro _)
  infer_instance

instance lowerOr_kept : Kept I (lowerOr left right) := by
  unfold lowerOr
  repeat (with_reducible apply Kept.bind; intro _)
  infer_instance

instance lowerConditional_kept : Kept I (lowerConditional third left right) := by
  unfold lowerConditional
  repeat (with_reducible apply Kept.bind; intro _)
  infer_instance

instance binaryKind_dropsNothing {isString : Bool} {l r : Ir.Value} {op : HirBinOp} :
    DropsNothing (binaryKind isString l r op) :=
  ⟨by cases op <;> first | rfl | (cases isString <;> rfl)⟩

instance lowerBinary_kept {op : HirBinOp} {isString : (String → Option HirType) → Bool} :
    Kept I (lowerBinary left right (fun isString l r => binaryKind isString l r op) isString) := by
  unfold lowerBinary
  infer_instance

instance lowerUnary_kept {op : HirUnOp} : Kept I (lowerUnary left op) := by
  cases op <;> (unfold lowerUnary; infer_instance)

instance orNonZero_kept {asCond : Bool} : Kept I (orNonZero asCond left) := by
  unfold orNonZero lowerNonZero
  infer_instance

end

mutual

theorem lowerAs_kept (externFuncs : String → Option ExternSig) (asCond : Bool) (e : HirExpr) :
    Kept I (lowerAs externFuncs asCond e) := by
  cases e with
  | int | str | ident => exact orNonZero_kept
  | bool value => cases asCond <;> exact emit_kept
  | conditional cond thenExpr elseExpr =>
    have hc : Kept I (lowerAs externFuncs true cond) := lowerAs_kept externFuncs true cond
    have ht : Kept I (lowerAs externFuncs false thenExpr) := lowerAs_kept externFuncs false thenExpr
    have he : Kept I (lowerAs externFuncs false elseExpr) := lowerAs_kept externFuncs false elseExpr
    exact orNonZero_kept
  | binary op left right =>
    have hl : ∀ asCond, Kept I (lowerAs externFuncs asCond left) :=
      fun asCond => lowerAs_kept externFuncs asCond left
    have hr : ∀ asCond, Kept I (lowerAs externFuncs asCond right) :=
      fun asCond => lowerAs_kept externFuncs asCond right
    cases asCond with
    | false => cases op <;> exact lowerBinary_kept
    | true =>
      cases op with
      | and => exact lowerAnd_kept
      | or => exact lowerOr_kept
      | _ => exact lowerBinary_kept
  | unary op expr =>
    have hexpr : Kept I (lowerAs externFuncs false expr) := lowerAs_kept externFuncs false expr
    cases asCond <;> exact lowerUnary_kept
  | call name args =>
    have hargs : Kept I (lowerArgs externFuncs args) := lowerArgs_kept externFuncs args
    exact orNonZero_kept

theorem lowerArgs_kept (externFuncs : String → Option ExternSig) (es : List HirExpr) :
    Kept I (lowerArgs externFuncs es) := by
  cases es with
  | nil => exact kept_pure
  | cons e es =>
    have he : Kept I (lowerAs externFuncs false e) := lowerAs_kept externFuncs false e
    have hes : Kept I (lowerArgs externFuncs es) := lowerArgs_kept externFuncs es
    exact kept_bind

end

/-- **Expressions are lowered quietly.** -/
theorem hirExprs_lawful : (hirExprs externFuncs).Lawful where
  lowerExpr e := isQuiet_of_kept fun _ => lowerAs_kept externFuncs false e
  lowerCond e := isQuiet_of_kept fun _ => lowerAs_kept externFuncs true e
  lowerEffect e := IsQuiet.bind (isQuiet_of_kept fun _ => lowerAs_kept externFuncs false e)
    fun _ => IsQuiet.pure ()

end Arth.Lower
