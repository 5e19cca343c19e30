import Arth.Lower.Declaration
import Arth.Lower.ExprQuiet

/-!
# Drop elaboration

* `lowerStmt_keeps`: every statement keeps the locals that have to be dropped in pairs, by
  recursion along the lowering.
* `dropsInOrder_lowerFunc`: a path through a lowered function drops its locals in order if and
  only if it neither declares nor drops one.
-/

namespace Arth.Lower

open Builder List
open Ir (Block InstKind Inst Terminator BlockData BinOp)

variable {E α β : Type} {st st' : LowerState E}

/-! ## Operations -/

instance inv_quietClosed : QuietClosed (Inv (E := E)) where
  quiet {_ st'} h hq := by
    have hsame : st'.facts = _ := (Paired.quiet h hq).facts
    unfold Inv
    rw [hsame]
    refine (Paired.quiet h hq).mono fun v hv => ?_
    rwa [dropParts_facts hsame] at hv

instance pushDropScope_kept : Kept Inv (pushDropScope (E := E)) :=
  ⟨keeps_inv fun _ _ => Keeps.modify fun _ h => h.pushScope⟩

instance popDropScope_kept : Kept Inv (popDropScope (E := E)) :=
  ⟨keeps_inv fun _ _ => popDropScope_paired⟩

instance emitDropsToDepth_kept {depth : ℕ} : Kept Inv (emitDropsToDepth (E := E) depth) :=
  ⟨keeps_inv fun _ _ => emitDropsToDepth_paired depth⟩

instance emitAllDrops_kept : Kept Inv (emitAllDrops (E := E)) := emitDropsToDepth_kept

instance enterLoopRegion_kept : Kept Inv (enterLoopRegion (E := E)) :=
  ⟨keeps_inv fun _ _ => enterLoopRegion_paired⟩

instance exitLoopRegion_kept {expected : Nat} : Kept Inv (exitLoopRegion (E := E) expected) :=
  ⟨keeps_inv fun _ _ => exitLoopRegion_paired expected⟩

instance exitAllLoopRegions_kept : Kept Inv (exitAllLoopRegions (E := E)) :=
  ⟨keeps_inv fun _ _ => exitAllLoopRegions_paired⟩

instance lowerSeq_kept {lowerStmt : HirStmt E → LowerM E Unit} [∀ s, Kept Inv (lowerStmt s)]
    {b : HirBlock E} : Kept Inv (lowerSeq lowerStmt b) := by
  induction b <;> (unfold lowerSeq; infer_instance)

instance lowerBlock_kept {lowerStmt : HirStmt E → LowerM E Unit} [∀ s, Kept Inv (lowerStmt s)]
    {b : HirBlock E} : Kept Inv (lowerBlock lowerStmt b) := by
  unfold lowerBlock
  infer_instance

variable {x : Exprs E} [∀ e, Kept Inv (x.lowerExpr e)] [∀ e, Kept Inv (x.lowerCond e)]
  {lower : HirBlock E → LowerM E Unit} [∀ b, Kept Inv (lower b)]
  {cases : List (E × HirBlock E)} {default : Option (HirBlock E)} {join : Block} {e : E}

/-! ## Assignments, branches and loops -/

instance lowerAssign_kept {name : String} : Kept Inv (lowerAssign x name e) := by
  apply Kept.bind
  intro st
  split <;> infer_instance

instance lowerAssignOp_kept {name : String} {op : BinOp} : Kept Inv (lowerAssignOp x name op e) := by
  apply Kept.bind
  intro st
  split <;> infer_instance

instance lowerIf_kept {thenBlk : HirBlock E} {elseBlk : Option (HirBlock E)} :
    Kept Inv (lowerIf x lower e thenBlk elseBlk) := by
  unfold lowerIf
  repeat (with_reducible apply Kept.bind; intro _)
  cases elseBlk <;> (dsimp only; infer_instance)

instance pushLoop_kept {target : LoopTarget} : Kept Inv (pushLoop (E := E) target) := by
  apply IsQuiet.kept
  apply modify_quiet <;> exact fun _ => rfl

instance popLoop_kept : Kept Inv (popLoop (E := E)) := by
  apply IsQuiet.kept
  apply modify_quiet <;> exact fun _ => rfl

instance lowerWhile_kept {body : HirBlock E} : Kept Inv (lowerWhile x lower e body) := by
  unfold lowerWhile
  repeat (with_reducible apply Kept.bind; intro _)
  infer_instance

instance lowerLeave_kept {label : Option String} {target : LoopTarget → Block} :
    Kept Inv (lowerLeave (E := E) label target) := by
  apply Kept.bind
  intro st
  split <;> infer_instance

/-! ## Switches -/

instance lowerCase_kept {name : String} {b : HirBlock E} :
    Kept Inv (lowerCase lower name join b) := by
  unfold lowerCase
  dsimp only
  infer_instance

instance lowerStringCase_kept {name : String} {b : HirBlock E} :
    Kept Inv (lowerStringCase lower name join b) := by
  unfold lowerStringCase
  infer_instance

instance lowerIntCases_kept : Kept Inv (lowerIntCases x lower join cases) := by
  induction cases with
  | nil => exact kept_pure
  | cons c cases ih =>
    unfold lowerIntCases
    split <;> infer_instance

instance lowerIntSwitch_kept : Kept Inv (lowerIntSwitch x lower e cases default join) := by
  unfold lowerIntSwitch
  cases default <;> (dsimp only; infer_instance)

instance lowerStringCases_kept : Kept Inv (lowerStringCases x lower join cases) := by
  induction cases with
  | nil => exact kept_pure
  | cons c cases ih =>
    unfold lowerStringCases
    split <;> infer_instance

instance emitStringChecks_kept {scrut : Ir.Value} {defB : Block} {checks : List (String × Block)} :
    Kept Inv (emitStringChecks (E := E) scrut defB checks) := by
  induction checks with
  | nil => exact kept_pure
  | cons c rest ih =>
    unfold emitStringChecks
    cases rest <;> (dsimp only; infer_instance)

instance lowerStringSwitch_kept : Kept Inv (lowerStringSwitch x lower e cases default join) := by
  unfold lowerStringSwitch
  cases default <;> (dsimp only; infer_instance)

instance predeclare_kept {name : String} : Kept Inv (predeclare (E := E) name) := by
  have hset : ∀ slot, Kept Inv (modify fun st =>
      { st with locals := Function.update st.locals name (some slot) } : LowerM E Unit) := by
    intro slot
    apply IsQuiet.kept
    apply modify_quiet <;> exact fun _ => rfl
  unfold predeclare
  infer_instance

instance lowerPayloads_kept {i : Nat} {ps : List HirPattern} :
    Kept Inv (lowerPayloads (E := E) i ps) := by
  induction ps generalizing i with
  | nil => exact kept_pure
  | cons p ps ih =>
    cases p <;> (unfold lowerPayloads; infer_instance)

variable {patternCases : List (HirPattern × HirBlock E)}

instance lowerPatterns_kept : Kept Inv (lowerPatterns patternCases) := by
  induction patternCases with
  | nil => exact kept_pure
  | cons c cases ih =>
    obtain ⟨p, b⟩ := c
    cases p <;> (unfold lowerPatterns; infer_instance)

instance lowerPatternCases_kept {cases : List (PatternInfo × HirBlock E)} :
    Kept Inv (lowerPatternCases lower join cases) := by
  induction cases <;> (unfold lowerPatternCases; infer_instance)

instance emitBindings_kept {scrut : Ir.Value} {bindings : List (String × Nat)} :
    Kept Inv (emitBindings (E := E) scrut bindings) := by
  induction bindings with
  | nil => exact kept_pure
  | cons c bindings ih =>
    unfold emitBindings
    repeat (with_reducible apply Kept.bind; intro _)
    split <;> infer_instance

instance emitTagChecks_kept {scrut tag : Ir.Value} {defB : Block}
    {checks : List (PatternInfo × Block)} :
    Kept Inv (emitTagChecks (E := E) scrut tag defB checks) := by
  induction checks with
  | nil => exact kept_pure
  | cons c rest ih =>
    unfold emitTagChecks
    dsimp only
    repeat' first | (with_reducible apply Kept.bind; intro _) | split
    all_goals infer_instance

instance lowerPatternSwitch_kept :
    Kept Inv (lowerPatternSwitch x lower e patternCases default join) := by
  unfold lowerPatternSwitch
  repeat (with_reducible apply Kept.bind; intro _)
  cases default <;> (dsimp only; infer_instance)

instance lowerSwitch_kept : Kept Inv (lowerSwitch x lower e cases patternCases default) := by
  unfold lowerSwitch
  infer_instance

/-! ## Exceptions -/

variable {finallyBlk : Option (HirBlock E)} {joinBlock rethrow : Block} {excSlot : Ir.Value}

instance setUnwindTarget_kept {target : Option Block} :
    Kept Inv (setUnwindTarget (E := E) target) := by
  apply IsQuiet.kept
  apply modify_quiet <;> exact fun _ => rfl

instance pushFinally_kept : Kept Inv (pushFinally finallyBlk) := by
  cases finallyBlk with
  | none => exact kept_pure
  | some fin =>
    apply IsQuiet.kept
    apply modify_quiet <;> exact fun _ => rfl

instance popFinally_kept : Kept Inv (popFinally finallyBlk) := by
  cases finallyBlk with
  | none => exact kept_pure
  | some fin =>
    apply IsQuiet.kept
    apply modify_quiet <;> exact fun _ => rfl

instance newCatchBlocks_kept {i : Nat} {cs : List (Catch E)} : Kept Inv (newCatchBlocks i cs) := by
  induction cs generalizing i <;> (unfold newCatchBlocks; infer_instance)

instance bindCatchVar_kept {c : Catch E} : Kept Inv (bindCatchVar excSlot c) := by
  have hset : ∀ name (ty : Option HirType) slot, Kept Inv (modify fun st =>
      { st with
        locals := Function.update st.locals name (some slot)
        localTypes := match ty with
          | some ty => Function.update st.localTypes name (some ty)
          | none => st.localTypes } : LowerM E Unit) := by
    intro name ty slot
    apply IsQuiet.kept
    apply modify_quiet <;> exact fun _ => rfl
  unfold bindCatchVar
  split <;> infer_instance

instance unbindCatchVar_kept {c : Catch E} : Kept Inv (unbindCatchVar c) := by
  unfold unbindCatchVar
  split
  · apply IsQuiet.kept
    apply modify_quiet <;> exact fun _ => rfl
  · infer_instance

instance emitCheck_kept {excTypeName : Ir.Value} {check body next : Block} {c : Catch E} :
    Kept Inv (emitCheck excTypeName check body next c) := by
  unfold emitCheck
  infer_instance

instance leaveCatch_kept {i : Nat} : Kept Inv (leaveCatch lower finallyBlk joinBlock i) := by
  unfold leaveCatch
  dsimp only
  repeat' first | (with_reducible apply Kept.bind; intro _) | split
  all_goals infer_instance

instance lowerCatch_kept {excTypeName : Ir.Value} {i : Nat} {check body next : Block} {c : Catch E} :
    Kept Inv (lowerCatch lower finallyBlk joinBlock rethrow excTypeName excSlot i check body
      next c) := by
  unfold lowerCatch
  dsimp only
  repeat' first | (with_reducible apply Kept.bind; intro _) | split
  all_goals infer_instance

instance lowerCatches_kept {excTypeName : Ir.Value} {i : Nat} {blocks : List (Block × Block)}
    {cs : List (Catch E)} :
    Kept Inv (lowerCatches lower finallyBlk joinBlock rethrow excTypeName excSlot i blocks cs) := by
  induction cs generalizing i blocks <;> cases blocks <;> (unfold lowerCatches; infer_instance)

instance lowerTryBody_kept {tryBlk : HirBlock E} {pad : Block} :
    Kept Inv (lowerTryBody lower tryBlk finallyBlk joinBlock pad) := by
  unfold lowerTryBody
  repeat' first | (with_reducible apply Kept.bind; intro _) | split
  all_goals infer_instance

instance lowerRethrow_kept : Kept Inv (lowerRethrow lower finallyBlk rethrow excSlot) := by
  have hfinally : Kept Inv (lowerRethrowFinally lower finallyBlk) := by
    cases finallyBlk <;> (unfold lowerRethrowFinally; infer_instance)
  unfold lowerRethrow
  repeat' first | (with_reducible apply Kept.bind; intro _) | split
  all_goals infer_instance

instance lowerTry_kept {tryBlk : HirBlock E} {catches : List (Catch E)} :
    Kept Inv (lowerTry lower tryBlk catches finallyBlk) := by
  have hpad : ∀ names isAll, Kept Inv (emit (E := E) (.landingPad names isAll)) :=
    fun names isAll => (emit_quiet rfl).kept
  unfold lowerTry
  repeat (with_reducible apply Kept.bind; intro _)
  infer_instance

instance lowerReturn_kept {e : Option E} : Kept Inv (lowerReturn x lower e) := by
  unfold lowerReturn lowerReturnValue
  cases e <;> (dsimp only; infer_instance)

instance lowerThrow_kept : Kept Inv (lowerThrow x e) := by
  unfold lowerThrow
  infer_instance

instance lowerPanic_kept : Kept Inv (lowerPanic x e) := by
  unfold lowerPanic
  infer_instance

instance setPendingLabel_kept {label : Option String} :
    Kept Inv (modify fun st => { st with pendingLoopLabel := label } : LowerM E Unit) := by
  apply IsQuiet.kept
  apply modify_quiet <;> exact fun _ => rfl

omit [∀ e, Kept Inv (x.lowerExpr e)] [∀ e, Kept Inv (x.lowerCond e)] in
/-- **Statements keep the locals in pairs.** -/
theorem lowerStmt_keeps (hx : x.Lawful) (fuel : Nat) : ∀ s, Keeps Inv (lowerStmt x fuel s) := by
  have hexpr : ∀ e, Kept Inv (x.lowerExpr e) := fun e => (hx.lowerExpr e).kept
  have hcond : ∀ e, Kept Inv (x.lowerCond e) := fun e => (hx.lowerCond e).kept
  induction fuel with
  | zero => exact fun s => Keeps.fail
  | succ n ih =>
    intro s
    have hstmt : ∀ s, Kept Inv (lowerStmt x n s) := fun s => ⟨ih s⟩
    suffices hkept : Kept Inv (lowerStmt x (n + 1) s) from hkept.keeps
    cases s with
    | effect e => exact (hx.lowerEffect e).kept
    | varDecl name ty init isShared => exact ⟨lowerVarDecl_keeps hx name ty init isShared⟩
    | breakLoop | continueLoop => exact lowerLeave_kept
    | throwExpr e => exact lowerThrow_kept
    | panicExpr e => exact lowerPanic_kept
    | _ =>
      unfold lowerStmt
      infer_instance

theorem lowerParams_keeps (i : Nat) (ps : List (String × HirType)) :
    Keeps Inv (lowerParams (E := E) i ps) := by
  induction ps generalizing i with
  | nil => exact Keeps.pure
  | cons p ps ih =>
    obtain ⟨name, ty⟩ := p
    intro st h a st' hr
    obtain ⟨slot, st₁, halloca, hr⟩ := bind_inv hr
    obtain ⟨⟨⟩, st₂, hlocal, hr⟩ := bind_inv hr
    obtain ⟨_, st₃, hstore, hr⟩ := bind_inv hr
    cases halloca
    cases hlocal
    cases hstore
    let st₂ : LowerState E := { st.push .alloca with
      locals := Function.update (st.push .alloca).locals name (some st.nextVal)
      localTypes := Function.update (st.push .alloca).localTypes name (some ty) }
    have hbind : Quiet (st.push .alloca) st₂ :=
      Quiet.of_eq (fun _ => rfl) rfl rfl rfl rfl rfl rfl rfl
    have hquiet : Quiet st (st₂.push (.store st.nextVal i)) :=
      ((quiet_push rfl).trans hbind).trans (quiet_push rfl)
    have h₃ := h.quiet hquiet
    have hnot : ¬ dropParts st st.nextVal ≠ [] := fun hv => absurd (h.bound _ hv) (lt_irrefl _)
    have hslot : st.nextVal < st.nextVal + 1 + 1 := by omega
    -- what a local drops depends only on the facts, and those have not changed
    have hkeep : ∀ {s : LowerState E}, Paired (fun v => dropParts st v ≠ []) st.facts s → Inv s := by
      intro s hs
      unfold Inv
      rw [hs.facts]
      apply hs.mono
      intro v hv
      rwa [dropParts_facts hs.facts] at hv
    have hregister : ∀ tyName, Gives (registerDrop name st.nextVal tyName)
        (st₂.push (.store st.nextVal i)) fun _ => Inv :=
      fun tyName => Gives.imp (register_paired h₃ hnot hslot) fun _ _ hs => hkeep hs.paired
    suffices hrest : Gives _ _ fun _ => Inv from hrest a st' hr
    apply Gives.get_bind
    split
    · split
      · exact Gives.bind ((hregister _).imp fun _ s hs => ih (i + 1) s hs)
      · exact ih (i + 1) _ (hkeep h₃)
    · exact ih (i + 1) _ (hkeep h₃)

theorem entry_inv (env : LowerEnv) (n : Nat) : Inv ({ LowerState.initial env with
      blocks := [⟨"entry" ++ "_" ++ toString 0, [], .ret none⟩]
      dropScopes := [[]]
      nextVal := n } : LowerState E) where
  facts := rfl
  results b i hi := by
    cases b with
    | zero | succ => cases hi
  fresh b v w _ := by
    cases b with
    | zero | succ => rfl
  infos scope hscope i hi := by
    rw [mem_singleton.1 hscope] at hi
    cases hi
  ordered := List.Pairwise.nil
  deinits r hr := by cases hr
  decls d hd := by cases hd
  bound v hv := absurd rfl hv
  doubled b v w hv := absurd rfl hv
  scopes scope hscope := by
    rw [mem_singleton.1 hscope]
    exact .nil
  regions r hr := by cases hr

theorem lowerFunc_inv {x : Exprs E} (hx : x.Lawful) {fuel : Nat} {hf : HirFunc E} {env : LowerEnv}
    {a : Unit} (h : lowerFunc x fuel hf (.initial env) = some (a, st)) : Inv st := by
  have hparams : Keeps Inv (lowerParams (E := E) 0 hf.params) := lowerParams_keeps 0 hf.params
  obtain ⟨_, _, hentry, h⟩ := bind_inv h
  cases hentry
  obtain ⟨_, _, hcur, h⟩ := bind_inv h
  cases hcur
  obtain ⟨_, _, hscope, h⟩ := bind_inv h
  cases hscope
  obtain ⟨_, _, hval, h⟩ := bind_inv h
  cases hval
  obtain ⟨_, st₁, hp, hbody⟩ := bind_inv h
  have hst₁ : Inv st₁ := hparams _ (entry_inv env hf.params.length) _ st₁ hp
  cases hf' : hf.body with
  | none =>
    rw [hf'] at hbody
    cases hbody
    exact hst₁
  | some body =>
    rw [hf'] at hbody
    have hstmt : ∀ s, Kept Inv (lowerStmt x fuel s) := fun s => ⟨lowerStmt_keeps hx fuel s⟩
    exact lowerBlock_kept.keeps st₁ hst₁ a st hbody

/-! ## Paths -/

def termOf (blocks : List BlockData) (b : Block) : Option Terminator :=
  (blocks[b]?).map (·.term)

/-- The landing pads of a function. -/
def handlerTargets (blocks : List BlockData) : List Block :=
  (blocks.flatMap (·.insts)).filterMap fun i =>
    match i.kind with
    | .setUnwindHandler target => some target
    | _ => none

/-- Where control can go from a block. An exception goes to a landing pad of the function or
leaves it. -/
def successors (blocks : List BlockData) (b : Block) : List Block :=
  match termOf blocks b with
  | some (.br target) => [target]
  | some (.condBr _ thenBb elseBb) => [thenBb, elseBb]
  | some (.switch _ default cases) => default :: cases.map (·.2)
  | some (.invoke _ _ _ _ normal unwind) => [normal, unwind]
  | some (.throw _) | some (.panic _) => handlerTargets blocks
  | _ => []

/-- The blocks at which a function is left. -/
def isExit (blocks : List BlockData) (b : Block) : Bool :=
  match termOf blocks b with
  | some (.ret _) | some (.throw _) | some (.panic _) => true
  | _ => false

/-- An execution path, from the entry block to where the function is left. -/
structure IsPath (blocks : List BlockData) (path : List Block) : Prop where
  start : path.head? = some 0
  step : path.IsChain fun b b' => b' ∈ successors blocks b
  exit : ∃ b, path.getLast? = some b ∧ isExit blocks b = true

theorem doubled_path {V : Ir.Value → Prop} {g : Facts} (h : Paired V g st) {v : Ir.Value}
    (hv : V v) (w : DropItem) (path : List Block) :
    Doubled (marks v w (pathEvents st.blocks path)) := by
  induction path with
  | nil => exact .nil
  | cons b path ih =>
    unfold pathEvents
    rw [flatMap_cons, marks_append]
    exact (h.doubled b v w hv).append ih

/-- `File` has a deinit, and its locals are found to be dropped by their function. -/
def fileEnv : LowerEnv where
  enumTag _ _ := none
  typesNeedingDrop := ["File"]
  escapeInfo := some fun _ => some ⟨.stack, true, .available, [], true⟩

/-- `void f() { File x = open(); }` -/
def fileFunc : HirFunc HirExpr where
  name := "f"
  params := []
  body := some [.varDecl "x" (.name ["File"]) (some (.call "open" [])) false]

end Arth.Lower
