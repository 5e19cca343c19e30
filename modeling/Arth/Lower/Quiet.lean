import Arth.Lib.Builder
import Arth.Lower.Stmt

/-!
# What the lowering of an expression leaves alone

* `Quiet st st'`: on the way from `st` to `st'` no drop was emitted. Blocks only grew, by
  fresh results, and the innermost drop scope only got values that foreign code hands over.
* `Exprs.Lawful`: an expression is lowered quietly. Statements are not, and what they emit is
  the subject of the modules after this one.
-/

namespace Arth.Lower

open Builder List
open Ir (Block InstKind Inst Terminator BlockData)

variable {E : Type} {st st' st₁ : LowerState E}

/-- The instructions that drop nothing. -/
def dropsNothing : InstKind → Bool
  | .drop .. | .condDrop .. | .fieldDrop .. | .regionExit .. => false
  | _ => true

/-- The instructions of a block, none if there is no such block. -/
def blockInsts (blocks : List BlockData) (b : Block) : List Inst :=
  ((blocks[b]?).map (·.insts)).getD []

abbrev LowerState.insts (st : LowerState E) (b : Block) : List Inst := blockInsts st.blocks b

/-- The state after `emit`. -/
def LowerState.push (st : LowerState E) (kind : InstKind) : LowerState E :=
  { st with
    nextVal := st.nextVal + 1
    blocks := st.blocks.modify st.cur fun b =>
      { b with insts := b.insts ++ [Inst.mk st.nextVal kind] } }

theorem emit_eq (kind : InstKind) : emit kind st = some (st.nextVal, st.push kind) := rfl

theorem blockInsts_append_new (blocks : List BlockData) (name : String) (t : Terminator)
    (b : Block) : blockInsts (blocks ++ [⟨name, [], t⟩]) b = blockInsts blocks b := by
  unfold blockInsts
  rcases Nat.lt_trichotomy b blocks.length with hb | hb | hb
  · rw [getElem?_append_left hb]
  · subst hb
    simp
  · rw [getElem?_eq_none (by simp; omega), getElem?_eq_none (by omega)]

theorem blockInsts_modify_term (blocks : List BlockData) (c b : Block) (t : Terminator) :
    blockInsts (blocks.modify c fun blk => { blk with term := t }) b = blockInsts blocks b := by
  unfold blockInsts
  rw [getElem?_modify]
  cases blocks[b]? with
  | none => rfl
  | some blk =>
    by_cases hc : c = b
    · simp [hc]
    · simp [hc]

theorem insts_push (kind : InstKind) (b : Block) : (st.push kind).insts b =
      st.insts b ++ if b = st.cur ∧ b < st.blocks.length then [⟨st.nextVal, kind⟩] else [] := by
  unfold LowerState.push LowerState.insts blockInsts
  simp only [getElem?_modify]
  by_cases hb : b < st.blocks.length
  · rw [getElem?_eq_getElem hb]
    by_cases hc : st.cur = b
    · rw [if_pos ⟨hc.symm, hb⟩]
      simp [hc]
    · rw [if_neg fun h => hc h.1.symm]
      simp [hc]
  · rw [getElem?_eq_none (le_of_not_gt hb), if_neg fun h => hb h.2]
    rfl

/-- A value that foreign code hands over: it is dropped as a whole. -/
structure Owned (info : DropInfo) : Prop where
  moveState : info.moveState = .available
  allocStrategy : info.allocStrategy = .stack
  hasExplicitDeinit : info.hasExplicitDeinit = true

/-- Register more drops in the innermost scope. -/
def addInfos (infos : List DropInfo) : List (List DropInfo) → List (List DropInfo)
  | scope :: scopes => (scope ++ infos) :: scopes
  | [] => []

theorem addDropInfo_eq (info : DropInfo) :
    addDropInfo info st = some ((), { st with dropScopes := addInfos [info] st.dropScopes }) := by
  rfl

/-- From `st` to `st'` nothing was dropped and no local was declared. -/
structure Quiet (st st' : LowerState E) : Prop where
  nextVal : st.nextVal ≤ st'.nextVal
  declOrder : st.declOrderCounter ≤ st'.declOrderCounter
  insts : ∀ b, ∃ insts, st'.insts b = st.insts b ++ insts ∧
    ∀ i ∈ insts, dropsNothing i.kind = true ∧ st.nextVal ≤ i.result ∧ i.result < st'.nextVal
  dropScopes : ∃ infos, st'.dropScopes = addInfos infos st.dropScopes ∧
    infos.Pairwise (fun i j => i.declOrder < j.declOrder) ∧
    ∀ i ∈ infos, Owned i ∧ st.nextVal ≤ i.slot ∧ i.slot < st'.nextVal ∧
      st.declOrderCounter ≤ i.declOrder ∧ i.declOrder < st'.declOrderCounter
  loopRegions : st'.loopRegions = st.loopRegions
  typesNeedingDrop : st'.typesNeedingDrop = st.typesNeedingDrop
  escapeInfo : st'.escapeInfo = st.escapeInfo
  decls : st'.decls = st.decls

@[simp] theorem addInfos_nil (scopes : List (List DropInfo)) : addInfos [] scopes = scopes := by
  cases scopes with
  | nil => rfl
  | cons scope scopes => simp [addInfos]

theorem addInfos_addInfos (infos infos' : List DropInfo) (scopes : List (List DropInfo)) :
    addInfos infos' (addInfos infos scopes) = addInfos (infos ++ infos') scopes := by
  cases scopes with
  | nil => rfl
  | cons scope scopes => simp [addInfos]

theorem Quiet.of_eq (hinsts : ∀ b, st'.insts b = st.insts b) (hval : st'.nextVal = st.nextVal)
    (horder : st'.declOrderCounter = st.declOrderCounter)
    (hscopes : st'.dropScopes = st.dropScopes) (hregions : st'.loopRegions = st.loopRegions)
    (htypes : st'.typesNeedingDrop = st.typesNeedingDrop)
    (hinfo : st'.escapeInfo = st.escapeInfo) (hdecls : st'.decls = st.decls) : Quiet st st' where
  nextVal := hval.ge
  declOrder := horder.ge
  insts b := ⟨[], by rw [hinsts, append_nil], by simp⟩
  dropScopes := ⟨[], by rw [hscopes, addInfos_nil], by simp, by simp⟩
  loopRegions := hregions
  typesNeedingDrop := htypes
  escapeInfo := hinfo
  decls := hdecls

theorem Quiet.refl : Quiet st st := Quiet.of_eq (fun _ => rfl) rfl rfl rfl rfl rfl rfl rfl

theorem Quiet.trans (h : Quiet st st₁) (h' : Quiet st₁ st') : Quiet st st' where
  nextVal := h.nextVal.trans h'.nextVal
  declOrder := h.declOrder.trans h'.declOrder
  insts b := by
    obtain ⟨insts, heq, hinsts⟩ := h.insts b
    obtain ⟨insts', heq', hinsts'⟩ := h'.insts b
    have hval := h.nextVal
    have hval' := h'.nextVal
    refine ⟨insts ++ insts', by rw [heq', heq, append_assoc], ?_⟩
    intro i hi
    rcases mem_append.1 hi with hi | hi
    · obtain ⟨hk, hlo, hhi⟩ := hinsts i hi
      exact ⟨hk, hlo, hhi.trans_le hval'⟩
    · obtain ⟨hk, hlo, hhi⟩ := hinsts' i hi
      exact ⟨hk, hval.trans hlo, hhi⟩
  dropScopes := by
    obtain ⟨infos, heq, hsorted, hinfos⟩ := h.dropScopes
    obtain ⟨infos', heq', hsorted', hinfos'⟩ := h'.dropScopes
    have hval := h.nextVal
    have hval' := h'.nextVal
    have horder := h.declOrder
    have horder' := h'.declOrder
    refine ⟨infos ++ infos', by rw [heq', heq, addInfos_addInfos], ?_, ?_⟩
    · apply pairwise_append.2 ⟨hsorted, hsorted', ?_⟩
      intro i hi j hj
      have hi := (hinfos i hi).2.2.2.2
      have hj := (hinfos' j hj).2.2.2.1
      omega
    · intro i hi
      rcases mem_append.1 hi with hi | hi
      · obtain ⟨howned, h₁, h₂, h₃, h₄⟩ := hinfos i hi
        exact ⟨howned, h₁, h₂.trans_le hval', h₃, h₄.trans_le horder'⟩
      · obtain ⟨howned, h₁, h₂, h₃, h₄⟩ := hinfos' i hi
        exact ⟨howned, hval.trans h₁, h₂, horder.trans h₃, h₄⟩
  loopRegions := h'.loopRegions.trans h.loopRegions
  typesNeedingDrop := h'.typesNeedingDrop.trans h.typesNeedingDrop
  escapeInfo := h'.escapeInfo.trans h.escapeInfo
  decls := h'.decls.trans h.decls

/-- `m` is quiet wherever it starts. -/
def IsQuiet {α : Type} (m : LowerM E α) : Prop := ∀ st, Gives m st fun _ => Quiet st

variable {α β : Type} {m : LowerM E α}

theorem IsQuiet.pure (a : α) : IsQuiet (pure a : LowerM E α) := fun _ => Gives.pure Quiet.refl

theorem IsQuiet.bind {f : α → LowerM E β} (hm : IsQuiet m)
    (hf : ∀ a, IsQuiet (f a)) : IsQuiet (m >>= f) :=
  fun st => Gives.bind ((hm st).imp fun a st₁ h => (hf a st₁).imp fun _ _ h' => h.trans h')

theorem IsQuiet.get_bind {f : LowerState E → LowerM E β}
    (hf : ∀ st, Gives (f st) st fun _ => Quiet st) : IsQuiet (MonadState.get >>= f) :=
  fun st => Gives.get_bind (hf st)

/-! ## The operations that are quiet -/

theorem quiet_push {kind : InstKind} (hk : dropsNothing kind = true) : Quiet st (st.push kind) where
  nextVal := Nat.le_succ _
  declOrder := Nat.le_refl _
  insts b := by
    refine ⟨_, insts_push kind b, ?_⟩
    intro i hi
    split at hi
    · rw [mem_singleton] at hi
      subst hi
      exact ⟨hk, le_rfl, Nat.lt_succ_self _⟩
    · cases hi
  dropScopes := ⟨[], by rw [addInfos_nil]; rfl, by simp, by simp⟩
  loopRegions := rfl
  typesNeedingDrop := rfl
  escapeInfo := rfl
  decls := rfl

theorem emit_quiet {kind : InstKind} (hk : dropsNothing kind = true) :
    IsQuiet (E := E) (emit kind) := by
  intro st a st' hr
  cases hr
  exact quiet_push hk

theorem newBlock_quiet (base : String) : IsQuiet (E := E) (newBlock base) := by
  intro st a st' hr
  cases hr
  exact Quiet.of_eq (blockInsts_append_new _ _ _) rfl rfl rfl rfl rfl rfl rfl

theorem setCur_quiet (b : Block) : IsQuiet (E := E) (setCur b) := by
  intro st a st' hr
  cases hr
  exact Quiet.of_eq (fun _ => rfl) rfl rfl rfl rfl rfl rfl rfl

theorem setTerm_quiet (t : Terminator) : IsQuiet (E := E) (setTerm t) := by
  intro st a st' hr
  cases hr
  exact Quiet.of_eq (fun b => blockInsts_modify_term _ _ b t) rfl rfl rfl rfl rfl rfl rfl

theorem setTermIfFallthrough_quiet (t : Terminator) :
    IsQuiet (E := E) (setTermIfFallthrough t) := by
  apply IsQuiet.get_bind
  intro st
  split
  · exact IsQuiet.pure () st
  · exact IsQuiet.pure () st
  · exact IsQuiet.pure () st
  · exact IsQuiet.pure () st
  · exact IsQuiet.pure () st
  · exact setTerm_quiet t st

theorem isBlockTerminated_quiet : IsQuiet (E := E) isBlockTerminated :=
  IsQuiet.get_bind fun st => IsQuiet.pure _ st

theorem internStr_quiet (s : String) : IsQuiet (E := E) (internStr s) := by
  apply IsQuiet.get_bind
  intro st
  split
  · exact IsQuiet.pure _ st
  · apply Gives.bind
    apply Gives.set
    exact Gives.pure (Quiet.of_eq (fun _ => rfl) rfl rfl rfl rfl rfl rfl rfl)

theorem modify_quiet {f : LowerState E → LowerState E} (hinsts : ∀ st, (f st).blocks = st.blocks)
    (hval : ∀ st, (f st).nextVal = st.nextVal)
    (horder : ∀ st, (f st).declOrderCounter = st.declOrderCounter)
    (hscopes : ∀ st, (f st).dropScopes = st.dropScopes)
    (hregions : ∀ st, (f st).loopRegions = st.loopRegions)
    (htypes : ∀ st, (f st).typesNeedingDrop = st.typesNeedingDrop)
    (hinfo : ∀ st, (f st).escapeInfo = st.escapeInfo) (hdecls : ∀ st, (f st).decls = st.decls) :
    IsQuiet (modify f : LowerM E Unit) := by
  intro st a st' hr
  cases hr
  exact Quiet.of_eq (fun b => congrArg (blockInsts · b) (hinsts st)) (hval st) (horder st)
    (hscopes st) (hregions st) (htypes st) (hinfo st) (hdecls st)

/-- What the lowering of expressions has to do with drops: nothing. -/
structure Exprs.Lawful (x : Exprs E) : Prop where
  lowerExpr : ∀ e, IsQuiet (x.lowerExpr e)
  lowerCond : ∀ e, IsQuiet (x.lowerCond e)
  lowerEffect : ∀ e, IsQuiet (x.lowerEffect e)

/-! ## Invariants that quiet steps keep -/

class QuietClosed (I : LowerState E → Prop) : Prop where
  quiet : ∀ {st st'}, I st → Quiet st st' → I st'

instance : QuietClosed (Quiet st) := ⟨Quiet.trans⟩

/-- Quiet is what keeps every such invariant. -/
theorem isQuiet_of_kept (h : ∀ st, Kept (Quiet st) m) : IsQuiet m :=
  fun st => (h st).keeps st Quiet.refl

variable {I : LowerState E → Prop} [QuietClosed I]

theorem IsQuiet.kept (h : IsQuiet m) : Kept I m :=
  ⟨fun _ hst a st' hr => QuietClosed.quiet hst (h _ a st' hr)⟩

instance newBlock_kept {base : String} : Kept I (newBlock (E := E) base) := (newBlock_quiet _).kept

instance setCur_kept {b : Block} : Kept I (setCur (E := E) b) := (setCur_quiet b).kept

instance setTerm_kept {t : Terminator} : Kept I (setTerm (E := E) t) := (setTerm_quiet t).kept

instance setTermIfFallthrough_kept {t : Terminator} : Kept I (setTermIfFallthrough (E := E) t) :=
  (setTermIfFallthrough_quiet t).kept

instance isBlockTerminated_kept : Kept I (isBlockTerminated (E := E)) :=
  isBlockTerminated_quiet.kept

instance internStr_kept {s : String} : Kept I (internStr (E := E) s) := (internStr_quiet s).kept

/-- The instructions the lowering emits itself. -/
class DropsNothing (kind : InstKind) : Prop where
  eq : dropsNothing kind = true

instance emit_kept {kind : InstKind} [h : DropsNothing kind] : Kept I (emit (E := E) kind) :=
  (emit_quiet h.eq).kept

section

variable {v w : Ir.Value} {s : String} {vs : List Ir.Value} {ty : Ir.Ty}

instance : DropsNothing .alloca := ⟨rfl⟩
instance : DropsNothing (.load v) := ⟨rfl⟩
instance : DropsNothing (.store v w) := ⟨rfl⟩
instance {n : Int64} : DropsNothing (.constI64 n) := ⟨rfl⟩
instance {ix : Nat} : DropsNothing (.constStr ix) := ⟨rfl⟩
instance : DropsNothing (.strEq v w) := ⟨rfl⟩
instance {op : Ir.BinOp} : DropsNothing (.binary op v w) := ⟨rfl⟩
instance {pred : Ir.CmpPred} : DropsNothing (.cmp pred v w) := ⟨rfl⟩
instance : DropsNothing (.call s vs ty) := ⟨rfl⟩
instance : DropsNothing (.closureCall v vs ty) := ⟨rfl⟩
instance : DropsNothing (.getTypeName v) := ⟨rfl⟩
instance : DropsNothing (.setUnwindHandler v) := ⟨rfl⟩
instance : DropsNothing .clearUnwindHandler := ⟨rfl⟩

end

end Arth.Lower
