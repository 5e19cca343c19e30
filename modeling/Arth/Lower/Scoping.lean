import Arth.Lower.Beside
import Arth.Lower.Drops

/-!
# When names are resolved lexically

* `lowerStmt_tracks`: a statement that is `StmtOk` passes the checks of every scope.
* `scoped_of_funcOk`: so does a function that is `FuncOk`.
* `innerHides_unscoped`: a declaration in an inner block hides the outer variable for good.
-/

namespace Arth.Lower

open Builder List Function
open Ir (Block InstKind Terminator BlockData BinOp)

variable {E α β : Type} {st st' : LowerState E} {K V : List String} {Φ : List (HirBlock E)}
  {L L' : String → Option Ir.Value} {n : Nat} {env : Scope} {x : Exprs E}

/-! ## Declarations -/

instance held_allocSlot {name : String} : Kept (Held K Φ L n) (allocSlot (E := E) name) := by
  apply Kept.bind
  intro st
  split <;> infer_instance

theorem held_initLocal (hx : x.Stays) (name : String) (slot : Ir.Value) (init : Option E)
    (isShared : Bool) : Kept (Held K Φ L n) (initLocal x name slot init isShared) := by
  have hshare : Kept (Held K Φ L n) (modify fun st : LowerState E =>
      { st with sharedLocals := name :: st.sharedLocals }) := by
    apply held_modify <;> exact fun _ => rfl
  have hexpr : ∀ e, Kept (Held K Φ L n) (x.lowerExpr e) := hx.kept
  unfold initLocal
  cases isShared <;> cases init <;> (dsimp only; infer_instance)

instance held_registerBeforeInit {name : String} {ty : HirType} {slot : Ir.Value} :
    Kept (Held K Φ L n) (registerBeforeInit (E := E) name ty slot) := by
  apply Kept.bind
  intro st
  split <;> infer_instance

instance held_registerAfterInit {name : String} {ty : HirType} {slot : Ir.Value} :
    Kept (Held K Φ L n) (registerAfterInit (E := E) name ty slot) := by
  apply Kept.bind
  intro st
  split <;> infer_instance

theorem declareLocal_gives (h : Held K Φ L n st) (name : String) (ty : HirType) (slot : Ir.Value) :
    Gives (declareLocal (E := E) name ty slot) st fun _ =>
      Held (name :: K) Φ (update L name (some slot)) n := by
  apply Gives.modify
  refine ⟨fun other hother => ?_, h.finallyScopes, h.length, h.cur⟩
  change update st.locals name (some slot) other = _
  by_cases hne : other = name
  · rw [hne, update_self, update_self]
  · rw [update_of_ne hne, update_of_ne hne]
    exact h.locals other ((mem_cons.1 hother).resolve_left hne)

/-- What the lowering of a statement may rely on: `env` is the scope, and the pending `finally`
blocks are in scopes of their own, whose names are looked up again. -/
structure Ctx (K V : List String) (Φ : Pending E) (fins : List Scope) (env : Scope)
    (L : String → Option Ir.Value) : Prop where
  scope : IsScope L V env
  pending : List.Forall₂ (fun p fin => p.2 ⊆ K ∧ IsScope L p.2 fin) Φ fins

variable {Ψ : Pending E} {fins : List Scope} {names : E → List String}

theorem Ctx.congr (h : Ctx K V Ψ fins env L) (hL : ∀ name ∈ K, L' name = L name) {K' V' inner}
    (hK : K ⊆ K') (hinner : IsScope L' V' inner) : Ctx K' V' Ψ fins inner L' := by
  refine ⟨hinner, h.pending.imp fun p fin hp => ⟨Subset.trans hp.1 hK, ?_⟩⟩
  exact hp.2.congr fun name hname => hL name (hp.1 hname)

/-- Behind a statement: the names it had to keep are kept. Unless it ends the block, so are all
the names in scope, and those it declares are in scope as well. -/
def Behind (K V : List String) (Φ : List (HirBlock E)) (L : String → Option Ir.Value) (n : Nat)
    (env : Scope) (s : HirStmt E) (st : LowerState E) : Prop :=
  ∃ L', (∀ name ∈ K, L' name = L name) ∧ Held K Φ L' n st ∧
    (Ends s → isTerminated (curTerm st)) ∧
    (¬Ends s → Held (K ++ (declared s ++ V)) Φ L' n st ∧
      IsScope L' (declared s ++ V) (env.declare (declared s) st))

variable {s : HirStmt E}

theorem Behind.of_held (h : Held (K ++ V) Φ L n st) (henv : IsScope L V env)
    (hs : declared s = []) (hends : Ends s → isTerminated (curTerm st)) :
    Behind K V Φ L n env s st := by
  refine ⟨L, fun _ _ => rfl, h.mono (subset_append_left ..) le_rfl, hends, ?_⟩
  rw [hs]
  exact fun _ => ⟨h, henv⟩

theorem Behind.of_ends (h : Held K Φ L n st) (hs : Ends s)
    (hterm : isTerminated (curTerm st)) : Behind K V Φ L n env s st :=
  ⟨L, fun _ _ => rfl, h, fun _ => hterm, fun hnot => (hnot hs).elim⟩

/-- The lowering of a statement, and beside its scope. -/
def StmtTracks (x : Exprs E) (names : E → List String) (Ψ : Pending E) (fins : List Scope)
    (lowerStmt : HirStmt E → LowerM E Unit) (lowerIn : Scope → HirStmt E → LowerM E Unit) : Prop :=
  ∀ K V env L n s, StmtOk x names K V Ψ s → Ctx K V Ψ fins env L →
    Tracks (Held (K ++ V) (Ψ.map (·.1)) L n) (lowerStmt s) (lowerIn env s)
      fun _ => Behind K V (Ψ.map (·.1)) L n env s

variable {lowerS : HirStmt E → LowerM E Unit} {lowerSIn : Scope → HirStmt E → LowerM E Unit}

theorem isBlockTerminated_bind (f : Bool → LowerM E β) :
    (isBlockTerminated >>= f) st = f (isTerminated (curTerm st)) st := rfl

theorem lowerSeq_tracks (hstmt : StmtTracks x names Ψ fins lowerS lowerSIn) {ss : HirBlock E}
    (hok : SeqOk x names K V Ψ ss) (hctx : Ctx K V Ψ fins env L) :
    Tracks (Held (K ++ V) (Ψ.map (·.1)) L n) (lowerSeq lowerS ss) (lowerSeqScoped lowerSIn env ss)
      fun _ st => Held K (Ψ.map (·.1)) L n st ∧ (SeqEnds ss → isTerminated (curTerm st)) := by
  induction ss generalizing V env L with
  | nil =>
    apply Tracks.of_gives
    intro st h
    refine Gives.pure ⟨h.mono (subset_append_left ..) le_rfl, ?_⟩
    rintro ⟨s, hs, -⟩
    cases hs
  | cons s ss ih =>
    have hs : StmtOk x names K V Ψ s := by
      cases hok <;> assumption
    refine Tracks.bind (hstmt K V env L n s hs hctx) fun _ => ?_
    intro st hbehind a st' hr
    obtain ⟨L', hL, hheld, hends, hfalls⟩ := hbehind
    rw [isBlockTerminated_bind] at hr ⊢
    cases hterm : isTerminated (curTerm st) with
    | true =>
      rw [hterm] at hr
      cases hr
      exact ⟨rfl, hheld.congr hL, fun _ => hterm⟩
    | false =>
      rw [hterm] at hr
      have hnot : ¬Ends s := by
        intro hs
        rw [hends hs] at hterm
        cases hterm
      obtain ⟨hall, hscope⟩ := hfalls hnot
      have hss : SeqOk x names K (declared s ++ V) Ψ ss := by
        cases hok with
        | last hs _ => exact (hnot hs).elim
        | cons _ hss => exact hss
      have htail := ih hss (hctx.congr hL (Subset.refl K) hscope) st hall a st' hr
      have hcheck := checkScope_passes hscope (subset_append_right ..) hall
      refine ⟨?_, htail.2.1.congr hL, ?_⟩
      · change (checkScope (env.declare (declared s) st) >>= fun _ => _) st = _
        rw [run_bind hcheck]
        exact htail.1
      · rintro ⟨s', hs', hends'⟩
        rcases mem_cons.1 hs' with rfl | hs'
        · exact (hnot hends').elim
        · exact htail.2.2 ⟨s', hs', hends'⟩

variable {b : HirBlock E} {K' : List String}

theorem lowerBlock_tracks (hstmt : StmtTracks x names Ψ fins lowerS lowerSIn)
    (hok : BlockOk x names K V Ψ b) (hctx : Ctx K V Ψ fins env L) :
    Tracks (Held (K ++ V) (Ψ.map (·.1)) L n) (lowerBlock lowerS b) (lowerBlockScoped lowerSIn env b)
      fun _ st => Held K (Ψ.map (·.1)) L n st ∧ (SeqEnds b → isTerminated (curTerm st)) ∧
        (¬SeqEnds b → Held (K ++ V) (Ψ.map (·.1)) L n st) := by
  refine Tracks.keep fun _ => ?_
  cases hok with
  | ends hends hseq =>
    refine Tracks.bind (lowerSeq_tracks hstmt hseq hctx) fun _ => ?_
    intro st hst a st' hr
    rw [isBlockTerminated_bind, hst.2 hends] at hr ⊢
    cases hr
    exact ⟨rfl, hst.1, fun _ => hst.2 hends, fun hnot => (hnot hends).elim⟩
  | falls hseq =>
    have hsub : K ⊆ K ++ V := subset_append_left ..
    have hctx' := hctx.congr (fun _ _ => rfl) hsub hctx.scope
    have hpre : ∀ st, Held (K ++ V) (Ψ.map (·.1)) L n st →
        Held (K ++ V ++ V) (Ψ.map (·.1)) L n st := by
      intro st h
      refine h.mono ?_ le_rfl
      exact append_subset.2 ⟨Subset.refl _, subset_append_right ..⟩
    refine Tracks.bind ((lowerSeq_tracks hstmt hseq hctx').imp hpre fun _ _ h => h) fun _ => ?_
    intro st hst a st' hr
    rw [isBlockTerminated_bind] at hr ⊢
    cases hterm : isTerminated (curTerm st) with
    | true =>
      rw [hterm] at hr
      cases hr
      exact ⟨rfl, hst.1.mono hsub le_rfl, fun _ => hterm, fun _ => hst.1⟩
    | false =>
      rw [hterm] at hr
      have hnot : ¬SeqEnds b := by
        intro hends
        rw [hst.2 hends] at hterm
        cases hterm
      have hcheck := checkScope_passes hctx.scope (subset_append_right ..) hst.1
      have hpop := held_popDropScope.keeps st hst.1 a st' hr
      refine ⟨?_, hpop.mono hsub le_rfl, fun hends => (hnot hends).elim, fun _ => hpop⟩
      change (checkScope env >>= fun _ => popDropScope) st = _
      rw [run_bind hcheck]
      exact hr

/-! ## The statements one by one -/

theorem block_alike (hstmt : StmtTracks x names Ψ fins lowerS lowerSIn)
    (hok : BlockOk x names K V Ψ b) (hctx : Ctx K V Ψ fins env L) (hV : V ⊆ K) (n : Nat) :
    Alike K (Ψ.map (·.1)) L n (lowerBlock lowerS b) (lowerBlockScoped lowerSIn env b) :=
  (lowerBlock_tracks hstmt hok hctx).imp
    (fun _ h => h.mono (append_subset.2 ⟨Subset.refl _, hV⟩) le_rfl)
    fun _ _ h => h.1

theorem lowerVarDecl_tracks (hx : x.Stays) (hctx : Ctx K V Ψ fins env L) {name : String}
    (ty : HirType) {init : Option E} (isShared : Bool) (hkeep : name ∉ K)
    (hinit : ∀ e, init = some e → name ∈ V → name ∉ names e) :
    Tracks (Held (K ++ V) Φ L n) (lowerVarDecl x name ty init isShared)
      (lowerVarDeclScoped x names env name ty init isShared)
      fun _ => Behind K V Φ L n env (.varDecl name ty init isShared) := by
  refine Tracks.keep fun slot => ?_
  have hdeclare : ∀ st, Held (K ++ V) Φ L n st → Gives (declareLocal name ty slot) st fun _ =>
      Held (K ++ (name :: V)) Φ (update L name (some slot)) n := by
    intro st h
    refine (declareLocal_gives h name ty slot).imp fun _ st' h' => h'.mono ?_ le_rfl
    intro other hother
    simp only [mem_append, mem_cons] at hother ⊢
    tauto
  refine Tracks.bind (Tracks.of_gives hdeclare) fun _ => ?_
  refine Tracks.keep fun _ => ?_
  have hL : ∀ other ∈ K, update L name (some slot) other = L other := by
    intro other hother
    apply update_of_ne
    rintro rfl
    exact hkeep hother
  -- the initialiser does not mention a variable that the declaration hides
  have hcheck : ∀ st, Held (K ++ (name :: V)) Φ (update L name (some slot)) n st →
      checkNames env ((init.map names).getD []) st = some ((), st) := by
    intro st h
    apply if_pos
    intro other hother hin
    rw [hctx.scope.names] at hin
    have hne : other ≠ name := by
      rintro rfl
      cases init with
      | none => cases hother
      | some e => exact hinit e rfl hin hother
    have hheld := h.locals other (mem_append_right _ (mem_cons_of_mem _ hin))
    rw [update_of_ne hne] at hheld
    exact hheld.trans (hctx.scope.slots other hin)
  refine Tracks.check hcheck ?_
  refine Tracks.bind (held_initLocal hx name slot init isShared).tracks fun _ => ?_
  apply Tracks.imp held_registerAfterInit.tracks (fun _ h => h)
  intro _ st h
  refine ⟨_, hL, h.mono (subset_append_left ..) le_rfl, (nofun), fun _ => ⟨h, ?_⟩⟩
  have hscope : IsScope st.locals ([name] ++ V) (env.declare [name] st) := by
    refine hctx.scope.declare fun other hother hne => ?_
    rw [h.locals other (mem_append_right _ (mem_cons_of_mem _ hother))]
    exact update_of_ne (fun heq => hne (mem_singleton.2 heq)) ..
  exact hscope.congr fun other hother => (h.locals other (mem_append_right _ hother)).symm

theorem pending_alike (hstmt : StmtTracks x names Ψ fins lowerS lowerSIn) (K : List String)
    {Θ : Pending E} {fs : List Scope}
    (h : Forall₂ (fun p fin => BlockOk x names K p.2 Ψ p.1 ∧ p.2 ⊆ K ∧
      Ctx K p.2 Ψ fins fin L) Θ fs) :
    Alike K (Ψ.map (·.1)) L n ((Θ.map (·.1)).forM (lowerBlock lowerS))
      (((Θ.map (·.1)).zip fs).forM fun p => lowerBlockScoped lowerSIn p.2 p.1) := by
  induction h with
  | nil => exact kept_pure.tracks
  | cons hp _ ih =>
    exact Tracks.bind (block_alike hstmt hp.1 hp.2.2 hp.2.1 n) fun _ => ih

theorem forall₂_pending {P : HirBlock E × List String → Prop} (hctx : Ctx K V Ψ fins env L)
    (hK : K ⊆ K') (hP : ∀ p ∈ Ψ, P p) :
    Forall₂ (fun p fin => P p ∧ p.2 ⊆ K' ∧ Ctx K' p.2 Ψ fins fin L) Ψ fins := by
  have hpending := hctx.pending
  have hmem : ∀ Θ fs, Θ ⊆ Ψ → Forall₂ (fun p fin => p.2 ⊆ K ∧ IsScope L p.2 fin) Θ fs →
      Forall₂ (fun p fin => P p ∧ p.2 ⊆ K' ∧ Ctx K' p.2 Ψ fins fin L) Θ fs := by
    intro Θ fs hsub h
    induction h with
    | nil => exact .nil
    | cons hp _ ih =>
      rw [cons_subset] at hsub
      refine .cons ⟨hP _ hsub.1, Subset.trans hp.1 hK, ?_⟩ (ih hsub.2)
      exact hctx.congr (fun _ _ => rfl) hK hp.2
  exact hmem Ψ fins (Subset.refl _) hpending

theorem setTerm_tracks (t : Terminator) :
    Tracks (Held K Φ L n) (setTerm t) (setTerm t) fun _ st => Held K Φ L n st ∧ curTerm st = t :=
  Tracks.of_gives fun _ h => setTerm_gives t h

theorem lowerReturn_tracks (hx : x.Stays) (hstmt : StmtTracks x names Ψ fins lowerS lowerSIn)
    (hctx : Ctx K V Ψ fins env L) (hK : K ⊆ K') (hK' : K' ⊆ K ++ V)
    (hpending : ∀ p ∈ Ψ, BlockOk x names K' p.2 Ψ p.1) (e : Option E) :
    Tracks (Held (K ++ V) (Ψ.map (·.1)) L n) (lowerReturn x (lowerBlock lowerS) e)
      (lowerReturnScoped x (lowerBlockScoped lowerSIn) env fins e)
      fun _ st => Held K' (Ψ.map (·.1)) L n st ∧ ∃ v, curTerm st = .ret v ∧ (v.isSome ↔ e.isSome) := by
  have hvalue : Tracks (Held (K ++ V) (Ψ.map (·.1)) L n) (lowerReturnValue x e)
      (lowerReturnValue (x.scoped env) e)
      fun v st => Held K' (Ψ.map (·.1)) L n st ∧ (v.isSome ↔ e.isSome) := by
    cases e with
    | none =>
      exact Tracks.of_gives fun st h => Gives.pure ⟨h.mono hK' le_rfl, Iff.rfl⟩
    | some e =>
      have hexpr := (hx.scoped (Φ := Ψ.map (·.1)) hctx.scope
        (subset_append_right K V)).lowerExpr e n
      refine Tracks.bind hexpr fun v => Tracks.of_gives fun st h => Gives.pure ?_
      exact ⟨h.mono hK' le_rfl, Iff.rfl⟩
  refine Tracks.bind hvalue fun v => ?_
  refine Tracks.get_bind fun st hst => ?_
  have hpend := pending_alike (n := n) hstmt K' (forall₂_pending hctx hK hpending)
  rw [hst.1.finallyScopes]
  have hstart : ∀ s, s = st → Held K' (Ψ.map (·.1)) L n s := by
    rintro s rfl
    exact hst.1
  refine Tracks.imp ?_ hstart fun _ _ h => h
  refine Tracks.bind hpend fun _ => ?_
  refine Tracks.keep fun _ => Tracks.keep fun _ => ?_
  refine Tracks.imp (setTerm_tracks _) (fun _ h => h) fun _ s h => ?_
  exact ⟨h.1, v, h.2, hst.2⟩

theorem leave_tracks {α : Type} {m m' : LowerM E α} {t : α → Terminator} (hm : Alike K Φ L n m m') :
    Tracks (Held K Φ L n) (do
      let v ← m
      exitAllLoopRegions
      emitAllDrops
      setTerm (t v)) (do
      let v ← m'
      exitAllLoopRegions
      emitAllDrops
      setTerm (t v)) fun _ st => Held K Φ L n st ∧ ∃ v, curTerm st = t v := by
  refine Tracks.bind hm fun v => ?_
  refine Tracks.keep fun _ => Tracks.keep fun _ => ?_
  exact Tracks.imp (setTerm_tracks _) (fun _ h => h) fun _ s h => ⟨h.1, v, h.2⟩

theorem lowerLeave_tracks (label : Option String) (target : LoopTarget → Block) :
    Tracks (Held K Φ L n) (lowerLeave (E := E) label target) (lowerLeave label target)
      fun _ st => Held K Φ L n st ∧ isTerminated (curTerm st) := by
  apply Tracks.of_gives
  intro st h
  apply Gives.get_bind
  split
  · apply Gives.bind
    refine (held_emitDropsToDepth.keeps st h).imp fun _ st₁ h₁ => ?_
    apply Gives.bind
    refine (held_exitLoopRegion.keeps st₁ h₁).imp fun _ st₂ h₂ => ?_
    refine (setTerm_gives _ h₂).imp fun _ st₃ h₃ => ⟨h₃.1, ?_⟩
    rw [h₃.2]
    rfl
  · refine (setTerm_gives _ h).imp fun _ st₃ h₃ => ⟨h₃.1, ?_⟩
    rw [h₃.2]
    rfl

instance held_setPendingLabel {label : Option String} : Kept (Held K Φ L n)
    (modify fun st : LowerState E => { st with pendingLoopLabel := label }) := by
  apply held_modify <;> exact fun _ => rfl

theorem Behind.labeled (h : Behind K V Φ L n env s st) (label : String) :
    Behind K V Φ L n env (.labeled label s) { st with pendingLoopLabel := none } := by
  obtain ⟨L', hL, hheld, hends, hfalls⟩ := h
  refine ⟨L', hL, hheld.of_eq rfl rfl rfl rfl, ?_, fun hnot => ?_⟩
  · rintro (_ | _ | _ | _ | _ | hs)
    exact hends hs
  · obtain ⟨hall, hscope⟩ := hfalls fun hs => hnot (.labeled hs)
    exact ⟨hall.of_eq rfl rfl rfl rfl, hscope⟩

theorem Behind.block {s : HirStmt E} {b : HirBlock E} (hs : Ends s ↔ SeqEnds b)
    (hnone : declared s = []) (henv : IsScope L V env)
    (h : Held K Φ L n st ∧ (SeqEnds b → isTerminated (curTerm st)) ∧
      (¬SeqEnds b → Held (K ++ V) Φ L n st)) : Behind K V Φ L n env s st := by
  refine ⟨L, fun _ _ => rfl, h.1, fun hends => h.2.1 (hs.1 hends), fun hnot => ?_⟩
  rw [hnone]
  exact ⟨h.2.2 fun hends => hnot (hs.2 hends), henv⟩

theorem ends_block : Ends (.block b) ↔ SeqEnds b := by
  constructor
  · rintro (_ | _ | _ | _ | _ | _ | ⟨hs, h⟩)
    exact ⟨_, hs, h⟩
  · rintro ⟨s, hs, h⟩
    exact .block hs h

theorem ends_unsafeBlock : Ends (.unsafeBlock b) ↔ SeqEnds b := by
  constructor
  · rintro (_ | _ | _ | _ | _ | _ | _ | ⟨hs, h⟩)
    exact ⟨_, hs, h⟩
  · rintro ⟨s, hs, h⟩
    exact .unsafeBlock hs h

theorem Ctx.pushFinally (h : Ctx K V Ψ fins env L) (finallyBlk : Option (HirBlock E)) :
    Ctx (K ++ V) V (Ψ ++ finallyBlk.toList.map (·, V)) (fins ++ finallyBlk.toList.map fun _ => env)
      env L := by
  have h' := h.congr (fun _ _ => rfl) (subset_append_left K V) h.scope
  refine ⟨h.scope, rel_append h'.pending ?_⟩
  cases finallyBlk with
  | none => exact .nil
  | some fin => exact .cons ⟨subset_append_right .., h.scope⟩ .nil

theorem map_pushFinally (finallyBlk : Option (HirBlock E)) :
    (Ψ ++ finallyBlk.toList.map (·, V)).map (·.1) = Ψ.map (·.1) ++ finallyBlk.toList := by
  rw [map_append, map_map]
  exact congrArg (_ ++ ·) (map_id _)

/-- **A statement that is `StmtOk` is lowered as its scope says.** -/
theorem lowerStmt_tracks (hx : x.Stays) (fuel : Nat) (Ψ : Pending E) (fins : List Scope) :
    StmtTracks x names Ψ fins (lowerStmt x fuel) (lowerStmtScoped x names fuel fins) := by
  -- On the fuel: a `return` lowers the pending `finally` blocks again.
  induction fuel generalizing Ψ fins with
  | zero => exact fun K V env L n s _ _ => Tracks.fail
  | succ fuel ih =>
    intro K V env L n s hok hctx
    have hsub : K ⊆ K ++ V := subset_append_left ..
    have hV : V ⊆ K ++ V := subset_append_right ..
    have hsame : ∀ name ∈ K, L name = L name := fun _ _ => rfl
    have hscoped : ExprsAlike (K ++ V) (Ψ.map (·.1)) L x (x.scoped env) := hx.scoped hctx.scope hV
    -- A statement that declares nothing and does not end the block leaves the scope as it was.
    have hplain : ∀ {m m' : LowerM E Unit}, declared s = [] → ¬Ends s →
        Alike (K ++ V) (Ψ.map (·.1)) L n m m' →
        Tracks (Held (K ++ V) (Ψ.map (·.1)) L n) m m'
          fun _ => Behind K V (Ψ.map (·.1)) L n env s := by
      intro m m' hnone hnot hm
      refine hm.imp (fun _ h => h) fun _ st h => ?_
      exact Behind.of_held h hctx.scope hnone fun hends => (hnot hends).elim
    have hctx' : Ctx (K ++ V) V Ψ fins env L := hctx.congr hsame hsub hctx.scope
    cases hok with
    | effect e => exact hplain rfl nofun (hscoped.lowerEffect e n)
    | varDecl ty isShared hkeep hinit => exact lowerVarDecl_tracks hx hctx ty isShared hkeep hinit
    | assign name e =>
      refine hplain rfl nofun (Tracks.check (fun st h => checkScope_passes hctx.scope hV h) ?_)
      exact (held_lowerAssign hx name e).tracks
    | assignOp name op e =>
      refine hplain rfl nofun (Tracks.check (fun st h => checkScope_passes hctx.scope hV h) ?_)
      exact (held_lowerAssignOp hx name op e).tracks
    | ifElse cond hthen helse =>
      refine hplain rfl nofun (lowerIf_alike hscoped cond ?_ ?_)
      · exact fun n => block_alike (ih Ψ fins) hthen hctx' hV n
      · exact fun b hb n => block_alike (ih Ψ fins) (helse b hb) hctx' hV n
    | whileLoop cond hbody =>
      refine hplain rfl nofun (lowerWhile_alike hscoped cond ?_)
      exact fun n => block_alike (ih Ψ fins) hbody hctx' hV n
    | labeled label hs =>
      refine Tracks.keep fun _ => ?_
      refine Tracks.bind (ih Ψ fins K V env L n _ hs hctx) fun _ => ?_
      exact Tracks.of_gives fun st h => Gives.modify (h.labeled label)
    | forLoop => exact hplain rfl nofun kept_pure.tracks
    | @switch _ _ _ e cases patternCases default hnames hcases hdefault =>
      -- A pattern binds its names inside its own case only.
      have hin : K ++ V ⊆ switchNames patternCases ++ (K ++ V) := subset_append_right ..
      have hVin : V ⊆ switchNames patternCases ++ (K ++ V) := Subset.trans hV hin
      refine hplain rfl nofun (lowerSwitch_alike hx hctx.scope hV e hnames ?_ ?_)
      · intro b hb L' inner n hL hinner
        apply block_alike (ih Ψ fins) (hcases b hb) (hctx'.congr hL hin hinner)
        exact append_subset.2 ⟨subset_append_left .., hVin⟩
      · intro b hb L' n hL
        have hscope : IsScope L' V env := hctx.scope.congr fun name hname => hL name (hV hname)
        exact block_alike (ih Ψ fins) (hdefault b hb) (hctx'.congr hL hin hscope) hVin n
    | @tryCatch _ _ _ tryBlk catches finallyBlk htry hvars hcatches hfinally =>
      -- Inside the statement the `finally` block is pending too.
      have hinner := hctx.pushFinally finallyBlk
      have hstmt := ih (Ψ ++ finallyBlk.toList.map (·, V))
        (fins ++ finallyBlk.toList.map fun _ => env)
      have hmap := map_pushFinally (Ψ := Ψ) (V := V) finallyBlk
      refine hplain rfl nofun (Tracks.bind (lowerTry_alike (n := n) hctx.scope hV catches ?_ hvars
        ?_ ?_) fun _ => kept_pure.tracks)
      · intro n
        rw [← hmap]
        exact block_alike hstmt htry hinner hV n
      · intro c hc L' inner n hL hscope
        rw [← hmap]
        have hctx := hinner.congr hL (Subset.refl _) hscope
        refine (lowerBlock_tracks hstmt (hcatches c hc) hctx).imp (fun s h => h.mono ?_ le_rfl)
          fun _ s h => h.1
        intro name hname
        simp only [mem_append] at hname ⊢
        tauto
      · intro b hb n
        rw [← hmap]
        exact block_alike hstmt (hfinally b hb) hinner hV n
    | breakLoop label =>
      refine (lowerLeave_tracks label (·.exit)).imp (fun _ h => h) fun _ st h => ?_
      exact Behind.of_held h.1 hctx.scope rfl fun _ => h.2
    | continueLoop label =>
      refine (lowerLeave_tracks label (·.header)).imp (fun _ h => h) fun _ st h => ?_
      exact Behind.of_held h.1 hctx.scope rfl fun _ => h.2
    | returnExpr e hpending =>
      refine (lowerReturn_tracks hx (ih Ψ fins) hctx (Subset.refl K) hsub hpending
        (some e)).imp (fun _ h => h) fun _ st h => ?_
      obtain ⟨hheld, v, hterm, hsome⟩ := h
      refine Behind.of_ends hheld (.returnExpr e) ?_
      obtain ⟨v', rfl⟩ := Option.isSome_iff_exists.1 (hsome.2 rfl)
      rw [hterm]
      rfl
    | returnNone hpending =>
      refine (lowerReturn_tracks hx (ih Ψ fins) hctx hsub (Subset.refl _) hpending
        none).imp (fun _ h => h) fun _ st h => ?_
      exact Behind.of_held h.1 hctx.scope rfl nofun
    | block hb =>
      exact (lowerBlock_tracks (ih Ψ fins) hb hctx).imp (fun _ h => h) fun _ st h =>
        Behind.block ends_block rfl hctx.scope h
    | unsafeBlock hb =>
      exact (lowerBlock_tracks (ih Ψ fins) hb hctx).imp (fun _ h => h) fun _ st h =>
        Behind.block ends_unsafeBlock rfl hctx.scope h
    | throwExpr e | panicExpr e =>
      refine (leave_tracks (hscoped.lowerExpr e n)).imp (fun _ h => h) fun _ st h => ?_
      obtain ⟨hheld, v, hterm⟩ := h
      refine Behind.of_held hheld hctx.scope rfl fun _ => ?_
      rw [hterm]
      rfl
    | expr e =>
      refine hplain rfl nofun ?_
      exact Tracks.bind (hscoped.lowerExpr e n) fun _ => kept_pure.tracks

/-! ## Expressions -/

section Expressions

variable {externFuncs : String → Option ExternSig} {Φ : List (HirBlock HirExpr)}
  {left right third : LowerM HirExpr Ir.Value}

instance held_lowerIdent {name : String} : Kept (Held K Φ L n) (lowerIdent name) := by
  apply Kept.bind
  intro st
  split <;> infer_instance

instance held_registerFfiOwnedDrop {name tyName : String} {slot : Ir.Value} :
    Kept (Held K Φ L n) (registerFfiOwnedDrop name slot tyName) := by
  refine ⟨Keeps.get_bind fun st h => ?_⟩
  apply Gives.bind
  apply Gives.set
  exact held_addDropInfo.keeps _ (h.of_eq rfl rfl rfl rfl)

instance held_lowerCall {name : String} {args : List Ir.Value} :
    Kept (Held K Φ L n) (lowerCall externFuncs name args) := by
  apply Kept.bind
  intro st
  split
  · infer_instance
  · split
    · infer_instance
    · split
      · refine Kept.bind fun res => held_newBlock fun normal _ => Kept.bind fun _ => ?_
        exact Kept.then (held_setCur (Nat.lt_succ_self normal)) fun _ => kept_pure
      · infer_instance

section

variable [hl : ∀ n, Kept (Held K Φ L n) left] [hr : ∀ n, Kept (Held K Φ L n) right]

instance held_lowerAnd : Kept (Held K Φ L n) (lowerAnd left right) := by
  refine Kept.bind fun slot => Kept.bind fun lval => ?_
  refine held_newBlock fun rhsB hrhs => held_newBlock fun falseB hfalse => ?_
  refine held_newBlock fun joinB hjoin => Kept.bind fun _ => ?_
  refine Kept.then (held_setCur (by omega)) fun _ => Kept.bind fun rval => Kept.bind fun _ => ?_
  refine Kept.bind fun _ => Kept.then (held_setCur (by omega)) fun _ => Kept.bind fun z0 => ?_
  refine Kept.bind fun o1 => Kept.bind fun fval => Kept.bind fun _ => Kept.bind fun _ => ?_
  exact Kept.then (held_setCur (Nat.lt_succ_self joinB)) fun _ => held_emit

instance held_lowerOr : Kept (Held K Φ L n) (lowerOr left right) := by
  refine Kept.bind fun slot => Kept.bind fun lval => ?_
  refine held_newBlock fun trueB htrue => held_newBlock fun rhsB hrhs => ?_
  refine held_newBlock fun joinB hjoin => Kept.bind fun _ => ?_
  refine Kept.then (held_setCur (by omega)) fun _ => Kept.bind fun o1a => Kept.bind fun o1b => ?_
  refine Kept.bind fun tval => Kept.bind fun _ => Kept.bind fun _ => ?_
  refine Kept.then (held_setCur (by omega)) fun _ => Kept.bind fun rval => Kept.bind fun _ => ?_
  exact Kept.bind fun _ => Kept.then (held_setCur (Nat.lt_succ_self joinB)) fun _ => held_emit

instance held_lowerConditional [∀ n, Kept (Held K Φ L n) third] :
    Kept (Held K Φ L n) (lowerConditional third left right) := by
  refine Kept.bind fun slot => Kept.bind fun cval => ?_
  refine held_newBlock fun thenB hthen => held_newBlock fun elseB helse => ?_
  refine held_newBlock fun joinB hjoin => Kept.bind fun _ => ?_
  refine Kept.then (held_setCur (by omega)) fun _ => Kept.bind fun tv => Kept.bind fun _ => ?_
  refine Kept.bind fun _ => Kept.then (held_setCur (by omega)) fun _ => Kept.bind fun fv => ?_
  refine Kept.bind fun _ => Kept.bind fun _ => ?_
  exact Kept.then (held_setCur (Nat.lt_succ_self joinB)) fun _ => held_emit

instance held_lowerBinary {kind : Bool → Ir.Value → Ir.Value → InstKind}
    {isString : (String → Option HirType) → Bool} :
    Kept (Held K Φ L n) (lowerBinary left right kind isString) := by
  unfold lowerBinary
  infer_instance

omit hr

instance held_lowerUnary {op : HirUnOp} : Kept (Held K Φ L n) (lowerUnary left op) := by
  cases op <;> (unfold lowerUnary; infer_instance)

instance held_orNonZero {asCond : Bool} : Kept (Held K Φ L n) (orNonZero asCond left) := by
  unfold orNonZero lowerNonZero
  infer_instance

end

mutual

theorem held_lowerAs (externFuncs : String → Option ExternSig) (asCond : Bool) (e : HirExpr)
    (n : Nat) : Kept (Held K Φ L n) (lowerAs externFuncs asCond e) := by
  cases e with
  | int | str | ident => exact held_orNonZero
  | bool value => cases asCond <;> exact held_emit
  | conditional cond thenExpr elseExpr =>
    have hc := held_lowerAs externFuncs true cond
    have ht := held_lowerAs externFuncs false thenExpr
    have he := held_lowerAs externFuncs false elseExpr
    exact held_orNonZero
  | binary op left right =>
    have hl := fun asCond => held_lowerAs externFuncs asCond left
    have hr := fun asCond => held_lowerAs externFuncs asCond right
    cases asCond with
    | false => cases op <;> exact held_lowerBinary
    | true =>
      cases op with
      | and => exact held_lowerAnd
      | or => exact held_lowerOr
      | _ => exact held_lowerBinary
  | unary op expr =>
    have hexpr := held_lowerAs externFuncs false expr
    cases asCond <;> exact held_lowerUnary
  | call name args =>
    have hargs := held_lowerArgs externFuncs args
    exact held_orNonZero

theorem held_lowerArgs (externFuncs : String → Option ExternSig) (es : List HirExpr) (n : Nat) :
    Kept (Held K Φ L n) (lowerArgs externFuncs es) := by
  cases es with
  | nil => exact kept_pure
  | cons e es =>
    have he := held_lowerAs externFuncs false e n
    have hes := held_lowerArgs externFuncs es n
    exact kept_bind

end

theorem hirExprs_stays : (hirExprs externFuncs).Stays where
  lowerExpr e := (held_lowerAs externFuncs false e _).keeps
  lowerCond e := (held_lowerAs externFuncs true e _).keeps
  lowerEffect e := Keeps.bind (held_lowerAs externFuncs false e _).keeps fun _ => Keeps.pure

end Expressions

theorem held_lowerParams (i : Nat) {ps : List (String × HirType)} (hps : ∀ p ∈ ps, p.1 ∉ K) :
    Kept (Held K Φ L n) (lowerParams (E := E) i ps) := by
  induction ps generalizing i with
  | nil => exact kept_pure
  | cons p ps ih =>
    obtain ⟨name, ty⟩ := p
    rw [forall_mem_cons] at hps
    have hrest := ih (i + 1) hps.2
    refine Kept.bind fun slot => Kept.then ⟨Keeps.modify fun st h => ?_⟩ fun _ => ?_
    · refine ⟨fun other hother => ?_, h.finallyScopes, h.length, h.cur⟩
      have hne : other ≠ name := fun heq => hps.1 (heq ▸ hother)
      exact (update_of_ne hne ..).trans (h.locals other hother)
    · refine Kept.bind fun _ => Kept.bind fun st => ?_
      split <;> infer_instance

theorem isScope_globals (globals : List String) :
    IsScope (fun _ => none) globals (globals.map fun name => (name, none)) where
  names := by
    unfold Scope.names
    rw [map_map]
    exact map_id _
  slots name hname := by
    clear hname
    induction globals with
    | nil => rfl
    | cons g globals ih =>
      unfold Scope.slot at ih ⊢
      rw [map_cons, lookup_cons]
      split
      · rfl
      · exact ih

/-- **In a function that keeps to its scopes every name is resolved to the innermost declaration
around it.** The expressions are any whose lowering leaves the table alone. -/
theorem scoped_of_funcOk (hx : x.Stays) (names : E → List String) {globals : List String}
    {fuel : Nat} {hf : HirFunc E} {lenv : LowerEnv} {st : LowerState E}
    (hok : FuncOk x names globals hf) (h : lowerFunc x fuel hf (.initial lenv) = some ((), st)) :
    lowerFuncScoped x names globals fuel hf (.initial lenv) = some ((), st) := by
  let outer := globals.filter fun name => name ∉ hf.params.map (·.1)
  have hentry : ∀ s, s = LowerState.initial lenv → Gives (newBlock (E := E) "entry") s fun idx s' =>
      idx = 0 ∧ Held outer [] (fun _ => none) 1 s' := by
    rintro s rfl idx s' hr
    cases hr
    exact ⟨rfl, fun _ _ => rfl, rfl, Nat.le_refl 1, Nat.lt_succ_self 0⟩
  have hnext : Kept (Held outer [] (fun _ => none) 1) (modify fun st : LowerState E =>
      { st with nextVal := hf.params.length }) := by
    apply held_modify <;> exact fun _ => rfl
  have hparams : ∀ p ∈ hf.params, p.1 ∉ outer := by
    intro p hp hin
    have hnot := (List.mem_filter.1 hin).2
    simp only [decide_eq_true_eq] at hnot
    exact hnot (List.mem_map_of_mem hp)
  have hfunc : Tracks (· = LowerState.initial lenv) (lowerFunc x fuel hf)
      (lowerFuncScoped x names globals fuel hf) fun _ _ => True := by
    refine Tracks.bind (Tracks.of_gives hentry) fun idx => ?_
    refine Tracks.of_start fun s hs => ?_
    obtain ⟨rfl, hheld⟩ := hs
    refine Tracks.imp (P := fun _ _ => True) ?_ (fun s' (hs' : s' = s) => hs' ▸ hheld) fun _ _ h => h
    refine Tracks.bind (held_setCur Nat.one_pos).tracks fun _ => ?_
    refine Tracks.keep fun _ => ?_
    refine Tracks.bind hnext.tracks fun _ => ?_
    refine Tracks.bind (held_lowerParams 0 hparams).tracks fun _ => ?_
    refine Tracks.of_start fun s₁ hs₁ => Tracks.get_right ?_
    -- the parameters hide functions, and nothing has hidden the others
    have hscope : IsScope s₁.locals (hf.params.map (·.1) ++ globals)
        (Scope.declare (globals.map fun name => (name, none)) (hf.params.map (·.1)) s₁) :=
      (isScope_globals globals).declare fun name hname hnot =>
        hs₁.locals name (List.mem_filter.2 ⟨hname, by simpa using hnot⟩)
    have hall : ∀ s, s = s₁ → Held ([] ++ (hf.params.map (·.1) ++ globals)) [] s₁.locals 1 s := by
      rintro s rfl
      exact ⟨fun _ _ => rfl, hs₁.finallyScopes, hs₁.length, hs₁.cur⟩
    cases hbody : hf.body with
    | none => exact Tracks.of_gives fun _ _ => Gives.pure trivial
    | some body =>
      have hseq := lowerSeq_tracks (n := 1) (lowerStmt_tracks hx fuel [] []) (hok body hbody)
        ⟨hscope, .nil⟩
      refine Tracks.imp (P := fun _ _ => True) ?_ hall fun _ _ h => h
      refine Tracks.keep fun _ => ?_
      refine Tracks.bind hseq fun _ => ?_
      exact (Alike.unlessTerminated held_popDropScope.tracks).imp (fun _ h => h.1)
        fun _ _ _ => trivial
  exact (hfunc _ rfl () st h).1

/-! ## Where the table goes wrong -/

def noEnv : LowerEnv := ⟨fun _ _ => none, [], none⟩

/-- A block with a local of its own, which does not hide another. -/
def innerOwn : HirFunc HirExpr where
  name := "own"
  params := [("a", .name ["int"])]
  body := some
    [.varDecl "x" (.name ["int"]) (some (.int 1)) false,
      .block [.varDecl "y" (.name ["int"]) (some (.ident "a")) false], .expr (.ident "x")]

theorem innerOwn_ok : FuncOk (hirExprs fun _ => none) HirExpr.names ["f"] innerOwn := by
  rintro body ⟨⟩
  refine .cons (.varDecl _ _ (by decide) ?_) (.cons (.block (.falls (.cons (.varDecl _ _ ?_ ?_)
    .nil))) (.cons (.expr _) .nil))
  · rintro e ⟨⟩
    decide
  · decide
  · rintro e ⟨⟩
    decide

theorem scoped_innerOwn : ∃ st,
    lowerFuncScoped (hirExprs fun _ => none) HirExpr.names ["f"] 2 innerOwn (.initial noEnv) =
      some ((), st) := by
  have hrun : (lowerFunc (hirExprs fun _ => none) 2 innerOwn (.initial noEnv)).isSome := by
    decide +kernel
  obtain ⟨⟨⟨⟩, st⟩, hst⟩ := Option.isSome_iff_exists.1 hrun
  exact ⟨st, scoped_of_funcOk hirExprs_stays HirExpr.names innerOwn_ok hst⟩

/-- The inner `x` stays in the table when its block ends. -/
def innerHides : HirFunc HirExpr where
  name := "hides"
  params := []
  body := some
    [.varDecl "x" (.name ["int"]) (some (.int 1)) false,
      .block [.varDecl "x" (.name ["int"]) (some (.int 2)) false], .expr (.ident "x")]

/-- **The outer variable is read from the slot of the inner one.** -/
theorem innerHides_unscoped :
    (∃ st, lowerFunc (hirExprs fun _ => none) 2 innerHides (.initial noEnv) = some ((), st) ∧
      st.decls.map (fun d => (d.name, d.slot)) = [("x", 0), ("x", 3)] ∧ st.sources 0 6 = some 3) ∧
    lowerFuncScoped (hirExprs fun _ => none) HirExpr.names [] 2 innerHides (.initial noEnv) =
      none := by
  constructor
  · have hrun : (lowerFunc (hirExprs fun _ => none) 2 innerHides (.initial noEnv)).map
        (fun r => (r.2.decls.map (fun d => (d.name, d.slot)), r.2.sources 0 6)) =
          some ([("x", 0), ("x", 3)], some 3) := by
      decide +kernel
    obtain ⟨⟨⟨⟩, st⟩, hst, heq⟩ := Option.map_eq_some_iff.1 hrun
    exact ⟨st, hst, congrArg Prod.fst heq, congrArg Prod.snd heq⟩
  · have hnone : (lowerFuncScoped (hirExprs fun _ => none) HirExpr.names [] 2 innerHides
        (.initial noEnv)).isNone := by
      decide +kernel
    exact Option.isNone_iff_eq_none.1 hnone

end Arth.Lower
