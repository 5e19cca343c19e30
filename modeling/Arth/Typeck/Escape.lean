import Arth.Typeck.Raising

/-!
# What escapes from an accepted function

On a path whose exceptions are all raised where the walk looks and are of a type that it reads
there, an exception that leaves a function without diagnostics is let out by the function's
`throws` clause.

* `Allowed` — the condition on a raised exception.
* `exprPaths_sound`, `stmtPaths_sound` — one rule of `Triple` for each construct.
-/

namespace Arth.Throws

open Arth.Ast List Option

variable {T : Type}

/-- One of the names lets the type in. -/
def Dynamics.Answers (d : Dynamics T) (names : List String) (t : T) : Prop :=
  ∃ name ∈ names, d.covers name t

/-- The check reads a name of the type that is raised: one in the clause that it finds for the
callee, or the one that it reads off the thrown expression. -/
def Raise.ReadRight (tb : Tables) (d : Dynamics T) (ev : Raise T) : Prop :=
  match ev.site with
  | .call callee => ∃ name ∈ tb.lookupCalleeThrows callee, d.covers name ev.type
  | .thrown e => ∃ name ∈ thrownType ev.place.vars e, d.covers name ev.type
  | .rethrown _ => True

/-- **The exception is raised where the walk looks, with a type that it reads there.** -/
def Raise.Allowed (tb : Tables) (d : Dynamics T) (ev : Raise T) : Prop :=
  ev.place.seen = true ∧ ev.ReadRight tb d

/-- What a variable is known to hold is let in by the clause that the walk has for it. -/
def Known (d : Dynamics T) (vars : Vars) (s : Env T) : Prop :=
  ∀ x t, s x = some t → ∃ name, vars.lookup x = some name ∧ d.covers name t

/-- An early exit that raises is answered for. -/
def Ends (d : Dynamics T) (names : List String) (P : Env T → Prop) (a : Exit T) (s : Env T) :
    Prop :=
  P s ∧ ∀ t, a = .raised t → d.Answers names t

variable {tb : Tables} {d : Dynamics T} {names caught declared : List String} {pl : Place}
  {P : Env T → Prop} {t : T} {l r : List Expr}

theorem Dynamics.Answers.of_answered {name : String}
    (h : answered caught declared name = true) (hname : d.covers name t) :
    d.Answers (caught ++ declared) t := by
  have herror : d.covers "Error" t := .inl rfl
  simp only [answered, Bool.or_eq_true, contains_iff_mem] at h
  rcases h with (h | h) | (h | h)
  · exact ⟨name, mem_append_left _ h, hname⟩
  · exact ⟨"Error", mem_append_left _ h, herror⟩
  · exact ⟨name, mem_append_right _ h, hname⟩
  · exact ⟨"Error", mem_append_right _ h, herror⟩

theorem raising_sound {site : Site} {types : T → Prop}
    (h : ∀ t, types t → (⟨pl, site, t⟩ : Raise T).Allowed tb d → d.Answers names t) :
    Triple (Raise.Allowed tb d) P (raising pl site types) P (Ends d names P) := by
  refine Triple.failing ?_
  rintro ev a s ⟨t, ht, rfl, rfl⟩ hok hs
  refine ⟨hs, ?_⟩
  rintro t' ⟨⟩
  exact h t ht hok

/-! ## Expressions -/

/-- Every call in the list is answered for where the walk looks. -/
def CallsAnswered (tb : Tables) (caught declared : List String) (pl : Place)
    (callees : List Expr) : Prop :=
  pl.seen = true → ∀ callee ∈ callees, ∀ name ∈ tb.lookupCalleeThrows callee,
    answered caught declared name = true

theorem CallsAnswered.left
    (h : CallsAnswered tb caught declared pl (l ++ r)) : CallsAnswered tb caught declared pl l :=
  fun hseen callee hc => h hseen callee (mem_append_left _ hc)

theorem CallsAnswered.right
    (h : CallsAnswered tb caught declared pl (l ++ r)) : CallsAnswered tb caught declared pl r :=
  fun hseen callee hc => h hseen callee (mem_append_right _ hc)

variable {e : Expr}

theorem checkExprThrows_eq_nil (h : tb.checkExprThrows caught declared e = []) :
    ∀ callee ∈ callees true e, ∀ name ∈ tb.lookupCalleeThrows callee,
      answered caught declared name = true := by
  intro callee hcallee name hname
  have hnone := flatMap_eq_nil_iff.1 h callee hcallee
  have hfilter := map_eq_nil_iff.1 hnone
  have := filter_eq_nil_iff.1 hfilter name hname
  simpa using this

mutual

theorem exprPaths_sound : ∀ (e : Expr) (pl : Place),
    CallsAnswered tb caught declared pl (callees true e) →
    Triple (Raise.Allowed tb d) P (exprPaths d pl e) P (Ends d (caught ++ declared) P)
  | .call callee args, pl, h => by
    have hown : CallsAnswered tb caught declared pl [callee] := fun hseen c hc => by
      rw [mem_singleton] at hc
      exact h hseen c (hc ▸ mem_cons_self)
    have hrest : CallsAnswered tb caught declared pl (callees true callee ++ calleesOfList true args) :=
      fun hseen c hc => h hseen c (mem_cons_of_mem _ hc)
    refine (exprPaths_sound callee pl hrest.left).seq
      ((exprListPaths_sound args pl hrest.right).seq (Triple.skip.alt (raising_sound ?_)))
    rintro t - ⟨hseen, name, hname, hcovers⟩
    exact .of_answered (hown hseen callee mem_cons_self name hname) hcovers
  | .binary l op r, pl, h => by
    have hl := exprPaths_sound l pl h.left
    have hr := exprPaths_sound r pl h.right
    rw [exprPaths]
    split
    · exact hl.seq (hr.alt Triple.skip)
    · exact hl.seq hr
  | .unary _ inner, pl, h | .await inner, pl, h | .cast _ inner, pl, h => exprPaths_sound inner pl h
  | .ternary c t f, pl, h =>
    (exprPaths_sound c pl h.left).seq
      ((exprPaths_sound t pl h.right.left).alt (exprPaths_sound f pl h.right.right))
  | .member obj _, pl, h => exprPaths_sound obj pl h
  | .optionalMember obj _, pl, h => exprPaths_sound obj pl.ungathered h
  | .index obj idx, pl, h => (exprPaths_sound obj pl h.left).seq (exprPaths_sound idx pl h.right)
  | .listLit items, pl, h => exprListPaths_sound items pl h
  | .mapLit pairs spread, pl, h =>
    (exprPairPaths_sound pairs pl h.left).seq (exprOptionPaths_sound spread pl h.right)
  | .structLit _ fields spread, pl, h =>
    (exprFieldPaths_sound fields pl h.left).seq (exprOptionPaths_sound spread pl h.right)
  | .int _, _, _ | .float _, _, _ | .str _, _, _ | .char _, _, _ | .bool _, _, _
  | .ident _, _, _ | .fnLiteral _ _, _, _ => Triple.skip

theorem exprListPaths_sound : ∀ (es : List Expr) (pl : Place),
    CallsAnswered tb caught declared pl (calleesOfList true es) →
    Triple (Raise.Allowed tb d) P (exprListPaths d pl es) P (Ends d (caught ++ declared) P)
  | [], _, _ => Triple.skip
  | e :: es, pl, h => (exprPaths_sound e pl h.left).seq (exprListPaths_sound es pl h.right)

theorem exprOptionPaths_sound : ∀ (e : Option Expr) (pl : Place),
    CallsAnswered tb caught declared pl (calleesOfOption true e) →
    Triple (Raise.Allowed tb d) P (exprOptionPaths d pl e) P (Ends d (caught ++ declared) P)
  | none, _, _ => Triple.skip
  | some e, pl, h => exprPaths_sound e pl h

theorem exprPairPaths_sound : ∀ (pairs : List (Expr × Expr)) (pl : Place),
    CallsAnswered tb caught declared pl (calleesOfPairs true pairs) →
    Triple (Raise.Allowed tb d) P (exprPairPaths d pl pairs) P (Ends d (caught ++ declared) P)
  | [], _, _ => Triple.skip
  | (k, v) :: rest, pl, h =>
    (exprPaths_sound k pl h.left).seq
      ((exprPaths_sound v pl h.right.left).seq (exprPairPaths_sound rest pl h.right.right))

theorem exprFieldPaths_sound : ∀ (fields : List (String × Expr)) (pl : Place),
    CallsAnswered tb caught declared pl (calleesOfFields true fields) →
    Triple (Raise.Allowed tb d) P (exprFieldPaths d pl fields) P (Ends d (caught ++ declared) P)
  | [], _, _ => Triple.skip
  | (_, v) :: rest, pl, h =>
    (exprPaths_sound v pl h.left).seq (exprFieldPaths_sound rest pl h.right)

end

theorem checkExprThrows_sound (h : pl.seen = true → tb.checkExprThrows caught declared e = []) :
    Triple (Raise.Allowed tb d) P (exprPaths d pl e) P (Ends d (caught ++ declared) P) :=
  exprPaths_sound e pl fun hseen => checkExprThrows_eq_nil (h hseen)

theorem checkOption_sound {e : Option Expr}
    (h : pl.seen = true → tb.checkOption caught declared e = []) :
    Triple (Raise.Allowed tb d) P (exprOptionPaths d pl e) P (Ends d (caught ++ declared) P) := by
  cases e with
  | none => exact Triple.skip
  | some e => exact checkExprThrows_sound h

theorem unread_sound (e : Expr) :
    Triple (Raise.Allowed tb d) P (exprPaths d pl.unread e) P (Ends d (caught ++ declared) P) :=
  checkExprThrows_sound fun hseen => absurd hseen Bool.false_ne_true

variable {vars : Vars} {s : Env T} {ty : Option NamePath} {var : Option String}

theorem Known.forget (h : Known d vars s) (x : String) : Known d vars (forget x s) := by
  intro y t hy
  by_cases hyx : y = x
  · simp [Throws.forget, hyx] at hy
  · rw [Throws.forget, if_neg hyx] at hy
    exact h y t hy

theorem Known.bindCatch (h : Known d vars s) (htakes : d.takes (ty.map typeText) t) :
    Known d (Catch.bind vars ty var) (bindCatch ty var t s) := by
  cases var with
  | none => cases ty <;> exact h
  | some x =>
    cases ty with
    | none => exact h.forget x
    | some np =>
      intro y t' hy
      by_cases hyx : y = x
      · simp only [Throws.bindCatch, hyx, if_true, some.injEq] at hy
        refine ⟨typeText np, ?_, hy ▸ htakes⟩
        simp [Catch.bind, hyx]
      · simp only [Throws.bindCatch, hyx, if_false] at hy
        obtain ⟨name, hname, hcovers⟩ := h y t' hy
        refine ⟨name, ?_, hcovers⟩
        simpa [Catch.bind, lookup_cons, beq_false_of_ne hyx] using hname

theorem Known.unbindCatch
    (h : Known d (Catch.bind vars ty var) s) : Known d vars (unbindCatch var s) := by
  cases var with
  | none => cases ty <;> exact h
  | some x =>
    cases ty with
    | none => exact Known.forget h x
    | some np =>
      intro y t hy
      by_cases hyx : y = x
      · simp [Throws.unbindCatch, Throws.forget, hyx] at hy
      · simp only [Throws.unbindCatch, Option.elim, Throws.forget, hyx, if_false] at hy
        obtain ⟨name, hname, hcovers⟩ := h y t hy
        refine ⟨name, ?_, hcovers⟩
        simpa [Catch.bind, lookup_cons, beq_false_of_ne hyx] using hname

/-! ## Statements -/

variable {Q : Env T → Prop} {R : Exit T → Env T → Prop}

theorem drop_sound {p : Run T} {handler : Exit T → Option (Run T)}
    (hp : Triple (Raise.Allowed tb d) P p P (Ends d names P))
    (hskip : ∀ a q, handler a = some q → q = Paths.skip) :
    Triple (Raise.Allowed tb d) P (p.handle handler) P (Ends d names P) := by
  refine Triple.handle hp (fun a s _ h => h) fun a q hq => ?_
  rw [hskip a q hq]
  exact Triple.skip.weaken (fun s h => h) (fun s h => h.1) fun a s h => h

variable {label : Option String} {catches : List Catch} {l r : List String} {a : Exit T} {q : Run T}

theorem onBreak_skip (h : onBreak label a = some q) : q = Paths.skip := by
  cases a with
  | breakTo l =>
    rw [onBreak] at h
    split at h
    · exact (some.inj h).symm
    · cases h
  | _ => cases h

theorem onContinue_skip (h : onContinue label a = some q) : q = Paths.skip := by
  cases a with
  | continueTo l =>
    rw [onContinue] at h
    split at h
    · exact (some.inj h).symm
    · cases h
  | _ => cases h

theorem looping_sound {cond body step : Run T}
    (hcond : Triple (Raise.Allowed tb d) P cond P (Ends d names P))
    (hbody : Triple (Raise.Allowed tb d) P body P (Ends d names P))
    (hstep : Triple (Raise.Allowed tb d) P step P (Ends d names P)) :
    Triple (Raise.Allowed tb d) P (looping cond body step label) P (Ends d names P) := by
  have hkept : Triple (Raise.Allowed tb d) P (body.handle (onContinue label)) P
      (Ends d names P) := drop_sound hbody fun _ _ => onContinue_skip
  have hround := hcond.seq (hkept.seq hstep)
  exact drop_sound (hround.loop.seq hcond) fun _ _ => onBreak_skip

theorem throwing_sound
    (h : pl.seen = true → ∀ name ∈ thrownType pl.vars e, answered caught declared name = true) :
    Triple (Raise.Allowed tb d) (Known d pl.vars) (throwing d pl e) (Known d pl.vars)
      (Ends d (caught ++ declared) (Known d pl.vars)) := by
  refine Triple.depending fun s hs => ?_
  have hstate : ∀ s', s' = s → Known d pl.vars s' := fun s' hs' => hs' ▸ hs
  cases hheld : held s e with
  | none =>
    refine Triple.weaken (raising_sound (P := Known d pl.vars) ?_) hstate (fun s h => h)
      fun a s h => h
    rintro t - ⟨hseen, name, hname, hcovers⟩
    exact .of_answered (h hseen name hname) hcovers
  | some known =>
    -- a caught exception is of a type that its clause lets in, and the walk reads that clause
    refine Triple.weaken (raising_sound (P := Known d pl.vars) ?_) hstate (fun s h => h)
      fun a s h => h
    rintro t rfl ⟨hseen, -⟩
    cases e with
    | ident x =>
      obtain ⟨t, ht, rfl⟩ := map_eq_some_iff.1 hheld
      obtain ⟨name, hname, hcovers⟩ := hs x t ht
      refine .of_answered (h hseen name ?_) hcovers
      simp [thrownType, hname]
    | _ => cases hheld

theorem catchPaths_none [DecidableEq T]
    (h : catchPaths d pl catches t = none) : ¬ d.Answers (catchTexts catches) t := by
  induction catches with
  | nil => rintro ⟨name, hname, -⟩; cases hname
  | cons c rest ih =>
    obtain ⟨ty, var, b⟩ := c
    rw [catchPaths] at h
    split at h
    · cases h
    · next htakes =>
      rintro ⟨name, hname, hcovers⟩
      cases ty with
      | none => exact htakes trivial
      | some np =>
        rcases mem_cons.1 hname with rfl | hrest
        · exact htakes hcovers
        · exact ih h ⟨name, hrest, hcovers⟩

theorem quiet_left {p : Prop} (h : p → l ++ r = []) (hp : p) : l = [] :=
  (append_eq_nil_iff.1 (h hp)).1

theorem quiet_right {p : Prop} (h : p → l ++ r = []) (hp : p) : r = [] :=
  (append_eq_nil_iff.1 (h hp)).2

variable [DecidableEq T]

theorem try_sound {body finally_ : Run T} (hbody : Triple (Raise.Allowed tb d) P body P
      (Ends d (catchTexts catches ++ caught ++ declared) P))
    (hcatch : ∀ t q, catchPaths d pl catches t = some q →
      Triple (Raise.Allowed tb d) P q P (Ends d (caught ++ declared) P))
    (hfinally : Triple (Raise.Allowed tb d) P finally_ P (Ends d (caught ++ declared) P)) :
    Triple (Raise.Allowed tb d) P
      ((body.handle (onRaise (catchPaths d pl catches))).always finally_) P
      (Ends d (caught ++ declared) P) := by
  refine Triple.always (Triple.handle hbody ?_ ?_) hfinally
    fun a => Triple.frame (F := ∀ t, a = .raised t → d.Answers (caught ++ declared) t)
      fun _ => hfinally
  · rintro a s hnone ⟨hs, hanswers⟩
    refine ⟨hs, ?_⟩
    rintro t rfl
    obtain ⟨name, hname, hcovers⟩ := hanswers t rfl
    rw [append_assoc, mem_append] at hname
    rcases hname with hname | hname
    · exact absurd ⟨name, hname, hcovers⟩ (catchPaths_none hnone)
    · exact ⟨name, hname, hcovers⟩
  · intro a q hq
    cases a with
    | raised t => exact (hcatch t q hq).weaken (fun s h => h.1) (fun s h => h) fun a s h => h
    | _ => cases hq

mutual

theorem stmtPaths_sound : ∀ (st : Stmt) (pl : Place) (caught : List String) (label : Option String),
    (pl.seen = true → tb.walkStmt declared caught pl.vars st = []) →
    Triple (Raise.Allowed tb d) (Known d pl.vars) (stmtPaths d pl label st) (Known d pl.vars)
      (Ends d (caught ++ declared) (Known d pl.vars))
  | .printStr _, _, _, _, _ | .printRawStr _, _, _, _, _ => Triple.skip
  | .printExpr e, _, _, _, _ | .printRawExpr e, _, _, _, _ => unread_sound e
  | .ifElse cond thenBlk elseBlk, pl, caught, _, h =>
    (checkExprThrows_sound (quiet_left h)).seq
      ((blockPaths_sound thenBlk pl caught (quiet_left (quiet_right h))).alt
        (optionPaths_sound elseBlk pl caught (quiet_right (quiet_right h))))
  | .whileLoop cond body, pl, caught, _, h =>
    looping_sound (checkExprThrows_sound (quiet_left h))
      (blockPaths_sound body pl caught (quiet_right h)) Triple.skip
  | .forLoop init cond step body, pl, caught, _, h => by
    have hinit := oneOptionPaths_sound init (pl.aside (init.elim true gathersInit)) caught rfl
    have hstep := oneOptionPaths_sound step (pl.aside (step.elim true gathersStep)) caught rfl
    exact hinit.seq (looping_sound (checkOption_sound (quiet_left h))
      (blockPaths_sound body pl caught (quiet_right h)) hstep)
  | .labeled l stmt, pl, caught, _, h => by
    refine drop_sound (stmtPaths_sound stmt (pl.labeled (entersLabeled stmt)) caught (some l) ?_)
      fun _ _ => onBreak_skip
    intro hseen
    obtain ⟨hseen, henters⟩ := Bool.and_eq_true_iff.1 hseen
    have hwalk := h hseen
    rw [Tables.walkStmt, if_pos henters] at hwalk
    exact hwalk
  | .switch e cases patternCases default, pl, caught, _, h => by
    have hdefault := optionPaths_sound default pl caught (quiet_right (quiet_right h))
    exact (checkExprThrows_sound (quiet_left h)).seq
      ((casePaths_sound cases pl caught (quiet_left (quiet_right h)) hdefault).alt
        (patternCasePaths_sound patternCases pl.unseen caught rfl))
  | .tryCatch tryBlk catches finallyBlk, pl, caught, _, h => by
    have hwalk := quiet_right (quiet_right h)
    exact try_sound
      (blockPaths_sound tryBlk (pl.inTry catches) (catchTexts catches ++ caught) (quiet_left hwalk))
      (catchPaths_sound catches pl caught (quiet_left (quiet_right hwalk)))
      (optionPaths_sound finallyBlk pl caught (quiet_right (quiet_right hwalk)))
  | .assign x e, pl, caught, _, h | .assignOp x _ e, pl, caught, _, h =>
    (checkExprThrows_sound h).seq (Triple.update fun s hs => hs.forget x)
  | .fieldAssign obj _ e, pl, caught, _, h => (unread_sound obj).seq (checkExprThrows_sound h)
  | .varDecl _ _ _ _ _ x init, pl, caught, _, h =>
    (checkOption_sound h).seq (Triple.update fun s hs => hs.forget x)
  | .breakLoop _, _, _, _, _ | .continueLoop _, _, _, _, _ =>
    Triple.leave fun s hs => ⟨hs, fun t ht => nomatch ht⟩
  | .returnExpr e, pl, caught, _, h =>
    (checkOption_sound h).seq (Triple.leave fun s hs => ⟨hs, fun t ht => nomatch ht⟩)
  | .throwExpr e, pl, caught, _, h => by
    refine (unread_sound e).seq (throwing_sound fun hseen name hname => ?_)
    have hnone := List.map_eq_nil_iff.1 (h hseen)
    have := List.filter_eq_nil_iff.1 hnone name (Option.mem_toList.2 hname)
    simpa using this
  | .panicExpr e, pl, caught, _, _ =>
    (unread_sound e).seq (Triple.leave fun s hs => ⟨hs, fun t ht => nomatch ht⟩)
  | .block b, pl, caught, _, h | .unsafeBlock b, pl, caught, _, h => blockPaths_sound b pl caught h
  | .expr e, pl, caught, _, h => checkExprThrows_sound h

theorem blockPaths_sound : ∀ (b : List Stmt) (pl : Place) (caught : List String),
    (pl.seen = true → tb.walkBlock declared caught pl.vars b = []) →
    Triple (Raise.Allowed tb d) (Known d pl.vars) (blockPaths d pl b) (Known d pl.vars)
      (Ends d (caught ++ declared) (Known d pl.vars))
  | [], _, _, _ => Triple.skip
  | st :: rest, pl, caught, h =>
    (stmtPaths_sound st pl caught none (quiet_left h)).seq
      (blockPaths_sound rest pl caught (quiet_right h))

theorem optionPaths_sound : ∀ (b : Option (List Stmt)) (pl : Place) (caught : List String),
    (pl.seen = true → tb.walkOption declared caught pl.vars b = []) →
    Triple (Raise.Allowed tb d) (Known d pl.vars) (optionPaths d pl b) (Known d pl.vars)
      (Ends d (caught ++ declared) (Known d pl.vars))
  | none, _, _, _ => Triple.skip
  | some b, pl, caught, h => blockPaths_sound b pl caught h

theorem oneOptionPaths_sound : ∀ (st : Option Stmt) (pl : Place) (caught : List String),
    pl.seen = false →
    Triple (Raise.Allowed tb d) (Known d pl.vars) (oneOptionPaths d pl st) (Known d pl.vars)
      (Ends d (caught ++ declared) (Known d pl.vars))
  | none, _, _, _ => Triple.skip
  | some st, pl, caught, h =>
    stmtPaths_sound st pl caught none fun hseen => absurd hseen (by simp [h])

theorem casePaths_sound : ∀ (cases : List (Expr × List Stmt)) (pl : Place)
    (caught : List String) {default : Run T},
    (pl.seen = true → tb.walkCases declared caught pl.vars cases = []) →
    Triple (Raise.Allowed tb d) (Known d pl.vars) default (Known d pl.vars)
      (Ends d (caught ++ declared) (Known d pl.vars)) →
    Triple (Raise.Allowed tb d) (Known d pl.vars) (casePaths d pl cases default)
      (Known d pl.vars) (Ends d (caught ++ declared) (Known d pl.vars))
  | [], _, _, _, _, hdefault => hdefault
  | (e, b) :: rest, pl, caught, _, h, hdefault =>
    (unread_sound e).seq ((blockPaths_sound b pl caught (quiet_left h)).alt
      (casePaths_sound rest pl caught (quiet_right h) hdefault))

theorem patternCasePaths_sound : ∀ (cases : List (Pattern × List Stmt)) (pl : Place)
    (caught : List String), pl.seen = false →
    Triple (Raise.Allowed tb d) (Known d pl.vars) (patternCasePaths d pl cases)
      (Known d pl.vars) (Ends d (caught ++ declared) (Known d pl.vars))
  | [], _, _, _ => Triple.skip
  | (_, b) :: rest, pl, caught, h =>
    (blockPaths_sound b pl caught fun hseen => absurd hseen (by simp [h])).alt
      (patternCasePaths_sound rest pl caught h)

theorem catchPaths_sound : ∀ (catches : List Catch) (pl : Place) (caught : List String),
    (pl.seen = true → tb.walkCatches declared caught pl.vars catches = []) →
    ∀ t q, catchPaths d pl catches t = some q →
      Triple (Raise.Allowed tb d) (Known d pl.vars) q (Known d pl.vars)
        (Ends d (caught ++ declared) (Known d pl.vars))
  | [], _, _, _, _, _, hq => nomatch hq
  | (ty, var, b) :: rest, pl, caught, h, t, q, hq => by
    rw [catchPaths] at hq
    split at hq
    · next htakes =>
      obtain rfl := some.inj hq
      have hbody := blockPaths_sound b (pl.inCatch ty var) caught (quiet_left h)
      have hbound : Triple (Raise.Allowed tb d) (Known d pl.vars)
          (Paths.update (bindCatch ty var t)) (Known d (pl.inCatch ty var).vars)
          (Ends d (caught ++ declared) (Known d (pl.inCatch ty var).vars)) :=
        Triple.update fun s hs => hs.bindCatch htakes
      exact (hbound.seq hbody).always (Triple.update fun s hs => Known.unbindCatch hs)
        fun a => Triple.update fun s hs => ⟨Known.unbindCatch hs.1, hs.2⟩
    · exact catchPaths_sound rest pl caught (quiet_right h) t q hq

end

end Arth.Throws
