import Arth.Typeck.Escape

/-!
# Functions whose exceptions are handled

The points of a body at which an exception may be raised, each with its place, and what it
takes for the check to accept a function whose exceptions are all caught or declared: the
names that the check reads at a point are of types raised there, a type is spelled in one way
around it, and an untyped clause is not what catches it.

* `points` — calls, thrown expressions and the types of clauses.
* `Handled` — every exception of a point is taken by a clause around it or declared.
* `throws_check` — an accepted function lets out what it declares, and a handled one is accepted.
-/

namespace Arth.Throws

open Arth.Ast List

/-- What stands at a place: a call, a thrown expression, or the type of a catch clause. -/
inductive Point where
  | call (callee : Expr)
  | thrown (e : Expr)
  | clause (ty : NamePath)

abbrev Points := List (Place × Point)

def exprPoints (pl : Place) (e : Expr) : Points :=
  (callees false e).map (fun callee => (pl, .call callee)) ++
    (callees true e).map fun callee => (pl.ungathered, .call callee)

def exprOptionPoints (pl : Place) (e : Option Expr) : Points := e.elim [] (exprPoints pl)

def clausePoints (pl : Place) (catches : List Catch) : Points :=
  (catches.filterMap fun c => c.1).map fun ty => (pl, .clause ty)

mutual

/-- The points of a statement, those of dead code included. -/
def points (pl : Place) : Stmt → Points
  | .printStr _ | .printRawStr _ | .breakLoop _ | .continueLoop _ => []
  | .printExpr e | .printRawExpr e | .panicExpr e => exprPoints pl.unread e
  | .ifElse cond thenBlk elseBlk =>
    exprPoints pl cond ++ (blockPoints pl thenBlk ++ optionPoints pl elseBlk)
  | .whileLoop cond body => exprPoints pl cond ++ blockPoints pl body
  | .forLoop init cond step body =>
    oneOptionPoints (pl.aside (init.elim true gathersInit)) init ++ (exprOptionPoints pl cond ++
      (oneOptionPoints (pl.aside (step.elim true gathersStep)) step ++ blockPoints pl body))
  | .labeled _ stmt => points (pl.labeled (entersLabeled stmt)) stmt
  | .switch e cases patternCases default =>
    exprPoints pl e ++ (casePoints pl cases ++
      (patternCasePoints pl.unseen patternCases ++ optionPoints pl default))
  | .tryCatch tryBlk catches finallyBlk =>
    clausePoints pl catches ++ (blockPoints (pl.inTry catches) tryBlk ++
      (catchPoints pl catches ++ optionPoints pl finallyBlk))
  | .assign _ e | .assignOp _ _ e | .expr e => exprPoints pl e
  | .fieldAssign obj _ e => exprPoints pl.unread obj ++ exprPoints pl e
  | .varDecl _ _ _ _ _ _ e | .returnExpr e => exprOptionPoints pl e
  | .throwExpr e => exprPoints pl.unread e ++ [(pl, .thrown e)]
  | .block b | .unsafeBlock b => blockPoints pl b

def blockPoints (pl : Place) : List Stmt → Points
  | [] => []
  | st :: rest => points pl st ++ blockPoints pl rest

def optionPoints (pl : Place) : Option (List Stmt) → Points
  | none => []
  | some b => blockPoints pl b

def oneOptionPoints (pl : Place) : Option Stmt → Points
  | none => []
  | some st => points pl st

def casePoints (pl : Place) : List (Expr × List Stmt) → Points
  | [] => []
  | (e, b) :: rest => exprPoints pl.unread e ++ (blockPoints pl b ++ casePoints pl rest)

def patternCasePoints (pl : Place) : List (Pattern × List Stmt) → Points
  | [] => []
  | (_, b) :: rest => blockPoints pl b ++ patternCasePoints pl rest

def catchPoints (pl : Place) : List Catch → Points
  | [] => []
  | (ty, var, b) :: rest => blockPoints (pl.inCatch ty var) b ++ catchPoints pl rest

end

variable {T : Type}

/-- The clause of a catch variable that is thrown again. -/
def clauseOf (vars : Vars) : Expr → Option String
  | .ident x => vars.lookup x
  | _ => none

/-- The exceptions of a point: a catch variable may hold whatever its clause lets in. -/
def Dynamics.raises (d : Dynamics T) (pl : Place) : Point → T → Prop
  | .call callee, t => d.callThrows callee t
  | .thrown e, t => (clauseOf pl.vars e).elim (d.typeOf e t) fun name => d.covers name t
  | .clause _, _ => False

/-- **All exceptions are caught or declared.** -/
def Dynamics.Handled (d : Dynamics T) (ps : Points) : Prop :=
  ∀ pl pt, (pl, pt) ∈ ps → ∀ t, d.raises pl pt t → ∃ clause ∈ pl.clauses, d.takes clause t

/-- The names that the walk and the exhaustiveness check read at a point. -/
def Tables.readNames (tb : Tables) (pl : Place) : Point → List String
  | .call callee => if pl.seen || pl.gathered then tb.lookupCalleeThrows callee else []
  | .thrown e =>
    (if pl.seen then (thrownType pl.vars e).toList else []) ++
      (if pl.gathered then (collectedType e).toList else [])
  | .clause _ => []

/-- A name read at a point stands for a type raised there, the clauses around it and the
`throws` clause spell the type in the same way, and an untyped clause is not needed. -/
structure Dynamics.Plain (d : Dynamics T) (pl : Place) (pt : Point) (name : String) (t : T) :
    Prop where
  denotes : d.denotes name = some t
  raises : d.raises pl pt t
  spelled : ∀ clause, some clause ∈ pl.clauses → d.denotes clause = some t → clause = name
  typed : none ∈ pl.clauses → ∃ clause, some clause ∈ pl.clauses ∧ d.covers clause t

/-- **The points are read as they are**, and the types named in clauses exist. -/
def Tables.ReadsPlainly (tb : Tables) (d : Dynamics T) (ps : Points) : Prop :=
  (∀ pl pt, (pl, pt) ∈ ps → ∀ name ∈ tb.readNames pl pt, ∃ t, d.Plain pl pt name t) ∧
    ∀ pl ty, (pl, .clause ty) ∈ ps → pl.seen = true → tb.knownType ty = true

/-- The types named by the clauses around a place and by the `throws` clause. -/
def Place.texts (pl : Place) : List String := pl.clauses.filterMap id

/-- A name is answered for by the clauses around a place. -/
def Place.Answers (pl : Place) (name : String) : Prop := name ∈ pl.texts ∨ "Error" ∈ pl.texts

/-- What the check reads is answered for, and the types named in clauses exist. -/
def Tables.Quiet (tb : Tables) (ps : Points) : Prop :=
  (∀ pl pt, (pl, pt) ∈ ps → ∀ name ∈ tb.readNames pl pt, pl.Answers name) ∧
    ∀ pl ty, (pl, .clause ty) ∈ ps → pl.seen = true → tb.knownType ty = true

variable {tb : Tables} {d : Dynamics T} {pl : Place} {caught declared : List String} {name : String}
    {catches : List Catch} {l r : List String} {e : Option Expr} {f : FuncDecl} {t : T}

theorem Dynamics.Plain.answers {pt : Point} (h : d.Plain pl pt name t)
    (hhandled : ∃ clause ∈ pl.clauses, d.takes clause t) : pl.Answers name := by
  have htyped : ∃ clause, some clause ∈ pl.clauses ∧ d.covers clause t := by
    obtain ⟨clause, hmem, htakes⟩ := hhandled
    cases clause with
    | none => exact h.typed hmem
    | some clause => exact ⟨clause, hmem, htakes⟩
  obtain ⟨clause, hmem, hcovers⟩ := htyped
  have htext : clause ∈ pl.texts := mem_filterMap.2 ⟨some clause, hmem, rfl⟩
  rcases hcovers with rfl | hdenotes
  · exact .inr htext
  · rw [← h.spelled clause hmem hdenotes]
    exact .inl htext

theorem Dynamics.Handled.quiet {ps : Points} (h : d.Handled ps) (hread : tb.ReadsPlainly d ps) :
    tb.Quiet ps := by
  refine ⟨fun pl pt hmem name hname => ?_, hread.2⟩
  obtain ⟨t, hplain⟩ := hread.1 pl pt hmem name hname
  exact hplain.answers (h pl pt hmem t hplain.raises)

theorem Tables.Quiet.left {l r : Points} (h : tb.Quiet (l ++ r)) : tb.Quiet l :=
  ⟨fun pl pt hmem => h.1 pl pt (mem_append_left _ hmem),
    fun pl ty hmem => h.2 pl ty (mem_append_left _ hmem)⟩

theorem Tables.Quiet.right {l r : Points} (h : tb.Quiet (l ++ r)) : tb.Quiet r :=
  ⟨fun pl pt hmem => h.1 pl pt (mem_append_right _ hmem),
    fun pl ty hmem => h.2 pl ty (mem_append_right _ hmem)⟩

theorem Place.Answers.answered (h : pl.Answers name)
    (htexts : pl.texts = caught ++ declared) : answered caught declared name = true := by
  rw [Place.Answers, htexts] at h
  simp only [mem_append] at h
  simp only [Throws.answered, Bool.or_eq_true, contains_iff_mem]
  tauto

theorem texts_start (declared : List String) : (Place.start declared).texts = declared := by
  simp [Place.texts, Place.start]

theorem texts_inTry (pl : Place) (catches : List Catch) :
    (pl.inTry catches).texts = catchTexts catches ++ pl.texts := by
  simp [Place.texts, Place.inTry, catchTexts, filterMap_map]

/-! ## The exhaustiveness check -/

theorem collectFromExpr_answers {e : Expr} (hgathered : pl.gathered = true)
    (h : tb.Quiet (exprPoints pl e)) : ∀ name ∈ tb.collectFromExpr e, pl.Answers name := by
  intro name hname
  obtain ⟨callee, hcallee, hname⟩ := mem_flatMap.1 hname
  have hmem : (pl, Point.call callee) ∈ exprPoints pl e :=
    mem_append_left _ (mem_map.2 ⟨callee, hcallee, rfl⟩)
  refine h.1 pl (.call callee) hmem name ?_
  rw [Tables.readNames, hgathered, Bool.or_true, if_pos rfl]
  exact hname

theorem collectFromOption_answers (hgathered : pl.gathered = true)
    (h : tb.Quiet (exprOptionPoints pl e)) : ∀ name ∈ tb.collectFromOption e, pl.Answers name := by
  cases e with
  | none => intro name hname; cases hname
  | some e => exact collectFromExpr_answers hgathered h

theorem answers_append (hl : ∀ name ∈ l, pl.Answers name)
    (hr : ∀ name ∈ r, pl.Answers name) : ∀ name ∈ l ++ r, pl.Answers name := by
  intro name hname
  rcases mem_append.1 hname with hname | hname
  · exact hl name hname
  · exact hr name hname

theorem aside_gathered (hgathered : pl.gathered = true) : (pl.aside true).gathered = true := by
  rw [Place.aside, hgathered]
  rfl

theorem collectFromInit_answers {init : Option Stmt} (hgathered : pl.gathered = true)
    (h : tb.Quiet (oneOptionPoints (pl.aside (init.elim true gathersInit)) init)) :
    ∀ name ∈ init.elim [] tb.collectFromInit, pl.Answers name := by
  have haside := aside_gathered hgathered
  cases init with
  | none => intro name hname; cases hname
  | some st =>
    show ∀ name ∈ tb.collectFromInit st, (pl.aside true).Answers name
    cases st with
    | varDecl => exact collectFromOption_answers haside h
    | assign | expr => exact collectFromExpr_answers haside h
    | _ => intro name hname; cases hname

theorem collectFromStep_answers {step : Option Stmt} (hgathered : pl.gathered = true)
    (h : tb.Quiet (oneOptionPoints (pl.aside (step.elim true gathersStep)) step)) :
    ∀ name ∈ step.elim [] tb.collectFromStep, pl.Answers name := by
  have haside := aside_gathered hgathered
  cases step with
  | none => intro name hname; cases hname
  | some st =>
    show ∀ name ∈ tb.collectFromStep st, (pl.aside true).Answers name
    cases st with
    | assign | assignOp | expr => exact collectFromExpr_answers haside h
    | _ => intro name hname; cases hname

theorem answers_of_inTry (h : (pl.inTry catches).Answers name) (hname : name ∉ catchTexts catches)
    (herror : "Error" ∉ catchTexts catches) : pl.Answers name := by
  rw [Place.Answers, texts_inTry, mem_append, mem_append] at h
  rcases h with (h | h) | (h | h)
  · exact absurd h hname
  · exact .inl h
  · exact absurd h herror
  · exact .inr h

mutual

theorem collectThrownTypes_answers : ∀ (st : Stmt) (pl : Place), pl.gathered = true →
    tb.Quiet (points pl st) → ∀ name ∈ tb.collectThrownTypes st, pl.Answers name
  | .throwExpr e, pl, hg, h => fun name hname => by
    refine h.right.1 pl (.thrown e) (List.mem_singleton_self _) name ?_
    rw [Tables.readNames, hg, if_pos rfl]
    exact List.mem_append_right _ hname
  | .expr _, _, hg, h | .assign _ _, _, hg, h | .assignOp _ _ _, _, hg, h =>
    collectFromExpr_answers hg h
  | .varDecl _ _ _ _ _ _ _, _, hg, h | .returnExpr _, _, hg, h => collectFromOption_answers hg h
  | .fieldAssign _ _ _, _, hg, h => collectFromExpr_answers hg h.right
  | .ifElse _ thenBlk elseBlk, pl, hg, h =>
    answers_append (collectFromExpr_answers hg h.left) (answers_append
      (collectThrownTypesInBlock_answers thenBlk pl hg h.right.left)
      (collectThrownTypesInOption_answers elseBlk pl hg h.right.right))
  | .whileLoop _ body, pl, hg, h =>
    answers_append (collectFromExpr_answers hg h.left)
      (collectThrownTypesInBlock_answers body pl hg h.right)
  | .forLoop _ _ _ body, pl, hg, h =>
    answers_append (collectFromInit_answers hg h.left) (answers_append
      (collectFromOption_answers hg h.right.left) (answers_append
        (collectFromStep_answers hg h.right.right.left)
        (collectThrownTypesInBlock_answers body pl hg h.right.right.right)))
  | .block b, pl, hg, h | .unsafeBlock b, pl, hg, h => collectThrownTypesInBlock_answers b pl hg h
  | .switch _ cases patternCases default, pl, hg, h =>
    answers_append (collectFromExpr_answers hg h.left) (answers_append
      (collectThrownTypesInCases_answers cases pl hg h.right.left) (answers_append
        (collectThrownTypesInPatternCases_answers patternCases pl hg h.right.right.left)
        (collectThrownTypesInOption_answers default pl hg h.right.right.right)))
  | .tryCatch tryBlk catches finallyBlk, pl, hg, h => by
    have hbody := collectThrownTypesInBlock_answers tryBlk (pl.inTry catches)
      (by rw [Place.inTry, hg]; rfl) h.right.left
    refine answers_append (fun name hname => ?_) (answers_append
      (collectThrownTypesInCatches_answers catches pl hg h.right.right.left)
      (collectThrownTypesInOption_answers finallyBlk pl hg h.right.right.right))
    split at hname
    · cases hname
    · next hleft =>
      obtain ⟨hmem, hnot⟩ := List.mem_filter.1 hname
      simp only [Bool.or_eq_true, List.contains_iff_mem, not_or] at hleft
      simp only [Bool.not_eq_true', List.contains_eq_mem, decide_eq_false_iff_not] at hnot
      exact answers_of_inTry (hbody name hmem) hnot hleft.2
  | .printStr _, _, _, _ | .printExpr _, _, _, _ | .printRawStr _, _, _, _
  | .printRawExpr _, _, _, _ | .labeled _ _, _, _, _ | .breakLoop _, _, _, _
  | .continueLoop _, _, _, _ | .panicExpr _, _, _, _ => fun _ hname => nomatch hname

theorem collectThrownTypesInBlock_answers : ∀ (b : List Stmt) (pl : Place), pl.gathered = true →
    tb.Quiet (blockPoints pl b) → ∀ name ∈ tb.collectThrownTypesInBlock b, pl.Answers name
  | [], _, _, _ => fun _ hname => nomatch hname
  | st :: rest, pl, hg, h =>
    answers_append (collectThrownTypes_answers st pl hg h.left)
      (collectThrownTypesInBlock_answers rest pl hg h.right)

theorem collectThrownTypesInOption_answers : ∀ (b : Option (List Stmt)) (pl : Place),
    pl.gathered = true → tb.Quiet (optionPoints pl b) →
    ∀ name ∈ tb.collectThrownTypesInOption b, pl.Answers name
  | none, _, _, _ => fun _ hname => nomatch hname
  | some b, pl, hg, h => collectThrownTypesInBlock_answers b pl hg h

theorem collectThrownTypesInCases_answers : ∀ (cases : List (Expr × List Stmt)) (pl : Place),
    pl.gathered = true → tb.Quiet (casePoints pl cases) →
    ∀ name ∈ tb.collectThrownTypesInCases cases, pl.Answers name
  | [], _, _, _ => fun _ hname => nomatch hname
  | (_, b) :: rest, pl, hg, h =>
    answers_append (collectThrownTypesInBlock_answers b pl hg h.right.left)
      (collectThrownTypesInCases_answers rest pl hg h.right.right)

theorem collectThrownTypesInPatternCases_answers : ∀ (cases : List (Pattern × List Stmt))
    (pl : Place), pl.gathered = true → tb.Quiet (patternCasePoints pl.unseen cases) →
    ∀ name ∈ tb.collectThrownTypesInPatternCases cases, pl.Answers name
  | [], _, _, _ => fun _ hname => nomatch hname
  | (_, b) :: rest, pl, hg, h =>
    answers_append (collectThrownTypesInBlock_answers b pl.unseen hg h.left)
      (collectThrownTypesInPatternCases_answers rest pl hg h.right)

theorem collectThrownTypesInCatches_answers : ∀ (catches : List Catch) (pl : Place),
    pl.gathered = true → tb.Quiet (catchPoints pl catches) →
    ∀ name ∈ tb.collectThrownTypesInCatches catches, pl.Answers name
  | [], _, _, _ => fun _ hname => nomatch hname
  | (ty, var, b) :: rest, pl, hg, h =>
    answers_append (collectThrownTypesInBlock_answers b (pl.inCatch ty var) hg h.left)
      (collectThrownTypesInCatches_answers rest pl hg h.right)

end

/-! ## The walk -/

theorem checkExprThrows_quiet {e : Expr} (hseen : pl.seen = true)
    (htexts : pl.texts = caught ++ declared) (h : tb.Quiet (exprPoints pl e)) :
    tb.checkExprThrows caught declared e = [] := by
  refine flatMap_eq_nil_iff.2 fun callee hcallee => map_eq_nil_iff.2 ?_
  refine filter_eq_nil_iff.2 fun name hname => ?_
  have hmem : (pl.ungathered, Point.call callee) ∈ exprPoints pl e :=
    mem_append_right _ (mem_map.2 ⟨callee, hcallee, rfl⟩)
  have hanswers : pl.Answers name := by
    refine h.1 pl.ungathered (.call callee) hmem name ?_
    rw [Tables.readNames, Place.ungathered, hseen, Bool.true_or, if_pos rfl]
    exact hname
  simp [hanswers.answered htexts]

theorem checkOption_quiet (hseen : pl.seen = true)
    (htexts : pl.texts = caught ++ declared) (h : tb.Quiet (exprOptionPoints pl e)) :
    tb.checkOption caught declared e = [] := by
  cases e with
  | none => rfl
  | some e => exact checkExprThrows_quiet hseen htexts h

theorem unknownCatchTypes_quiet (hseen : pl.seen = true)
    (h : tb.Quiet (clausePoints pl catches)) : tb.unknownCatchTypes catches = [] := by
  refine map_eq_nil_iff.2 (filter_eq_nil_iff.2 fun ty hty => ?_)
  simp [h.2 pl ty (mem_map.2 ⟨ty, hty, rfl⟩) hseen]

theorem append_nil (hl : l = []) (hr : r = []) : l ++ r = [] :=
  append_eq_nil_iff.2 ⟨hl, hr⟩

mutual

theorem walkStmt_quiet : ∀ (st : Stmt) (pl : Place) (caught : List String), pl.seen = true →
    pl.texts = caught ++ declared → tb.Quiet (points pl st) →
    tb.walkStmt declared caught pl.vars st = []
  | .tryCatch tryBlk catches finallyBlk, pl, caught, hs, ht, h => by
    have htexts : (pl.inTry catches).texts = (catchTexts catches ++ caught) ++ declared := by
      rw [texts_inTry, ht, List.append_assoc]
    have hthrown := collectThrownTypesInBlock_answers tryBlk (pl.inTry catches)
      (by rw [Place.inTry, hs, Bool.or_true]) h.right.left
    refine append_nil (unknownCatchTypes_quiet hs h.left) (append_nil ?_ (append_nil
      (walkBlock_quiet tryBlk (pl.inTry catches) _ hs htexts h.right.left) (append_nil
        (walkCatches_quiet catches pl caught hs ht h.right.right.left)
        (walkOption_quiet finallyBlk pl caught hs ht h.right.right.right))))
    split
    · rfl
    · refine List.map_eq_nil_iff.2 (List.filter_eq_nil_iff.2 fun name hname => ?_)
      simp [(hthrown name hname).answered htexts]
  | .ifElse _ thenBlk elseBlk, pl, caught, hs, ht, h =>
    append_nil (checkExprThrows_quiet hs ht h.left) (append_nil
      (walkBlock_quiet thenBlk pl caught hs ht h.right.left)
      (walkOption_quiet elseBlk pl caught hs ht h.right.right))
  | .whileLoop _ body, pl, caught, hs, ht, h =>
    append_nil (checkExprThrows_quiet hs ht h.left)
      (walkBlock_quiet body pl caught hs ht h.right)
  | .forLoop _ _ _ body, pl, caught, hs, ht, h =>
    append_nil (checkOption_quiet hs ht h.right.left)
      (walkBlock_quiet body pl caught hs ht h.right.right.right)
  | .labeled _ stmt, pl, caught, hs, ht, h => by
    rw [Tables.walkStmt]
    split
    · next henters =>
      refine walkStmt_quiet stmt (pl.labeled (entersLabeled stmt)) caught ?_ ht h
      rw [Place.labeled, hs, henters]
      rfl
    · rfl
  | .switch _ cases _ default, pl, caught, hs, ht, h =>
    append_nil (checkExprThrows_quiet hs ht h.left) (append_nil
      (walkCases_quiet cases pl caught hs ht h.right.left)
      (walkOption_quiet default pl caught hs ht h.right.right.right))
  | .block b, pl, caught, hs, ht, h | .unsafeBlock b, pl, caught, hs, ht, h =>
    walkBlock_quiet b pl caught hs ht h
  | .throwExpr e, pl, caught, hs, ht, h => by
    refine List.map_eq_nil_iff.2 (List.filter_eq_nil_iff.2 fun name hname => ?_)
    have hanswers : pl.Answers name := by
      refine h.right.1 pl (.thrown e) (List.mem_singleton_self _) name ?_
      rw [Tables.readNames, hs, if_pos rfl]
      exact List.mem_append_left _ hname
    simp [hanswers.answered ht]
  | .expr _, _, _, hs, ht, h | .assign _ _, _, _, hs, ht, h | .assignOp _ _ _, _, _, hs, ht, h =>
    checkExprThrows_quiet hs ht h
  | .varDecl _ _ _ _ _ _ _, _, _, hs, ht, h | .returnExpr _, _, _, hs, ht, h =>
    checkOption_quiet hs ht h
  | .fieldAssign _ _ _, _, _, hs, ht, h => checkExprThrows_quiet hs ht h.right
  | .breakLoop _, _, _, _, _, _ | .continueLoop _, _, _, _, _, _ => rfl
  | .printStr _, _, _, _, _, _ | .printExpr _, _, _, _, _, _ | .printRawStr _, _, _, _, _, _
  | .printRawExpr _, _, _, _, _, _ | .panicExpr _, _, _, _, _, _ => rfl

theorem walkBlock_quiet : ∀ (b : List Stmt) (pl : Place) (caught : List String),
    pl.seen = true → pl.texts = caught ++ declared → tb.Quiet (blockPoints pl b) →
    tb.walkBlock declared caught pl.vars b = []
  | [], _, _, _, _, _ => rfl
  | st :: rest, pl, caught, hs, ht, h =>
    append_nil (walkStmt_quiet st pl caught hs ht h.left)
      (walkBlock_quiet rest pl caught hs ht h.right)

theorem walkOption_quiet : ∀ (b : Option (List Stmt)) (pl : Place) (caught : List String),
    pl.seen = true → pl.texts = caught ++ declared → tb.Quiet (optionPoints pl b) →
    tb.walkOption declared caught pl.vars b = []
  | none, _, _, _, _, _ => rfl
  | some b, pl, caught, hs, ht, h => walkBlock_quiet b pl caught hs ht h

theorem walkCases_quiet : ∀ (cases : List (Expr × List Stmt)) (pl : Place)
    (caught : List String), pl.seen = true → pl.texts = caught ++ declared →
    tb.Quiet (casePoints pl cases) → tb.walkCases declared caught pl.vars cases = []
  | [], _, _, _, _, _ => rfl
  | (_, b) :: rest, pl, caught, hs, ht, h =>
    append_nil (walkBlock_quiet b pl caught hs ht h.right.left)
      (walkCases_quiet rest pl caught hs ht h.right.right)

theorem walkCatches_quiet : ∀ (catches : List Catch) (pl : Place) (caught : List String),
    pl.seen = true → pl.texts = caught ++ declared → tb.Quiet (catchPoints pl catches) →
    tb.walkCatches declared caught pl.vars catches = []
  | [], _, _, _, _, _ => rfl
  | (ty, var, b) :: rest, pl, caught, hs, ht, h =>
    append_nil (walkBlock_quiet b (pl.inCatch ty var) caught hs ht h.left)
      (walkCatches_quiet rest pl caught hs ht h.right)

end

/-- An exception leaves the body of a function after these events. -/
def Dynamics.Escapes [DecidableEq T] (d : Dynamics T) (f : FuncDecl) (es : List (Raise T))
    (t : T) : Prop :=
  ∃ b s, f.body = some b ∧
    blockPaths d (Place.start (throwsListText f.sig)) b (fun _ => none) es s (some (.raised t))

/-- The points of a function's body. -/
def FuncDecl.points (f : FuncDecl) : Points :=
  optionPoints (Place.start (throwsListText f.sig)) f.body

/-- Callees raise at most what the clause found for them declares. -/
def Tables.Honest (tb : Tables) (d : Dynamics T) : Prop :=
  ∀ callee t, d.callThrows callee t → d.Answers (tb.lookupCalleeThrows callee) t

theorem escapes_declared [DecidableEq T] {es : List (Raise T)}
    (hquiet : tb.checkFunction f = []) (hescapes : d.Escapes f es t)
    (hok : ∀ ev ∈ es, ev.Allowed tb d) : d.Answers (throwsListText f.sig) t := by
  obtain ⟨b, s, hbody, hrun⟩ := hescapes
  have hwalk := (append_eq_nil_iff.1 hquiet).2
  rw [hbody] at hwalk
  have hempty : Known d (Place.start (throwsListText f.sig)).vars fun _ => none :=
    fun x t ht => nomatch ht
  have hends : Ends d (throwsListText f.sig) _ (.raised t) s :=
    blockPaths_sound b (Place.start (throwsListText f.sig)) [] (fun _ => hwalk) _ es s _ hempty
      hrun hok
  exact hends.2 t rfl

theorem checkFunction_quiet (hknown : ∀ ty ∈ f.sig.throws, tb.knownType ty = true)
    (hhandled : d.Handled f.points) (hplain : tb.ReadsPlainly d f.points) :
    tb.checkFunction f = [] := by
  refine append_nil (map_eq_nil_iff.2 (filter_eq_nil_iff.2 fun ty hty => ?_)) ?_
  · simp [hknown ty hty]
  · have hquiet := hhandled.quiet hplain
    rw [FuncDecl.points] at hquiet
    cases hbody : f.body with
    | none => rfl
    | some b =>
      rw [hbody] at hquiet
      exact walkBlock_quiet b (Place.start (throwsListText f.sig)) [] rfl (texts_start _) hquiet

/-- **What an accepted function lets out, and which functions are accepted.**

In a file without diagnostics, an exception that leaves a function is let out by its `throws`
clause, on every run whose exceptions are raised where the walk looks and are of a type that
it reads there. A function whose exceptions are all caught or declared gets no diagnostics if
its points are read as they are and the types that its clauses name exist. -/
theorem throws_check [DecidableEq T] (tb : Tables) (d : Dynamics T) :
    (∀ decls, tb.validateExceptions decls = [] → ∀ f ∈ decls.flatMap Decl.functions,
      ∀ es t, d.Escapes f es t → (∀ ev ∈ es, ev.Allowed tb d) →
        d.Answers (throwsListText f.sig) t) ∧
    ∀ f, (∀ ty ∈ f.sig.throws, tb.knownType ty = true) → d.Handled f.points →
      tb.ReadsPlainly d f.points → tb.checkFunction f = [] := by
  refine ⟨fun decls hquiet f hf es t hescapes hok => ?_, fun f hknown hhandled hplain => ?_⟩
  · exact escapes_declared (List.flatMap_eq_nil_iff.1 hquiet f hf) hescapes hok
  · exact checkFunction_quiet hknown hhandled hplain

/-! ## Reading a file -/

namespace Sample

def ioError : NamePath := .mk ["IoError"] []

def readCall : Expr := .call (.ident "read") []

/-- A module whose function `read` throws `IoError`. -/
def tables : Tables where
  currentPkg := "app"
  moduleIndex := [(("app", "Files"), [⟨"read", [ioError]⟩])]
  packages := [("app", ["Files", "IoError"])]

def dynamics : Dynamics String where
  denotes := some
  callThrows callee t := callee = .ident "read" ∧ t = "IoError"
  typeOf _ _ := False

/-- `void load() throws (IoError) { read(); }` -/
def load : FuncDecl := ⟨⟨"load", [ioError]⟩, some [.expr readCall]⟩

/-- `void show() { print(read()); }` -/
def display : FuncDecl := ⟨⟨"show", []⟩, some [.printExpr readCall]⟩

/-- `void attempt() { try { read(); } catch (IoError e) { } }`, and with an untyped catch. -/
def attempt (ty : Option NamePath) : FuncDecl :=
  ⟨⟨"attempt", []⟩, some [.tryCatch [.expr readCall] [(ty, ty.map fun _ => "e", [])] none]⟩

def readRaise (pl : Place) : Raise String := ⟨pl, .call (.ident "read"), "IoError"⟩

theorem readCall_raises (pl : Place) (s : Env String) :
    exprPaths dynamics pl readCall s [readRaise pl] s (some (.raised "IoError")) := by
  refine .inr ⟨[], s, [readRaise pl], ⟨rfl, rfl, rfl⟩, ?_, rfl⟩
  refine .inr ⟨[], s, [readRaise pl], ⟨rfl, rfl, rfl⟩, ?_, rfl⟩
  exact .inr ⟨_, _, ⟨"IoError", ⟨rfl, rfl⟩, rfl, rfl⟩, rfl, rfl, rfl⟩

theorem honest : tables.Honest dynamics := by
  rintro callee t ⟨rfl, rfl⟩
  exact ⟨"IoError", by decide, .inr rfl⟩

theorem load_escapes : dynamics.Escapes load [readRaise (Place.start ["IoError"])] "IoError" :=
  ⟨_, fun _ => none, rfl, .inl ⟨_, rfl, readCall_raises _ _⟩⟩

/-- Where the call in `attempt` stands. -/
def attemptPlace (ty : Option NamePath) : Place := ⟨true, true, [], [ty.map typeText]⟩

theorem attempt_points (ty : Option NamePath) : (attempt ty).points =
    clausePoints (Place.start []) [(ty, ty.map fun _ => "e", [])] ++
      [(attemptPlace ty, .call (.ident "read")),
        ((attemptPlace ty).ungathered, .call (.ident "read"))] := by
  cases ty <;> rfl

theorem attempt_handled (ty : Option NamePath)
    (h : dynamics.takes (ty.map typeText) "IoError") : dynamics.Handled (attempt ty).points := by
  intro pl pt hmem t hraises
  have htaken : t = "IoError" → pl.clauses = [ty.map typeText] →
      ∃ clause ∈ pl.clauses, dynamics.takes clause t := by
    rintro rfl hclauses
    exact ⟨ty.map typeText, hclauses ▸ mem_singleton_self _, h⟩
  rw [attempt_points, mem_append] at hmem
  rcases hmem with hmem | hmem
  · obtain ⟨np, -, hpoint⟩ := mem_map.1 hmem
    cases hpoint
    exact hraises.elim
  · simp only [mem_cons, Prod.mk.injEq, not_mem_nil, or_false] at hmem
    rcases hmem with ⟨rfl, rfl⟩ | ⟨rfl, rfl⟩
    · exact htaken hraises.2 rfl
    · exact htaken hraises.2 rfl

theorem attempt_readsPlainly : tables.ReadsPlainly dynamics (attempt (some ioError)).points := by
  have hplain : ∀ pl : Place, pl.clauses = [some "IoError"] → ∀ name ∈ ["IoError"],
      ∃ t, dynamics.Plain pl (.call (.ident "read")) name t := by
    intro pl hclauses name hname
    obtain rfl := mem_singleton.1 hname
    refine ⟨"IoError", rfl, ⟨rfl, rfl⟩, fun clause hmem _ => ?_, fun hmem => ?_⟩
    · simpa [hclauses] using hmem
    · simp [hclauses] at hmem
  constructor
  · intro pl pt hmem name hname
    rw [attempt_points, mem_append] at hmem
    rcases hmem with hmem | hmem
    · obtain ⟨np, -, hpoint⟩ := mem_map.1 hmem
      cases hpoint
      cases hname
    · simp only [mem_cons, Prod.mk.injEq, not_mem_nil, or_false] at hmem
      rcases hmem with ⟨rfl, rfl⟩ | ⟨rfl, rfl⟩
      · exact hplain _ rfl name hname
      · exact hplain _ rfl name hname
  · intro pl ty hmem _
    simp [attempt_points, clausePoints] at hmem
    rw [hmem.2]
    decide

end Sample

open Sample in
theorem throws_check_read : dynamics.Answers (throwsListText load.sig) "IoError" ∧
      tables.checkFunction (attempt (some ioError)) = [] := by
  refine ⟨(throws_check tables dynamics).1 [.moduleDecl "Files" [load]] (by decide) load
    (by simp [Decl.functions]) _ _ load_escapes fun ev hev => ?_,
    (throws_check tables dynamics).2 _ (fun ty hty => nomatch hty)
      (attempt_handled (some ioError) (Or.inr rfl)) attempt_readsPlainly⟩
  obtain rfl := List.mem_singleton.1 hev
  exact ⟨rfl, "IoError", by decide, Or.inr rfl⟩

open Sample in
/-- **The check is neither sound nor precise.** A function without a `throws` clause whose only
statement prints the result of a throwing call is accepted, and the exception leaves it; a
function that catches the same exception in an untyped clause is rejected. Callees throw what
they declare. -/
theorem print_escapes_and_bare_catch_rejected : tables.Honest dynamics ∧
      (tables.validateExceptions [.moduleDecl "Files" [display]] = [] ∧
        (∃ es, dynamics.Escapes display es "IoError") ∧
        ¬ dynamics.Answers (throwsListText display.sig) "IoError") ∧
      dynamics.Handled (attempt none).points ∧ tables.checkFunction (attempt none) ≠ [] := by
  refine ⟨honest, ⟨by decide, ⟨[readRaise (Place.start []).unread], _, fun _ => none, rfl,
    Or.inl ⟨_, rfl, readCall_raises _ _⟩⟩, ?_⟩, attempt_handled none trivial, by decide⟩
  rintro ⟨name, hname, -⟩
  cases hname

end Arth.Throws
