import Mathlib.Data.List.Forall2
import Arth.Typeck.Locals

/-!
# Accepted bodies read assigned locals

The store of a run agrees with the analysis: a name that is definitely initialised has a value
in every local of that name, the hidden ones included. On a run whose events are all allowed the
analysis is right about the names that it tests.

* `Event.Allowed` — the condition on the steps of a run.
* `Fits` — a store agrees with the analysis at a point; `Grown`, `Extends` — what the rest of
  a run leaves of a store.
* `Stays`, `Steps` — a piece keeps the agreement, within its scope or with new locals.
* `checkBody_sound` — no local is read without a value.
-/

namespace Arth.DefAssign

open Arth.Ast List

/-- **The condition on a step.** A read is of a local that was declared with a value, or its name
is tested there and it is not left over from before a `continue`. A declaration hides no local
without a value. A break leaves a switch that always takes a branch only when all locals have a
value, and a switch over patterns finds one that matches. -/
def Event.Allowed : Event → Prop
  | .read _ tested stale born => born = true ∨ (tested = true ∧ stale = false)
  | .declare _ hides => hides = false
  | .leaveSwitch complete unset => complete = false ∨ unset = false
  | .noMatch => False

/-- The exit is not a read of a local without a value. -/
def Exit.Fine (e : Exit) : Prop := ∀ name, e ≠ .unset name

theorem fine_breakTo (l : Option String) : (Exit.breakTo l).Fine := fun _ h => nomatch h

theorem fine_continueTo (l : Option String) : (Exit.continueTo l).Fine := fun _ h => nomatch h

theorem fine_returned : Exit.returned.Fine := fun _ h => nomatch h

theorem fine_raised : Exit.raised.Fine := fun _ h => nomatch h

theorem fine_panicked : Exit.panicked.Fine := fun _ h => nomatch h

/-- The same locals, with at least the values they had. -/
def Grown (s₀ s : Store) : Prop :=
  List.Forall₂ (fun l m : Local => m.name = l.name ∧ m.born = l.born ∧
    (l.set = true → m.set = true)) s₀ s

theorem Grown.refl (s : Store) : Grown s s :=
  forall₂_same.2 fun _ _ => ⟨rfl, rfl, id⟩

variable {s₀ s₁ s₂ s : Store} {m l : Local}

theorem Grown.trans (h : Grown s₀ s₁) (h' : Grown s₁ s₂) : Grown s₀ s₂ := by
  induction h generalizing s₂ with
  | nil => exact h'
  | cons hl _ ih =>
    cases h' with
    | cons hm hrest =>
      obtain ⟨hname, hborn, hset⟩ := hl
      obtain ⟨hname', hborn', hset'⟩ := hm
      exact .cons ⟨hname'.trans hname, hborn'.trans hborn, fun h => hset' (hset h)⟩ (ih hrest)

theorem Grown.names (h : Grown s₀ s) : s.map (fun l => l.name) = s₀.map fun l => l.name := by
  induction h with
  | nil => rfl
  | cons hl _ ih => simp [hl.1, ih]

theorem Grown.mem (h : Grown s₀ s) (hm : m ∈ s) :
    ∃ l ∈ s₀, m.name = l.name ∧ m.born = l.born ∧ (l.set = true → m.set = true) := by
  induction h with
  | nil => cases hm
  | cons hl _ ih =>
    rcases mem_cons.1 hm with rfl | hm
    · exact ⟨_, mem_cons_self, hl⟩
    · obtain ⟨l, hl, hrel⟩ := ih hm
      exact ⟨l, mem_cons_of_mem _ hl, hrel⟩

theorem grown_setLocal (s : Store) (name : String) : Grown s (s.setLocal name) := by
  induction s with
  | nil => exact .nil
  | cons l rest ih =>
    rw [Store.setLocal]
    split
    · exact .cons ⟨rfl, rfl, fun _ => rfl⟩ (Grown.refl rest)
    · exact .cons ⟨rfl, rfl, id⟩ ih

/-- The store of a run further on: new locals in front of what was there. -/
def Extends (s₀ s : Store) : Prop := ∃ front rest, s = front ++ rest ∧ Grown s₀ rest

theorem Grown.ext (h : Grown s₀ s) : Extends s₀ s := ⟨[], s, rfl, h⟩

theorem Extends.trans (h : Extends s₀ s₁) (h' : Extends s₁ s₂) : Extends s₀ s₂ := by
  obtain ⟨front, rest, rfl, hrest⟩ := h
  obtain ⟨front', rest', rfl, hrest'⟩ := h'
  refine ⟨front' ++ rest'.take front.length, rest'.drop front.length, ?_, ?_⟩
  · rw [append_assoc, take_append_drop]
  · have hdrop := forall₂_drop front.length hrest'
    rw [drop_left] at hdrop
    exact hrest.trans hdrop

theorem Extends.restore (h : Extends s₀ s) : Grown s₀ (s.restore s₀.length) := by
  obtain ⟨front, rest, rfl, hrest⟩ := h
  have hlength : (front ++ rest).length - s₀.length = front.length := by
    have := hrest.length_eq
    rw [length_append]
    omega
  rw [Store.restore, hlength, drop_left]
  exact hrest

theorem mem_restore {depth : Nat} (h : l ∈ s.restore depth) : l ∈ s :=
  mem_of_mem_drop h

/-! ## Agreement with the analysis -/

/-- **A store agrees with the analysis at a point.** -/
structure Fits (a : InitEnv) (scope : List String) (stale : String → Bool) (s : Store) :
    Prop where
  names : s.map (fun l => l.name) = scope
  sets : ∀ l ∈ s, a.isDefinitelyInit l.name = true → stale l.name = false → l.set = true
  born : ∀ l ∈ s, l.born = true → l.set = true
  hidden : s.Pairwise fun l m => m.name = l.name → m.set = true

/-- What is definitely initialised in one is so in the other. -/
def InitEnv.Below (a b : InitEnv) : Prop :=
  ∀ name, a.isDefinitelyInit name = true → b.isDefinitelyInit name = true

variable {a a' a'' b : InitEnv} {scope scope' : List String} {stale : String → Bool}
  {s s₀ s₁ : Store} {p q : Run}

theorem InitEnv.Below.refl (a : InitEnv) : a.Below a := fun _ h => h

variable {c : InitEnv}

theorem InitEnv.Below.trans (h : a.Below b) (h' : b.Below c) : a.Below c :=
  fun name hname => h' name (h name hname)

theorem InitState.join_definitelyInit {x y : InitState} (h : x.join y = .definitelyInit) :
    x = .definitelyInit ∧ y = .definitelyInit := by
  cases x <;> cases y <;> first | exact ⟨rfl, rfl⟩ | cases h

variable {name : String}

theorem InitEnv.join_definite (h : (a.join b).isDefinitelyInit name = true) :
    a.isDefinitelyInit name = true ∧ b.isDefinitelyInit name = true := by
  simp only [InitEnv.isDefinitelyInit, InitEnv.join, beq_iff_eq] at h ⊢
  split at h
  · cases h
  · obtain ⟨ha, hb⟩ := InitState.join_definitelyInit (Option.some.inj h)
    constructor
    · cases hname : a name with
      | none => rw [hname] at ha; cases ha
      | some x => rw [hname] at ha; exact congrArg some ha
    · cases hname : b name with
      | none => rw [hname] at hb; cases hb
      | some x => rw [hname] at hb; exact congrArg some hb

theorem InitEnv.join_left : (a.join b).Below a := fun _ h => (InitEnv.join_definite h).1

theorem InitEnv.join_right : (a.join b).Below b := fun _ h => (InitEnv.join_definite h).2

theorem InitEnv.foldl_join_below (rest : List InitEnv) (a : InitEnv) :
    (rest.foldl InitEnv.join a).Below a ∧ ∀ b ∈ rest, (rest.foldl InitEnv.join a).Below b := by
  induction rest generalizing a with
  | nil => exact ⟨Below.refl a, fun b hb => nomatch hb⟩
  | cons c rest ih =>
    obtain ⟨hjoin, hrest⟩ := ih (a.join c)
    refine ⟨hjoin.trans InitEnv.join_left, fun b hb => ?_⟩
    rcases mem_cons.1 hb with rfl | hb
    · exact hjoin.trans InitEnv.join_right
    · exact hrest b hb

variable {branches : List InitEnv}

theorem InitEnv.joinAll_below {j : InitEnv}
    (h : InitEnv.joinAll branches = some j) : ∀ b ∈ branches, j.Below b := by
  cases branches with
  | nil => cases h
  | cons c rest =>
    cases h
    intro b hb
    rcases mem_cons.1 hb with rfl | hb
    · exact (InitEnv.foldl_join_below rest b).1
    · exact (InitEnv.foldl_join_below rest c).2 b hb

theorem Fits.below (h : Fits a scope stale s) (hbelow : a'.Below a) : Fits a' scope stale s :=
  { h with sets := fun l hl hdef hstale => h.sets l hl (hbelow _ hdef) hstale }

theorem Fits.grown (h : Fits a scope stale s₀) (hgrown : Grown s₀ s) : Fits a scope stale s where
  names := hgrown.names.trans h.names
  sets := by
    intro m hm hdef hstale
    obtain ⟨l, hl, hname, -, hset⟩ := hgrown.mem hm
    rw [hname] at hdef hstale
    exact hset (h.sets l hl hdef hstale)
  born := by
    intro m hm hborn
    obtain ⟨l, hl, -, hborn', hset⟩ := hgrown.mem hm
    exact hset (h.born l hl (hborn' ▸ hborn))
  hidden := by
    have hpair := h.hidden
    clear h
    induction hgrown with
    | nil => exact List.Pairwise.nil
    | cons hl hrest ih =>
      obtain ⟨hhead, htail⟩ := pairwise_cons.1 hpair
      refine pairwise_cons.2 ⟨fun m hm hname => ?_, ih htail⟩
      obtain ⟨l', hl', hname', -, hset⟩ := Grown.mem hrest hm
      refine hset (hhead l' hl' ?_)
      rw [← hname', hname, hl.1]

theorem Fits.restore (h : Fits a' scope' stale s) (hs₀ : Fits a scope stale s₀)
    (hext : Extends s₀ s) : Fits a' scope stale (s.restore s₀.length) where
  names := hext.restore.names.trans hs₀.names
  sets := fun l hl => h.sets l (mem_restore hl)
  born := fun l hl => h.born l (mem_restore hl)
  hidden := h.hidden.sublist (drop_sublist _ _)

theorem setInitialized_definite {other : String}
    (h : (a.setInitialized name).isDefinitelyInit other = true) :
    other = name ∨ a.isDefinitelyInit other = true := by
  by_cases hother : other = name
  · exact .inl hother
  · simp only [InitEnv.isDefinitelyInit, InitEnv.setInitialized, if_neg hother] at h
    exact .inr h

theorem setLocal_set (hhidden : s.Pairwise fun l m => m.name = l.name → m.set = true) (hm : m ∈ s.setLocal name) (hname : m.name = name) :
    m.set = true := by
  induction s with
  | nil => cases hm
  | cons l rest ih =>
    obtain ⟨hhead, htail⟩ := pairwise_cons.1 hhidden
    rw [Store.setLocal] at hm
    split at hm
    · next hl =>
      rcases mem_cons.1 hm with rfl | hm
      · rfl
      · exact hhead m hm (hname.trans hl.symm)
    · next hl =>
      rcases mem_cons.1 hm with rfl | hm
      · exact absurd hname hl
      · exact ih htail hm

theorem Fits.setLocal (h : Fits a scope stale s) (name : String) :
    Fits (a.setInitialized name) scope stale (s.setLocal name) := by
  have hgrown := h.grown (grown_setLocal s name)
  refine { hgrown with sets := fun m hm hdef hstale => ?_ }
  rcases setInitialized_definite hdef with hname | hdef
  · exact setLocal_set h.hidden hm hname
  · exact hgrown.sets m hm hdef hstale

theorem hasUnset_eq_false (h : s.hasUnset name = false) (hl : l ∈ s)
    (hname : l.name = name) : l.set = true := by
  have := any_eq_false.1 h l hl
  simpa [hname] using this

theorem Fits.declare (h : Fits a scope stale s) {born : Bool} (hhides : s.hasUnset name = false) :
    Fits (if born then a.declareInitialized name else a.declare name) (name :: scope) stale
      (⟨name, born, born⟩ :: s) where
  names := by rw [map_cons, h.names]
  sets := by
    intro l hl hdef hstale
    rcases mem_cons.1 hl with rfl | hl
    · cases born with
      | true => rfl
      | false =>
        simp [InitEnv.isDefinitelyInit, InitEnv.declare] at hdef
    · by_cases hname : l.name = name
      · exact hasUnset_eq_false hhides hl hname
      · refine h.sets l hl ?_ hstale
        cases born <;>
          simpa [InitEnv.isDefinitelyInit, InitEnv.declare, InitEnv.declareInitialized, hname]
            using hdef
  born := by
    intro l hl hborn
    rcases mem_cons.1 hl with rfl | hl
    · exact hborn
    · exact h.born l hl hborn
  hidden := pairwise_cons.2 ⟨fun m hm hname => hasUnset_eq_false hhides hm hname, h.hidden⟩

/-- The names that a place tests are definitely initialised, if they are locals. -/
def Tested (a : InitEnv) (scope : List String) (pl : Place) : Prop :=
  ∀ name ∈ pl.tested, name ∈ scope → a.isDefinitelyInit name = true

variable {names : List String} {pl : Place}

theorem tested_of_useErrors
    (h : useErrors scope a names = []) : Tested a scope (pl.testing names) := by
  intro name hname hscope
  have hfilter := map_eq_nil_iff.1 h
  have := filter_eq_nil_iff.1 hfilter name hname
  simpa [hscope] using this

/-- A path that leaves early does so with a fine exit. -/
def Leaves (P : Store → Prop) (e : Exit) (s : Store) : Prop := e.Fine ∧ P s

variable {tb : Tables} {ret : Option NamePath} {pl : Place} {P : Store → Prop}

theorem mayRaise_keeps : Triple Event.Allowed P mayRaise P (Leaves P) :=
  Triple.skip.alt (Triple.leave fun _ hs => ⟨fine_raised, hs⟩)

/-- **An allowed read finds a value.** -/
theorem reading_keeps (hfits : ∀ s, P s → Fits a scope pl.stale s) (htested : Tested a scope pl)
    (name : String) : Triple Event.Allowed P (reading pl name) P (Leaves P) := by
  refine Triple.depending fun s hs => ?_
  have hstate : ∀ s', s' = s → P s' := fun s' hs' => hs' ▸ hs
  cases hfind : s.find? fun l => l.name == name with
  | none => exact Triple.skip.weaken hstate (fun _ h => h) fun _ _ h => h
  | some l =>
    obtain ⟨hl, hname⟩ : l ∈ s ∧ l.name = name :=
      ⟨mem_of_find?_eq_some hfind, by simpa using find?_some hfind⟩
    have hf := hfits s hs
    -- the event says why the local has a value
    have hset : Event.Allowed (.read name (pl.tested.contains name) (pl.stale name) l.born) →
        l.set = true := by
      rintro (hborn | ⟨htest, hstale⟩)
      · exact hf.born l hl hborn
      · refine hf.sets l hl ?_ (hname ▸ hstale)
        rw [hname]
        refine htested name (contains_iff_mem.1 htest) ?_
        rw [← hf.names, ← hname]
        exact mem_map_of_mem hl
    have hread : Triple Event.Allowed (fun s' => s' = s)
        (Paths.event (.read name (pl.tested.contains name) (pl.stale name) l.born))
        (fun s' => s' = s ∧ l.set = true) (Leaves P) :=
      Triple.event fun s' hok hs' => ⟨hs', hset hok⟩
    refine hread.seq ?_
    split_ifs with hl
    · exact Triple.skip.weaken (fun s' hs' => hstate s' hs'.1) (fun _ h => h) fun _ _ h => h
    · exact Triple.leave fun s' hs' => absurd hs'.2 hl

theorem readingAll_keeps (hfits : ∀ s, P s → Fits a scope pl.stale s)
    (htested : Tested a scope pl) (names : List String) :
    Triple Event.Allowed P (readingAll pl names) P (Leaves P) := by
  induction names with
  | nil => exact Triple.skip
  | cons name rest ih => exact (reading_keeps hfits htested name).seq ih

mutual

theorem exprPaths_keeps (hfits : ∀ s, P s → Fits a scope pl.stale s)
    (htested : Tested a scope pl) : ∀ e : Expr,
    Triple Event.Allowed P (exprPaths tb pl e) P (Leaves P)
  | .int _ | .float _ | .str _ | .char _ | .bool _ => Triple.skip
  | .ident name => reading_keeps hfits htested name
  | .await inner => (exprPaths_keeps hfits htested inner).seq mayRaise_keeps
  | .cast _ inner | .unary _ inner => exprPaths_keeps hfits htested inner
  | .fnLiteral params body => readingAll_keeps hfits htested _
  | .ternary c t f =>
    (exprPaths_keeps hfits htested c).seq
      ((exprPaths_keeps hfits htested t).alt (exprPaths_keeps hfits htested f))
  | .binary l op r => by
    have hl := exprPaths_keeps hfits htested l
    have hr := exprPaths_keeps hfits htested r
    rw [exprPaths]
    split
    · exact hl.seq (hr.alt Triple.skip)
    · exact hl.seq (hr.seq mayRaise_keeps)
  | .call callee args =>
    (exprPaths_keeps hfits htested callee).seq
      ((exprListPaths_keeps hfits htested args).seq mayRaise_keeps)
  | .member obj _ | .optionalMember obj _ => exprPaths_keeps hfits htested obj
  | .index obj idx =>
    (exprPaths_keeps hfits htested obj).seq
      ((exprPaths_keeps hfits htested idx).seq mayRaise_keeps)
  | .listLit items => exprListPaths_keeps hfits htested items
  | .mapLit pairs spread =>
    (exprOptionPaths_keeps hfits htested spread).seq (exprPairPaths_keeps hfits htested pairs)
  | .structLit _ fields spread =>
    (exprOptionPaths_keeps hfits htested spread).seq (exprFieldPaths_keeps hfits htested fields)

theorem exprListPaths_keeps (hfits : ∀ s, P s → Fits a scope pl.stale s)
    (htested : Tested a scope pl) : ∀ es : List Expr,
    Triple Event.Allowed P (exprListPaths tb pl es) P (Leaves P)
  | [] => Triple.skip
  | e :: es => (exprPaths_keeps hfits htested e).seq (exprListPaths_keeps hfits htested es)

theorem exprOptionPaths_keeps (hfits : ∀ s, P s → Fits a scope pl.stale s)
    (htested : Tested a scope pl) : ∀ e : Option Expr,
    Triple Event.Allowed P (exprOptionPaths tb pl e) P (Leaves P)
  | none => Triple.skip
  | some e => exprPaths_keeps hfits htested e

theorem exprPairPaths_keeps (hfits : ∀ s, P s → Fits a scope pl.stale s)
    (htested : Tested a scope pl) : ∀ pairs : List (Expr × Expr),
    Triple Event.Allowed P (exprPairPaths tb pl pairs) P (Leaves P)
  | [] => Triple.skip
  | (k, v) :: rest =>
    ((exprPaths_keeps hfits htested k).alt Triple.skip).seq
      ((exprPaths_keeps hfits htested v).seq (exprPairPaths_keeps hfits htested rest))

theorem exprFieldPaths_keeps (hfits : ∀ s, P s → Fits a scope pl.stale s)
    (htested : Tested a scope pl) : ∀ fields : List (String × Expr),
    Triple Event.Allowed P (exprFieldPaths tb pl fields) P (Leaves P)
  | [] => Triple.skip
  | (_, v) :: rest =>
    (exprPaths_keeps hfits htested v).seq (exprFieldPaths_keeps hfits htested rest)

end

/-! ## Pieces of a body -/

/-- **A piece within its scope**: it keeps the agreement from `a` to `a'` and only grows the
store, on every exit. -/
def Stays (scope : List String) (stale : String → Bool) (a : InitEnv) (p : Run)
    (a' : InitEnv) : Prop :=
  ∀ s₀, Fits a scope stale s₀ →
    Triple Event.Allowed (fun s => s = s₀) p (fun s => Fits a' scope stale s ∧ Grown s₀ s)
      (Leaves (Grown s₀))

/-- **A piece that may declare**: the scope goes on as `scope'`. -/
def Steps (stale : String → Bool) (scope : List String) (a : InitEnv) (p : Run)
    (scope' : List String) (a' : InitEnv) : Prop :=
  ∀ s₀, Fits a scope stale s₀ →
    Triple Event.Allowed (fun s => s = s₀) p (fun s => Fits a' scope' stale s ∧ Extends s₀ s)
      (Leaves (Extends s₀))

theorem triple_of_start {Q : Store → Prop} {R : Exit → Store → Prop}
    (h : ∀ s₀, P s₀ → Triple Event.Allowed (fun s => s = s₀) p Q R) :
    Triple Event.Allowed P p Q R :=
  fun s es s' o hs hrun hok => h s hs s es s' o rfl hrun hok

theorem Stays.from (h : Stays scope stale a p a') (hs₀ : Fits b scope stale s₀)
    (hP : ∀ s, P s → Fits a scope stale s ∧ Grown s₀ s) : Triple Event.Allowed P p
      (fun s => Fits a' scope stale s ∧ Fits b scope stale s ∧ Grown s₀ s) (Leaves (Grown s₀)) := by
  refine triple_of_start fun s₁ hs₁ => ?_
  obtain ⟨hfits, hgrown⟩ := hP s₁ hs₁
  refine (h s₁ hfits).weaken (fun _ h => h) (fun s hs => ?_) fun e s hs => ?_
  · exact ⟨hs.1, hs₀.grown (hgrown.trans hs.2), hgrown.trans hs.2⟩
  · exact ⟨hs.1, hgrown.trans hs.2⟩

theorem Stays.below (h : Stays scope stale a p a') (hbelow : a''.Below a') :
    Stays scope stale a p a'' := fun s₀ hs₀ =>
  (h s₀ hs₀).weaken (fun _ h => h) (fun _ hs => ⟨hs.1.below hbelow, hs.2⟩) fun _ _ h => h

theorem Stays.skip : Stays scope stale a .skip a := fun _ hs₀ =>
  Triple.skip.weaken (fun _ hs => ⟨hs.symm ▸ hs₀, hs ▸ Grown.refl _⟩) (fun _ h => h) fun _ _ h => h

variable {e : Exit} {label : Option String} {complete : Bool}

theorem Stays.leave (h : e.Fine) : Stays scope stale a (.leave e) a' := fun _ _ =>
  Triple.leave fun _ hs => ⟨h, hs ▸ Grown.refl _⟩

theorem Stays.seq (hp : Stays scope stale a p a') (hq : Stays scope stale a' q a'') :
    Stays scope stale a (p.seq q) a'' := fun s₀ hs₀ =>
  (hp s₀ hs₀).seq ((hq.from hs₀ fun _ hs => hs).weaken (fun _ h => h)
    (fun _ hs => ⟨hs.1, hs.2.2⟩) fun _ _ h => h)

theorem Stays.alt (hp : Stays scope stale a p a') (hq : Stays scope stale a q a') :
    Stays scope stale a (p.alt q) a' := fun s₀ hs₀ => (hp s₀ hs₀).alt (hq s₀ hs₀)

theorem Stays.steps (h : Stays scope stale a p a') : Steps stale scope a p scope a' :=
  fun s₀ hs₀ => (h s₀ hs₀).weaken (fun _ h => h) (fun _ hs => ⟨hs.1, hs.2.ext⟩)
    fun _ _ hs => ⟨hs.1, hs.2.ext⟩

theorem Steps.seq {scope'' : List String} (hp : Steps stale scope a p scope' a')
    (hq : Steps stale scope' a' q scope'' a'') : Steps stale scope a (p.seq q) scope'' a'' := by
  intro s₀ hs₀
  refine (hp s₀ hs₀).seq (triple_of_start fun s₁ hs₁ => ?_)
  exact (hq s₁ hs₁.1).weaken (fun _ h => h) (fun _ hs => ⟨hs.1, hs₁.2.trans hs.2⟩)
    fun _ _ hs => ⟨hs.1, hs₁.2.trans hs.2⟩

theorem Steps.inScope (h : Steps stale scope a p scope' a') :
    Stays scope stale a (inScope p) a' := by
  intro s₀ hs₀
  refine Triple.depending fun s₁ hs₁ => ?_
  obtain rfl : s₁ = s₀ := hs₁
  refine Triple.always (h s₁ hs₀) (Triple.update fun s hs => ?_)
    fun e => Triple.update fun s hs => ?_
  · exact ⟨hs.1.restore hs₀ hs.2, hs.2.restore⟩
  · exact ⟨hs.1, hs.2.restore⟩

theorem Stays.of_keeps (h : ∀ P : Store → Prop, (∀ s, P s → Fits a scope stale s) →
    Triple Event.Allowed P p P (Leaves P)) : Stays scope stale a p a := by
  intro s₀ hs₀
  refine (h (fun s => s = s₀) fun s hs => hs ▸ hs₀).weaken (fun _ h => h) (fun s hs => ?_)
    fun _ s hs => ?_
  · exact ⟨hs.symm ▸ hs₀, hs ▸ Grown.refl _⟩
  · exact ⟨hs.1, hs.2 ▸ Grown.refl _⟩

theorem exprPaths_stays (hstale : pl.stale = stale) (h : useErrors scope a names = []) (e : Expr) :
    Stays scope stale a (exprPaths tb (pl.testing names) e) a := by
  subst hstale
  have htested : Tested a scope (pl.testing names) := tested_of_useErrors h
  exact Stays.of_keeps fun P (hfits : ∀ s, P s → Fits a scope (pl.testing names).stale s) =>
    exprPaths_keeps hfits htested e

theorem reading_stays (hstale : pl.stale = stale)
    (h : useErrors scope a names = []) (name : String) :
    Stays scope stale a (reading (pl.testing names) name) a := by
  subst hstale
  have htested : Tested a scope (pl.testing names) := tested_of_useErrors h
  exact Stays.of_keeps fun P (hfits : ∀ s, P s → Fits a scope (pl.testing names).stale s) =>
    reading_keeps hfits htested name

theorem exprOptionPaths_stays (hstale : pl.stale = stale)
    (h : useErrors scope a names = []) (e : Option Expr) :
    Stays scope stale a (exprOptionPaths tb (pl.testing names) e) a := by
  cases e with
  | none => exact Stays.skip
  | some e => exact exprPaths_stays hstale h e

/-! ## Constructs -/

theorem declaring_steps {born : Bool} : Steps stale scope a (declaring name born) (name :: scope)
      (if born then a.declareInitialized name else a.declare name) := by
  intro s₀ hs₀
  refine Triple.depending fun s₁ hs₁ => ?_
  obtain rfl : s₁ = s₀ := hs₁
  have hevent : Triple Event.Allowed (fun s => s = s₁)
      (Paths.event (.declare name (s₁.hasUnset name)))
      (fun s => s = s₁ ∧ s₁.hasUnset name = false) (Leaves (Extends s₁)) :=
    Triple.event fun s hok hs => ⟨hs, hok⟩
  refine hevent.seq (Triple.update fun s hs => ?_)
  obtain ⟨rfl, hhides⟩ := hs
  exact ⟨hs₀.declare hhides, [_], s, rfl, Grown.refl s⟩

theorem declaringAll_steps (names : List String) :
    Steps stale scope a (declaringAll names) (declareAll scope a names).1
      (declareAll scope a names).2 := by
  induction names generalizing scope a with
  | nil => exact Stays.skip.steps
  | cons name rest ih =>
    have hfirst : Steps stale scope a (declaring name true) (name :: scope)
      (a.declareInitialized name) := declaring_steps
    have hscope : (declareAll scope a (name :: rest)).1 =
        (declareAll (name :: scope) (a.declareInitialized name) rest).1 := by
      simp [declareAll]
    rw [hscope]
    exact hfirst.seq ih

theorem setLocal_stays :
    Stays scope stale a (.update (·.setLocal name)) (a.setInitialized name) := fun s₀ hs₀ =>
  Triple.update fun s hs => by
    obtain rfl : s = s₀ := hs
    exact ⟨hs₀.setLocal name, grown_setLocal s name⟩

/-- A loop after whose body the step finds what the body left, and after a `continue` what was
there at the entry. -/
theorem looping_stays {cond body step stale_ : Run} {b₁ : InitEnv}
    (hs₀ : Fits a scope stale s₀) (hcond : Stays scope stale a cond a)
    (hbody : Stays scope stale a body b₁) (hstep : Stays scope stale b₁ step a')
    (hstale : Triple Event.Allowed (Grown s₀) stale_ (Grown s₀) (Leaves (Grown s₀))) :
    Triple Event.Allowed (Grown s₀) (looping cond body step stale_ label) (Grown s₀)
      (Leaves (Grown s₀)) := by
  have hfits : ∀ s, Grown s₀ s → Fits a scope stale s ∧ Grown s₀ s := fun s hs => ⟨hs₀.grown hs, hs⟩
  have hcond' : Triple Event.Allowed (Grown s₀) cond (Grown s₀) (Leaves (Grown s₀)) :=
    (hcond.from hs₀ hfits).weaken (fun _ h => h) (fun _ hs => hs.2.2) fun _ _ h => h
  have hround : Triple Event.Allowed (Grown s₀)
      (body.resume step (onContinue label stale_)) (Grown s₀) (Leaves (Grown s₀)) := by
    refine Triple.resume (hbody.from hs₀ hfits)
      ((hstep.from hs₀ fun _ hs => ⟨hs.1, hs.2.2⟩).weaken (fun _ h => h) (fun _ hs => hs.2.2)
        fun _ _ h => h) (fun _ _ _ h => h) fun e q hq => ?_
    cases e with
    | continueTo l =>
      rw [onContinue] at hq
      split at hq
      · cases hq
        exact hstale.weaken (fun _ hs => hs.2) (fun _ h => h) fun _ _ h => h
      · cases hq
    | _ => cases hq
  refine Triple.handle ((hcond'.seq hround).loop.seq hcond') (fun _ _ _ h => h) fun e q hq => ?_
  cases e with
  | breakTo l =>
    rw [onBreak] at hq
    split at hq
    · cases hq
      exact Triple.skip.weaken (fun _ hs => hs.2) (fun _ h => h) fun _ _ h => h
    · cases hq
  | _ => cases hq

theorem maybeHandle_stays {h : Exit → Option Run} (hp : Stays scope stale a p a')
    (hsome : ∀ e q, h e = some q → ∀ s₀, Fits a scope stale s₀ →
      Triple Event.Allowed (Grown s₀) q (fun s => Fits a' scope stale s ∧ Grown s₀ s)
        (Leaves (Grown s₀))) : Stays scope stale a (maybeHandle p h) a' := fun s₀ hs₀ =>
  (Triple.handle (hp s₀ hs₀) (fun _ _ _ h => h) fun e q hq =>
    (hsome e q hq s₀ hs₀).weaken (fun _ hs => hs.2) (fun _ h => h) fun _ _ h => h).alt (hp s₀ hs₀)

theorem always_stays (hp : Stays scope stale a p a') (hq : Stays scope stale a q b) :
    Stays scope stale a (p.always q) a' := by
  intro s₀ hs₀
  refine Triple.always (hp s₀ hs₀) (triple_of_start fun s₁ hs₁ => ?_)
    fun e => triple_of_start fun s₁ hs₁ => ?_
  · exact (hq s₁ (hs₀.grown hs₁.2)).weaken (fun _ h => h)
      (fun _ hs => ⟨hs₁.1.grown hs.2, hs₁.2.trans hs.2⟩) fun _ _ hs => ⟨hs.1, hs₁.2.trans hs.2⟩
  · exact (hq s₁ (hs₀.grown hs₁.2)).weaken (fun _ h => h)
      (fun _ hs => ⟨hs₁.1, hs₁.2.trans hs.2⟩) fun _ _ hs => ⟨hs.1, hs₁.2.trans hs.2⟩

theorem Fits.afterContinue (hs₀ : Fits a scope pl.stale s₀) (hgrown : Grown s₀ s)
    (b : InitEnv) : Fits b scope (pl.afterContinue s₀).stale s := by
  refine { hs₀.grown hgrown with sets := fun m hm _ hstale => ?_ }
  obtain ⟨-, hunset⟩ := Bool.or_eq_false_iff.1 hstale
  obtain ⟨l, hl, hname, -, hset⟩ := hgrown.mem hm
  exact hset (hasUnset_eq_false hunset hl hname.symm)

theorem Fits.of_all_set (hs : Fits a scope stale s) (h : (s.any fun l => !l.set) = false)
    (b : InitEnv) : Fits b scope stale s :=
  { hs with sets := fun m hm _ _ => by simpa using any_eq_false.1 h m hm }

/-! ## Statements -/

theorem joinBranches_below (hc : c ∈ branches) : (joinBranches a complete branches).Below c := by
  have hsome : ∃ j, InitEnv.joinAll branches = some j := by
    cases branches with
    | nil => cases hc
    | cons d rest => exact ⟨_, rfl⟩
  obtain ⟨j, hj⟩ := hsome
  rw [joinBranches, hj]
  split
  · exact InitEnv.joinAll_below hj c hc
  · exact InitEnv.join_right.trans (InitEnv.joinAll_below hj c hc)

theorem joinBranches_below_before : (joinBranches a false branches).Below a := by
  rw [joinBranches, if_neg Bool.false_ne_true]
  cases InitEnv.joinAll branches with
  | none => exact InitEnv.Below.refl a
  | some j => exact InitEnv.join_left

/-- What a try statement leaves before its finally block runs. -/
def joinCatches (afterTry : InitEnv) (catches : List InitEnv) : InitEnv :=
  ((InitEnv.joinAll catches).map afterTry.join).getD afterTry

variable {catches : List InitEnv} {l r : List String}

theorem joinCatches_below_try : (joinCatches a catches).Below a := by
  rw [joinCatches]
  cases InitEnv.joinAll catches with
  | none => exact InitEnv.Below.refl a
  | some j => exact InitEnv.join_left

theorem joinCatches_below (hc : c ∈ catches) : (joinCatches a catches).Below c := by
  rw [joinCatches]
  cases hj : InitEnv.joinAll catches with
  | none => cases catches with
    | nil => cases hc
    | cons d rest => cases hj
  | some j => exact InitEnv.join_right.trans (InitEnv.joinAll_below hj c hc)

theorem joinTry_below {fin : Option InitEnv} :
    (joinTry a catches fin).Below (joinCatches a catches) := by
  cases fin with
  | none => exact InitEnv.Below.refl _
  | some f => exact InitEnv.join_left

theorem onRaise_some {handler : Run} (h : onRaise handler e = some q) : q = handler := by
  cases e with
  | raised => exact (Option.some.inj h).symm
  | _ => cases h

theorem errors_left (h : l ++ r = []) : l = [] := (append_eq_nil_iff.1 h).1

theorem errors_right (h : l ++ r = []) : r = [] :=
  (append_eq_nil_iff.1 h).2

theorem onSwitchBreak_stays (hs₀ : Fits a scope stale s₀) (hjoin : complete = false → a'.Below a)
    (h : onSwitchBreak label complete e = some q) :
    Triple Event.Allowed (Grown s₀) q (fun s => Fits a' scope stale s ∧ Grown s₀ s)
      (Leaves (Grown s₀)) := by
  cases e with
  | breakTo l =>
    rw [onSwitchBreak] at h
    split at h
    · cases h
      refine Triple.depending fun s₁ hs₁ => Triple.event fun s hok hs => ?_
      obtain rfl : s = s₁ := hs
      have hfits := hs₀.grown hs₁
      rcases hok with hcomplete | hunset
      · exact ⟨hfits.below (hjoin hcomplete), hs₁⟩
      · exact ⟨hfits.of_all_set hunset a', hs₁⟩
    · cases h
  | _ => cases h

mutual

theorem stmtPaths_steps : ∀ (st : Stmt) (scope : List String) (a : InitEnv) (pl : Place)
    (label : Option String), (tb.checkStmt ret scope a st).errors = [] →
    Steps pl.stale scope a (stmtPaths tb ret pl label st) (tb.checkStmt ret scope a st).scope
      (tb.checkStmt ret scope a st).init
  | .printStr _, _, _, _, _, _ | .printRawStr _, _, _, _, _, _ => Stays.skip.steps
  | .printExpr e, _, _, _, _, h | .printRawExpr e, _, _, _, _, h =>
    (exprPaths_stays rfl h e).steps
  | .ifElse cond thenBlk elseBlk, scope, a, pl, _, h => by
    have hthen := (blockPaths_steps thenBlk scope a pl (errors_left (errors_right h))).inScope
    have helse := optionPaths_stays elseBlk scope a pl (errors_right (errors_right h))
    have hcond : Stays scope pl.stale a
      (exprPaths tb (pl.testing (tb.typeTests cond)) cond) a :=
      exprPaths_stays rfl (errors_left h) cond
    refine (hcond.seq ?_).steps
    -- After the join both arms have what the checker took from both.
    cases elseBlk with
    | none => exact (hthen.below InitEnv.join_right).alt (helse.below InitEnv.join_left)
    | some b => exact (hthen.below InitEnv.join_left).alt (helse.below InitEnv.join_right)
  | .whileLoop cond body, scope, a, pl, label, h => by
    have hbody := (blockPaths_steps body scope a pl (errors_right h)).inScope
    refine Stays.steps fun s₀ hs₀ => ?_
    refine (looping_stays hs₀ (exprPaths_stays rfl (errors_left h) cond) hbody Stays.skip
      Triple.skip).weaken (fun s hs => ?_) (fun s hs => ?_) fun _ _ h => h
    · exact hs ▸ Grown.refl _
    · exact ⟨(hs₀.grown hs).below InitEnv.join_left, hs⟩
  | .forLoop init cond step body, scope, a, pl, label, h => by
    have hinit := oneOptionPaths_steps init scope a pl (errors_left h)
    have hcond := errors_left (errors_right h)
    have hbody := (blockPaths_steps body _ _ pl (errors_left (errors_right (errors_right h)))).inScope
    have hstep := oneOptionPaths_steps step _ _ pl (errors_right (errors_right (errors_right h)))
    refine Stays.steps (Steps.inScope (hinit.seq (Stays.steps fun s₀ hs₀ => ?_)))
    refine Triple.depending fun entry hentry => ?_
    -- What a `continue` leaves stale is counted from the entry of the loop.
    obtain rfl : entry = s₀ := hentry
    have hstale := (oneOptionPaths_steps step _ _ (pl.afterContinue entry)
      (errors_right (errors_right (errors_right h)))).inScope
    refine (looping_stays hs₀ (exprOptionPaths_stays rfl hcond cond) hbody hstep.inScope
      (triple_of_start fun s₁ hs₁ => ?_)).weaken (fun s hs => ?_) (fun s hs => ?_) fun _ _ h => h
    · -- the step after a `continue`
      exact (hstale s₁ (hs₀.afterContinue hs₁ _)).weaken (fun _ h => h)
        (fun _ hs => hs₁.trans hs.2) fun _ _ hs => ⟨hs.1, hs₁.trans hs.2⟩
    · exact hs ▸ Grown.refl _
    · exact ⟨(hs₀.grown hs).below InitEnv.join_left, hs⟩
  | .labeled l stmt, scope, a, pl, _, h => stmtPaths_steps stmt scope a pl (some l) h
  | .switch e cases patternCases default, scope, a, pl, label, h => by
    have hcases := errors_left (errors_right h)
    have hdefault := errors_right (errors_right (errors_right h))
    rw [List.flatMap_append] at hcases
    have htaken : default.isSome = true →
        (tb.checkStmt ret scope a (.switch e cases patternCases default)).init.Below
          (tb.checkOption ret scope a default).init := by
      intro hsome
      refine joinBranches_below (List.mem_append_right _ ?_)
      rw [if_pos hsome]
      exact List.mem_singleton_self _
    refine Stays.steps ((exprPaths_stays rfl (errors_left h) e).seq (maybeHandle_stays
      (casePaths_stays cases scope a pl (errors_left hcases) (fun out hout => ?_)
        (patternCasePaths_stays patternCases scope a pl (errors_right hcases)
          (fun out hout => ?_) ?_))
      fun e q hq s₀ hs₀ => onSwitchBreak_stays hs₀ (fun hcomplete => ?_) hq))
    · exact joinBranches_below (List.mem_append_left _
        (List.mem_map_of_mem (List.mem_append_left _ hout)))
    · exact joinBranches_below (List.mem_append_left _
        (List.mem_map_of_mem (List.mem_append_right _ hout)))
    · -- no case is taken
      cases default with
      | some b =>
        exact (optionPaths_stays (some b) scope a pl hdefault).below (htaken rfl)
      | none =>
        cases patternCases with
        | nil => exact Stays.skip.below joinBranches_below_before
        | cons c rest => exact fun s₀ hs₀ => Triple.event fun s hok _ => hok.elim
    -- A `break` may leave a switch that takes no case.
    · obtain ⟨hnone, hempty⟩ := Bool.or_eq_false_iff.1 hcomplete
      cases default with
      | some b => cases hnone
      | none => cases patternCases with
        | nil => exact joinBranches_below_before
        | cons c rest => cases hempty
  | .tryCatch tryBlk catches finallyBlk, scope, a, pl, _, h => by
    have htry := (blockPaths_steps tryBlk scope a pl (errors_left h)).inScope
    have hfinally := optionPaths_stays finallyBlk scope a pl (errors_right (errors_right h))
    have hcatches := catchPaths_stays catches scope a pl (errors_left (errors_right h))
      fun out hout => joinCatches_below (a := (tb.checkBlock ret scope a tryBlk).init)
        (List.mem_map_of_mem hout)
    refine ((always_stays (maybeHandle_stays (htry.below joinCatches_below_try) ?_)
      hfinally).below joinTry_below).steps
    intro e q hq s₀ hs₀
    -- The body may have raised anywhere, so the clauses start from what held before it.
    obtain rfl := onRaise_some hq
    exact (hcatches.from hs₀ fun s hs => ⟨hs₀.grown hs, hs⟩).weaken (fun _ h => h)
      (fun _ hs => ⟨hs.1, hs.2.2⟩) fun _ _ h => h
  | .assign name e, _, _, _, _, h =>
    ((exprPaths_stays rfl (errors_left h) e).seq setLocal_stays).steps
  | .fieldAssign object _ e, _, _, _, _, h => by
    cases object with
    | ident x => exact ((reading_stays rfl h x).seq (exprPaths_stays rfl h e)).steps
    | _ => exact ((exprPaths_stays rfl h _).seq (exprPaths_stays rfl h e)).steps
  | .assignOp name _ e, _, _, _, _, h =>
    ((reading_stays rfl (errors_left h) name).seq
      ((exprPaths_stays rfl (errors_left h) e).seq setLocal_stays)).steps
  | .varDecl _ _ _ _ _ name none, _, _, _, _, _ => declaring_steps
  | .varDecl _ _ _ _ _ name (some e), _, _, _, _, h =>
    (exprPaths_stays rfl h e).steps.seq declaring_steps
  | .breakLoop l, _, _, _, _, _ => (Stays.leave (fine_breakTo l)).steps
  | .continueLoop l, _, _, _, _, _ => (Stays.leave (fine_continueTo l)).steps
  | .returnExpr e, _, _, _, _, h =>
    ((exprOptionPaths_stays rfl h e).seq (Stays.leave fine_returned)).steps
  | .throwExpr e, _, _, _, _, h =>
    ((exprPaths_stays rfl h e).seq (Stays.leave fine_raised)).steps
  | .panicExpr e, _, _, _, _, h =>
    ((exprPaths_stays rfl h e).seq (Stays.leave fine_panicked)).steps
  | .block b, scope, a, pl, _, h | .unsafeBlock b, scope, a, pl, _, h =>
    (blockPaths_steps b scope a pl h).inScope.steps
  | .expr e, _, _, _, _, h => (exprPaths_stays rfl h e).steps

theorem blockPaths_steps : ∀ (b : List Stmt) (scope : List String) (a : InitEnv) (pl : Place),
    (tb.checkBlock ret scope a b).errors = [] →
    Steps pl.stale scope a (blockPaths tb ret pl b) (tb.checkBlock ret scope a b).scope
      (tb.checkBlock ret scope a b).init
  | [], _, _, _, _ => Stays.skip.steps
  | st :: rest, scope, a, pl, h =>
    (stmtPaths_steps st scope a pl none (errors_left h)).seq
      (blockPaths_steps rest _ _ pl (errors_right h))

theorem optionPaths_stays : ∀ (b : Option (List Stmt)) (scope : List String) (a : InitEnv)
    (pl : Place), (tb.checkOption ret scope a b).errors = [] →
    Stays scope pl.stale a (optionPaths tb ret pl b) (tb.checkOption ret scope a b).init
  | none, _, _, _, _ => Stays.skip
  | some b, scope, a, pl, h => (blockPaths_steps b scope a pl h).inScope

theorem oneOptionPaths_steps : ∀ (st : Option Stmt) (scope : List String) (a : InitEnv)
    (pl : Place), (tb.checkOne ret scope a st).errors = [] →
    Steps pl.stale scope a (oneOptionPaths tb ret pl st) (tb.checkOne ret scope a st).scope
      (tb.checkOne ret scope a st).init
  | none, _, _, _, _ => Stays.skip.steps
  | some st, scope, a, pl, h => stmtPaths_steps st scope a pl none h

theorem casePaths_stays : ∀ (cases : List (Expr × List Stmt)) (scope : List String)
    (a : InitEnv) (pl : Place) {j : InitEnv} {otherwise : Run},
    (tb.checkCases ret scope a cases).flatMap (fun out => out.errors) = [] →
    (∀ out ∈ tb.checkCases ret scope a cases, j.Below out.init) →
    Stays scope pl.stale a otherwise j →
    Stays scope pl.stale a (casePaths tb ret pl cases otherwise) j
  | [], _, _, _, _, _, _, _, hotherwise => hotherwise
  | (e, b) :: rest, scope, a, pl, _, _, h, hbelow, hotherwise => by
    have hbody := (blockPaths_steps b scope a pl (errors_left h)).inScope
    have hrest := casePaths_stays rest scope a pl (errors_right h)
      (fun out hout => hbelow out (List.mem_cons_of_mem _ hout)) hotherwise
    exact (exprPaths_stays rfl rfl e).seq
      ((hbody.below (hbelow _ List.mem_cons_self)).alt hrest)

theorem patternCasePaths_stays : ∀ (cases : List (Pattern × List Stmt)) (scope : List String)
    (a : InitEnv) (pl : Place) {j : InitEnv} {otherwise : Run},
    (tb.checkPatternCases ret scope a cases).flatMap (fun out => out.errors) = [] →
    (∀ out ∈ tb.checkPatternCases ret scope a cases, j.Below out.init) →
    Stays scope pl.stale a otherwise j →
    Stays scope pl.stale a (patternCasePaths tb ret pl cases otherwise) j
  | [], _, _, _, _, _, _, _, hotherwise => hotherwise
  | (p, b) :: rest, scope, a, pl, _, _, h, hbelow, hotherwise => by
    have hbody := ((declaringAll_steps (patternBindings p)).seq
      (blockPaths_steps b _ _ pl (errors_right (errors_left h)))).inScope
    have hrest := patternCasePaths_stays rest scope a pl (errors_right h)
      (fun out hout => hbelow out (List.mem_cons_of_mem _ hout)) hotherwise
    have hfirst := hbelow _ List.mem_cons_self
    exact (hbody.below hfirst).alt hrest

theorem catchPaths_stays : ∀ (catches : List (Option NamePath × Option String × List Stmt))
    (scope : List String) (a : InitEnv) (pl : Place) {j : InitEnv},
    (tb.checkCatches ret scope a catches).flatMap (fun out => out.errors) = [] →
    (∀ out ∈ tb.checkCatches ret scope a catches, j.Below out.init) →
    Stays scope pl.stale a (catchPaths tb ret pl catches) j
  | [], _, _, _, _, _, _ => Stays.leave fine_raised
  | (_, var, b) :: rest, scope, a, pl, _, h, hbelow => by
    have hbody := ((declaringAll_steps var.toList).seq
      (blockPaths_steps b _ _ pl (errors_left h))).inScope
    have hrest := catchPaths_stays rest scope a pl (errors_right h)
      fun out hout => hbelow out (List.mem_cons_of_mem _ hout)
    exact (hbody.below (hbelow _ List.mem_cons_self)).alt hrest

end

/-- The store of a function that has been called. -/
def entryStore (params : List String) : Store := params.reverse.map fun name => ⟨name, true, true⟩

theorem entryStore_fits (params : List String) :
    Fits (declareAll [] InitEnv.new params).2 (declareAll [] InitEnv.new params).1
      (fun _ => false) (entryStore params) where
  names := by simp [entryStore, declareAll, Function.comp_def]
  sets := by
    intro l hl _ _
    obtain ⟨name, -, rfl⟩ := mem_map.1 hl
    rfl
  born := by
    intro l hl _
    obtain ⟨name, -, rfl⟩ := mem_map.1 hl
    rfl
  hidden := pairwise_map.2 (pairwise_of_forall fun _ _ _ => rfl)

/-- The runs of a function body: its events and its exit. -/
def BodyRun (tb : Tables) (ret : Option NamePath) (params : List String) (body : List Stmt)
    (es : List Event) (o : Option Exit) : Prop :=
  ∃ s, blockPaths tb ret ⟨[], fun _ => false⟩ body (entryStore params) es s o

/-- **An accepted body reads no local without a value**, on every run whose steps are all
allowed. -/
theorem checkBody_sound (tb : Tables) (ret : Option NamePath) (params : List String)
    (body : List Stmt) (hchecked : tb.checkBody ret params body = []) (es : List Event)
    (o : Option Exit) (hrun : BodyRun tb ret params body es o) (hok : ∀ e ∈ es, e.Allowed)
    (name : String) : o ≠ some (.unset name) := by
  obtain ⟨s, hrun⟩ := hrun
  rintro rfl
  have hsteps := blockPaths_steps body _ _ ⟨[], fun _ => false⟩ hchecked
  have hleaves : Leaves (Extends (entryStore params)) (.unset name) s :=
    hsteps _ (entryStore_fits params) _ es s _ rfl hrun hok
  exact hleaves.1 name rfl

/-! ## Two bodies -/

namespace Sample

/-- No enums, structs or callees; the move analysis tests nothing. -/
def tables : Tables where
  enumVariant _ _ := false
  hasCandidates _ := false
  knownStruct _ := false
  exhaustive _ _ := false
  moveTests _ := []
  captures _ _ := []

/-- `int x;` or `int x = 1;` -/
def declareX (init : Option Expr) : Stmt := .varDecl false false (.mk ["int"] []) [] [] "x" init

/-- `int x; x += 1;` -/
def addToUnset : List Stmt := [declareX none, .assignOp "x" .add (.int 1)]

/-- `int x = 1; return x;` -/
def returnSet : List Stmt := [declareX (some (.int 1)), .returnExpr (some (.ident "x"))]

theorem returnSet_run : BodyRun tables none [] returnSet
    [.declare "x" false, .read "x" true false true] (some .returned) := by
  refine ⟨[⟨"x", true, true⟩], .inr ⟨[.declare "x" false], [⟨"x", true, true⟩],
    [.read "x" true false true], ?_, .inl ⟨_, rfl, ?_⟩, rfl⟩⟩
  · refine .inr ⟨[], [], _, ⟨rfl, rfl, rfl⟩, ?_, rfl⟩
    exact .inr ⟨[.declare "x" false], [], [], ⟨rfl, rfl, rfl⟩, ⟨rfl, rfl, rfl⟩, rfl⟩
  · refine .inr ⟨[.read "x" true false true], [⟨"x", true, true⟩], [], ?_, ⟨rfl, rfl, rfl⟩, rfl⟩
    exact .inr ⟨[.read "x" true false true], [⟨"x", true, true⟩], [], ⟨rfl, rfl, rfl⟩,
      ⟨rfl, rfl, rfl⟩, rfl⟩

end Sample

open Sample in
theorem checkBody_sound_returnSet : ∃ es, BodyRun tables none [] returnSet es (some .returned) ∧
    ∀ name, (some Exit.returned : Option Exit) ≠ some (.unset name) := by
  refine ⟨_, returnSet_run, fun name =>
    checkBody_sound tables none [] returnSet (by decide) _ _ returnSet_run (fun e he => ?_) name⟩
  rcases List.mem_cons.1 he with rfl | he
  · rfl
  · obtain rfl := List.mem_singleton.1 he
    exact Or.inl rfl

open Sample in
/-- **A compound assignment reads a local that was never assigned.** The body is accepted. -/
theorem compound_assignment_reads_unset : tables.checkBody none [] addToUnset = [] ∧
      BodyRun tables none [] addToUnset [.declare "x" false, .read "x" false false false]
        (some (.unset "x")) := by
  refine ⟨by decide, [⟨"x", false, false⟩], Or.inr ⟨[.declare "x" false],
    [⟨"x", false, false⟩], [.read "x" false false false], ?_, Or.inl ⟨_, rfl, ?_⟩, rfl⟩⟩
  · exact Or.inr ⟨[.declare "x" false], [], [], ⟨rfl, rfl, rfl⟩, ⟨rfl, rfl, rfl⟩, rfl⟩
  · refine Or.inl ⟨_, rfl, ?_⟩
    exact Or.inr ⟨[.read "x" false false false], [⟨"x", false, false⟩], [], ⟨rfl, rfl, rfl⟩,
      ⟨rfl, rfl, rfl⟩, rfl⟩

end Arth.DefAssign
