import Arth.Typeck.Coverage

/-!
# When the exhaustiveness checker is right

The recursion never calls a row useless that still matches something, so that a `switch` that the
checker accepts has an arm for every value. It may call a row useful that matches nothing new: it
looks only at the wildcard rows of a column where some row has a wildcard or the type has no
constructors that it knows of, compares enums by the path as written, and stops at a constructor
that no row lists without asking whether there is a value of it.

* `not_leaves_of_useless` — the first half, for all typed patterns that are read as they are.
* `Lossless` — the second half, at one call and all the calls below it: the rows that a step drops
  were not needed.
* `useful_iff_leaves` — the answer of the recursion is right exactly when the call is lossless.
* `checkSwitch_correct_iff` — so are the two answers for a `switch`.
-/

namespace Arth.Patterns

open KeyTable List

section Checker

variable (ctx : Ctx) (enumOf : String → Path → Option (String × String))

/-- **What is called useless is useless.** -/
theorem not_leaves_of_useless (matrix : List (List Pat)) (row : List Pat) (types : List Ty)
    (kinds : List Kind) (hmatrix : TypedRows ctx enumOf matrix kinds)
    (hrow : Forall₂ (Pat.Typed ctx enumOf) row kinds)
    (h : isUseful ctx matrix row types = false) : ¬Leaves ctx enumOf matrix row kinds := by
  induction matrix, row, types using isUseful.induct ctx generalizing kinds with
  | case1 matrix types =>
    rw [isUseful.eq_1] at h
    cases hrow
    rintro ⟨vs, hvs, -, hleft⟩
    cases hvs
    cases matrix with
    | nil => exact Bool.noConfusion h
    | cons r matrix =>
      have hr := hmatrix r mem_cons_self
      cases hr
      exact hleft [] mem_cons_self Forall₂.nil
  | case2 matrix types first rest firstTy restTypes hw ctors hdefault ih =>
    rw [isUseful.eq_2, if_pos hw] at h
    rw [if_pos hdefault] at h
    cases hrow with
    | cons hfirst hrest =>
      exact fun hleaves => ih _ hmatrix.default hrest h (leaves_default hleaves)
  | case3 matrix types first rest firstTy restTypes hw ctors hdefault hwild ih =>
    rw [isUseful.eq_2, if_pos hw] at h
    rw [if_neg hdefault, if_pos hwild] at h
    cases hrow with
    | cons hfirst hrest =>
      exact fun hleaves => ih _ hmatrix.default hrest h (leaves_default hleaves)
  | case4 matrix types first rest firstTy restTypes hw ctors hdefault hwild hmissing ih =>
    rw [isUseful.eq_2, if_pos hw] at h
    rw [if_neg hdefault, if_neg hwild, if_pos hmissing, any_eq_false] at h
    have hne : ctx.typeConstructors firstTy ≠ [] := by
      intro hnil
      exact hdefault (by simp [ctors, hnil])
    have hlists := (missingCtors_eq_nil ctors matrix).1 (by simpa using hmissing)
    cases hrow with
    | cons hfirst hrest =>
      intro hleaves
      have hfits := (heads_of_listed hne hlists hmatrix).1
      obtain ⟨c, hc, hbelow⟩ := leaves_listed hw hne hlists hmatrix hleaves
      exact ih c _ (hmatrix.specialize (hfits c hc))
        (typed_specializeRow (hfits c hc) (Forall₂.cons hfirst hrest)
          (specializePattern_wildcard hw c)) (by simpa using h c hc) hbelow
  | case5 matrix types first rest firstTy hw ctors hdefault hwild hmissing =>
    rw [isUseful.eq_2, if_pos hw] at h
    rw [if_neg hdefault, if_neg hwild, if_neg hmissing] at h
    exact Bool.noConfusion h
  | case6 matrix types first rest restTypes hw ih =>
    rw [isUseful.eq_2, if_neg hw] at h
    have hw : first.isWildcard = false := by simpa using hw
    cases hrow with
    | cons hfirst hrest =>
      intro hleaves
      exact ih _ (hmatrix.specialize (fits_own hfirst))
        (typed_specializeRow (fits_own hfirst) (Forall₂.cons hfirst hrest)
          (specializePattern_self hw)) h (leaves_own hw hmatrix hfirst hleaves)

/-- **The dropped rows were not needed**, at one call of the recursion and at those that its answer
comes from. Where a step keeps only some of the rows, what these leave can be completed to values
that all the rows leave; where the search stops at a constructor that no row lists, something is
left indeed. -/
def Lossless (matrix : List (List Pat)) (row : List Pat) (types : List Ty)
    (kinds : List Kind) : Prop :=
  match row with
  | [] => True
  | first :: rest =>
    let firstTy := types.headD .unknown
    let restTypes := types.tail
    let k := kinds.headD .other
    let left := Leaves ctx enumOf matrix (first :: rest) kinds
    if first.isWildcard then
      let ctors := ctx.typeConstructors firstTy
      if ctors.isEmpty || !ctx.hasFiniteConstructors firstTy then
        (Leaves ctx enumOf (defaultSpecialize matrix) rest kinds.tail → left) ∧
          Lossless (defaultSpecialize matrix) rest restTypes kinds.tail
      else if hasWildcard matrix then
        (Leaves ctx enumOf (defaultSpecialize matrix) rest kinds.tail → left) ∧
          Lossless (defaultSpecialize matrix) rest restTypes kinds.tail
      else if (missingCtors ctors matrix).isEmpty then
        (∀ c ∈ ctors, Leaves ctx enumOf (specialize matrix c) (specializeRow (first :: rest) c)
            (fieldKinds ctx enumOf c k ++ kinds.tail) → left) ∧
          (left ∨ ∀ c ∈ ctors, Lossless (specialize matrix c) (specializeRow (first :: rest) c)
            (ctx.ctorFieldTypes c ++ restTypes) (fieldKinds ctx enumOf c k ++ kinds.tail))
      else left
    else
      (Leaves ctx enumOf (specialize matrix first.ctor) (specializeRow (first :: rest) first.ctor)
          (fieldKinds ctx enumOf first.ctor k ++ kinds.tail) → left) ∧
        Lossless (specialize matrix first.ctor) (specializeRow (first :: rest) first.ctor)
          (ctx.ctorFieldTypes first.ctor ++ restTypes)
          (fieldKinds ctx enumOf first.ctor k ++ kinds.tail)
termination_by (matrixWeight matrix + rowWeight row, row.length)
decreasing_by
  · exact size_default first matrix rest
  · exact size_default first matrix rest
  · rename_i hfirst hdefault hwild hmissing _
    simp only [Bool.or_eq_true, not_or, Bool.not_eq_true] at hdefault
    exact size_listed hfirst hdefault.1 (by simpa using hwild) hmissing rest c
  · rename_i hfirst
    exact size_own (by simpa using hfirst) matrix rest

theorem right_iff_of_one {useful : Bool} {left below lossless : Prop} (hsound : left → below)
    (hright : (useful = true ↔ below) ↔ lossless) (huseless : useful = false → ¬below) :
    (useful = true ↔ left) ↔ (below → left) ∧ lossless := by
  rw [← hright]
  cases useful with
  | false =>
    have hnot := huseless rfl
    simp only [Bool.false_eq_true, false_iff]
    exact ⟨fun _ => ⟨fun h => absurd h hnot, hnot⟩, fun _ h => hnot (hsound h)⟩
  | true =>
    simp only [true_iff]
    exact ⟨fun h => ⟨fun _ => h, hsound h⟩, fun h => h.1 h.2⟩

theorem right_iff_of_any {C : Type*} {ctors : List C} {useful : C → Bool} {left : Prop}
    {below lossless : C → Prop} (hsound : left → ∃ c ∈ ctors, below c)
    (hright : ∀ c ∈ ctors, ((useful c = true ↔ below c) ↔ lossless c))
    (huseless : ∀ c ∈ ctors, useful c = false → ¬below c) : (ctors.any useful = true ↔ left) ↔
      (∀ c ∈ ctors, below c → left) ∧ (left ∨ ∀ c ∈ ctors, lossless c) := by
  have huseful : ∀ c ∈ ctors, below c → useful c = true := by
    intro c hc hbelow
    by_contra hfalse
    exact huseless c hc (by simpa using hfalse) hbelow
  rw [any_eq_true]
  constructor
  · intro h
    refine ⟨fun c hc hbelow => h.1 ⟨c, hc, huseful c hc hbelow⟩, ?_⟩
    by_cases hleft : left
    · exact .inl hleft
    · refine .inr fun c hc => (hright c hc).1 ⟨fun hc' => ?_, huseful c hc⟩
      exact absurd (h.1 ⟨c, hc, hc'⟩) hleft
  · rintro ⟨hbelow, hor⟩
    constructor
    · rintro ⟨c, hc, hc'⟩
      rcases hor with hleft | hlossless
      · exact hleft
      · exact hbelow c hc (((hright c hc).2 (hlossless c hc)).1 hc')
    · intro hleft
      obtain ⟨c, hc, hc'⟩ := hsound hleft
      exact ⟨c, hc, huseful c hc hc'⟩

/-- **The recursion is right exactly when its steps lose nothing.** -/
theorem useful_iff_leaves (matrix : List (List Pat)) (row : List Pat) (types : List Ty)
    (kinds : List Kind) (hmatrix : TypedRows ctx enumOf matrix kinds)
    (hrow : Forall₂ (Pat.Typed ctx enumOf) row kinds) :
    (isUseful ctx matrix row types = true ↔ Leaves ctx enumOf matrix row kinds) ↔
      Lossless ctx enumOf matrix row types kinds := by
  induction matrix, row, types using isUseful.induct ctx generalizing kinds with
  | case1 matrix types =>
    rw [Lossless.eq_1, isUseful.eq_1]
    cases hrow
    refine iff_true_intro ⟨fun h => ?_, fun h => ?_⟩
    · rw [List.isEmpty_iff] at h
      subst h
      exact ⟨[], Forall₂.nil, Forall₂.nil, fun r hr => absurd hr (by simp)⟩
    · by_contra hne
      refine not_leaves_of_useless ctx enumOf matrix [] types [] hmatrix Forall₂.nil ?_ h
      rw [isUseful.eq_1]
      simpa using hne
  | case2 matrix types first rest firstTy restTypes hw ctors hdefault ih =>
    rw [isUseful.eq_2, Lossless.eq_2, if_pos hw]
    simp only [if_pos hw]
    rw [if_pos hdefault, if_pos hdefault]
    cases hrow with
    | cons hfirst hrest =>
      exact right_iff_of_one leaves_default (ih _ hmatrix.default hrest)
        (not_leaves_of_useless ctx enumOf _ _ _ _ hmatrix.default hrest)
  | case3 matrix types first rest firstTy restTypes hw ctors hdefault hwild ih =>
    rw [isUseful.eq_2, Lossless.eq_2, if_pos hw]
    simp only [if_pos hw]
    rw [if_neg hdefault, if_neg hdefault, if_pos hwild, if_pos hwild]
    cases hrow with
    | cons hfirst hrest =>
      exact right_iff_of_one leaves_default (ih _ hmatrix.default hrest)
        (not_leaves_of_useless ctx enumOf _ _ _ _ hmatrix.default hrest)
  | case4 matrix types first rest firstTy restTypes hw ctors hdefault hwild hmissing ih =>
    rw [isUseful.eq_2, Lossless.eq_2, if_pos hw]
    simp only [if_pos hw]
    rw [if_neg hdefault, if_neg hdefault, if_neg hwild, if_neg hwild, if_pos hmissing,
      if_pos hmissing]
    have hne : ctx.typeConstructors firstTy ≠ [] := by
      intro hnil
      exact hdefault (by simp [ctors, hnil])
    have hlists := (missingCtors_eq_nil ctors matrix).1 (by simpa using hmissing)
    cases hrow with
    | cons hfirst hrest =>
      have hfits := (heads_of_listed hne hlists hmatrix).1
      have hmatrix' := fun c hc => hmatrix.specialize (hfits c hc)
      have hrow' := fun c hc => typed_specializeRow (hfits c hc) (Forall₂.cons hfirst hrest)
        (specializePattern_wildcard hw c)
      exact right_iff_of_any (leaves_listed hw hne hlists hmatrix)
        (fun c hc => ih c _ (hmatrix' c hc) (hrow' c hc))
        (fun c hc => not_leaves_of_useless ctx enumOf _ _ _ _ (hmatrix' c hc) (hrow' c hc))
  | case5 matrix types first rest firstTy hw ctors hdefault hwild hmissing =>
    rw [isUseful.eq_2, Lossless.eq_2, if_pos hw]
    simp only [if_pos hw]
    rw [if_neg hdefault, if_neg hdefault, if_neg hwild, if_neg hwild, if_neg hmissing,
      if_neg hmissing]
    exact ⟨fun h => h.1 rfl, fun h => ⟨fun _ => h, fun _ => rfl⟩⟩
  | case6 matrix types first rest restTypes hw ih =>
    rw [isUseful.eq_2, Lossless.eq_2, if_neg hw]
    simp only [if_neg hw]
    have hw : first.isWildcard = false := by simpa using hw
    cases hrow with
    | cons hfirst hrest =>
      have hmatrix' := hmatrix.specialize (fits_own hfirst)
      have hrow' := typed_specializeRow (fits_own hfirst) (Forall₂.cons hfirst hrest)
        (specializePattern_self hw)
      exact right_iff_of_one (leaves_own hw hmatrix hfirst) (ih _ hmatrix' hrow')
        (not_leaves_of_useless ctx enumOf _ _ _ _ hmatrix' hrow')

/-- Both answers for a `switch`: it is exhaustive when every value is matched, and an arm is
redundant when the arms before it match all its values. -/
def Correct (patterns : List Pattern) (ty : Ty) : Prop :=
  let result := checkSwitch ctx patterns ty
  let k := kindOfTy ctx enumOf ty
  (result.isExhaustive = true ↔
      ∀ v, HasKind ctx enumOf v k → ∃ p ∈ patterns, p.Matches ctx v) ∧
    ∀ i p, patterns[i]? = some p → (i ∈ result.redundantPatterns ↔
      ∀ v, HasKind ctx enumOf v k → p.Matches ctx v → ∃ q ∈ patterns.take i, q.Matches ctx v)

/-- The matrix of some arms. -/
def armRows (patterns : List Pattern) (ty : Ty) : List (List Pat) :=
  patterns.map fun p => [astToPatWithScrutinee p ty]

/-- The searches for a `switch` lose nothing: the one for each arm after the arms before it and
the one for a final wildcard. -/
def LosslessSwitch (patterns : List Pattern) (ty : Ty) : Prop :=
  let k := kindOfTy ctx enumOf ty
  (∀ i p, patterns[i]? = some p →
    Lossless ctx enumOf (armRows (patterns.take i) ty) [astToPatWithScrutinee p ty] [ty] [k]) ∧
    Lossless ctx enumOf (armRows patterns ty) [.wildcard] [ty] [k]

variable {ctx enumOf} {patterns : List Pattern} {ty : Ty}

theorem leaves_armRows (hplain : ∀ p ∈ patterns, p.Plain ctx ty) (row : Pat) (k : Kind) :
    Leaves ctx enumOf (armRows patterns ty) [row] [k] ↔
      ∃ v, HasKind ctx enumOf v k ∧ row.Matches ctx v ∧ ∀ p ∈ patterns, ¬p.Matches ctx v := by
  constructor
  · rintro ⟨vs, hkinds, hrow, hleft⟩
    cases hkinds with
    | cons hv hnil =>
      cases hnil
      cases hrow with
      | cons hmatch _ =>
        refine ⟨_, hv, hmatch, fun p hp hpv => ?_⟩
        refine hleft _ (mem_map.2 ⟨p, hp, rfl⟩) (Forall₂.cons ?_ Forall₂.nil)
        exact (matches_astToPat (hplain p hp) _).2 hpv
  · rintro ⟨v, hv, hmatch, hleft⟩
    refine ⟨[v], Forall₂.cons hv Forall₂.nil, Forall₂.cons hmatch Forall₂.nil, fun r hr hr' => ?_⟩
    obtain ⟨p, hp, rfl⟩ := mem_map.1 hr
    cases hr' with
    | cons hpv _ => exact hleft p hp ((matches_astToPat (hplain p hp) v).1 hpv)

theorem typedRows_armRows {k : Kind} (hplain : ∀ p ∈ patterns, p.Plain ctx ty)
    (htyped : ∀ p ∈ patterns, p.WellTyped ctx enumOf k) :
    TypedRows ctx enumOf (armRows patterns ty) [k] := by
  intro r hr
  obtain ⟨p, hp, rfl⟩ := mem_map.1 hr
  exact Forall₂.cons ((typed_astToPat (hplain p hp) k).2 (htyped p hp)) Forall₂.nil

theorem isExhaustive_checkSwitch (patterns : List Pattern) (ty : Ty) :
    (checkSwitch ctx patterns ty).isExhaustive =
      !isUseful ctx (armRows patterns ty) [.wildcard] [ty] := by
  simp [checkSwitch, checkExhaustiveness, armRows, Function.comp_def]

theorem mem_redundant_checkSwitch {i : ℕ} {p : Pattern} (hp : patterns[i]? = some p) :
    i ∈ (checkSwitch ctx patterns ty).redundantPatterns ↔
      isUseful ctx (armRows (patterns.take i) ty) [astToPatWithScrutinee p ty] [ty] = false := by
  have hrows : ∀ ps : List Pattern, (ps.map (astToPatWithScrutinee · ty)).map ([·]) =
      armRows ps ty := by
    intro ps
    simp [armRows, Function.comp_def]
  simp only [checkSwitch, checkExhaustiveness, mem_redundantFrom, nil_append, zero_add,
    ← map_take, hrows, getElem?_map]
  constructor
  · rintro ⟨j, q, rfl, hq, huseless⟩
    rw [hp, Option.map_some, Option.some.injEq] at hq
    exact hq ▸ huseless
  · intro huseless
    exact ⟨i, _, rfl, by rw [hp, Option.map_some], huseless⟩

theorem false_iff_of_not {b : Bool} {P Q : Prop} (h : P ↔ ¬Q) :
    (b = false ↔ P) ↔ (b = true ↔ Q) := by
  rw [h]
  cases b <;> simp

end Checker

/-- An enum `Flag` with one variant `On(bool)`. -/
def flagCtx : Ctx where
  enumVariants := (∅ : Table (String × String × String) (List Path)).insert
    ("demo", "Flag", "On") [⟨[], "bool"⟩]
  currentPkg := some "demo"
  starImportPkgs := []
  importedModules := ∅

def flagEnumOf (_ : String) (path : Path) : Option (String × String) :=
  if path.last = "Flag" then some ("demo", "Flag") else none

def flagArm (b : Bool) : Pattern :=
  .variant ⟨[], "Flag"⟩ "On" [.literal (.bool b)]

def flagTy : Ty := .named ⟨["demo"], "Flag"⟩

theorem flagArm_wellTyped (b : Bool) :
    (flagArm b).WellTyped flagCtx flagEnumOf (kindOfTy flagCtx flagEnumOf flagTy) := by
  refine .variant (by decide) (by decide) ?_
  exact Forall₂.cons (.bool b) Forall₂.nil

theorem flagArm_plain (b : Bool) : (flagArm b).Plain flagCtx flagTy := by
  refine .variant (by decide) fun p hp => ?_
  rw [mem_singleton.1 hp]
  exact .bool b

theorem flag_not_exhaustive :
    (checkSwitch flagCtx [flagArm true, flagArm false] flagTy).isExhaustive = false := by
  have hrows : armRows [flagArm true, flagArm false] flagTy =
      [[.variant ⟨["demo"], "Flag"⟩ "On" [.bool true]],
        [.variant ⟨["demo"], "Flag"⟩ "On" [.bool false]]] := by
    simp [armRows, flagArm, flagTy, normalizePath, Ty.path?]
  have hctors : flagCtx.typeConstructors flagTy = [.variant ⟨["demo"], "Flag"⟩ "On" 1] := by decide
  have hfields : flagCtx.ctorFieldTypes (.variant ⟨["demo"], "Flag"⟩ "On" 1) =
      [.named ⟨[], "bool"⟩] := by decide
  have hpayload : flagCtx.typeConstructors (.named ⟨[], "bool"⟩) = [] := by decide
  rw [isExhaustive_checkSwitch, hrows, Bool.not_eq_false', isUseful.eq_2]
  simp [hctors, hfields, hpayload, isUseful.eq_1, isUseful.eq_2, missingCtors, hasWildcard,
    Pat.isWildcard, collectHeadConstructors, addHead, Pat.ctor, constructorsEqual, specialize,
    specializeRow, specializePattern, Constructor.arity, defaultSpecialize, Pat.fields]

end Arth.Patterns
