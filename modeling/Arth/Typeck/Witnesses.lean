import Arth.Typeck.Exhaustive

/-!
# The witnesses of a match that is not exhaustive

The witnesses are read off the first column only: they are the constructors of the scrutinee's
type that no arm starts with.

* `reported` — these constructors, `mem_witnesses` — the texts that are shown for them.
* `Unmatched` — a constructor heads a value that no arm matches.
* `Spare` — the constructor has a value that is not matched under another path of its enum.
* `witnesses_iff` — when there is a witness, and when a reported constructor is one.
-/

namespace Arth.Patterns

open KeyTable List

section Witnesses

variable (ctx : Ctx) (enumOf : String → Path → Option (String × String))
  (patterns : List Pattern) (ty : Ty)

/-- The constructors that are reported for a `switch`. -/
def reported : List Constructor :=
  if (checkSwitch ctx patterns ty).isExhaustive then []
  else missingCtors (ctx.typeConstructors ty) (armRows patterns ty)

/-- The constructor heads a value of the scrutinee's type that no arm matches. -/
def Unmatched (c : Constructor) : Prop :=
  ∃ v args, HasKind ctx enumOf v (kindOfTy ctx enumOf ty) ∧ Opens ctx c v args ∧
    ∀ p ∈ patterns, ¬ p.Matches ctx v

/-- The scrutinee's type is the enum of the constructor, whose payload types have values that the
arms with the same variant under another path do not match. -/
def Spare : Constructor → Prop
  | .variant path name _ =>
    kindOfTy ctx enumOf ty =
      .enum (ctx.patternEnum path name).1 (ctx.patternEnum path name).2 ∧
    ∃ args, List.Forall₂ (HasKind ctx enumOf) args
        (payloadKinds ctx enumOf (ctx.patternEnum path name).1 (ctx.patternEnum path name).2 name) ∧
      ∀ path' payloads, Pattern.variant path' name payloads ∈ patterns →
        ctx.patternEnum path' name = ctx.patternEnum path name →
        ¬ List.Forall₂ (Pattern.Matches ctx) payloads args
  | _ => True

variable {ctx enumOf patterns ty}

/-! ## The first column -/

variable {p : Pattern}

theorem isExhaustive_of_wildcard (hp : p ∈ patterns)
    (hwild : astToPatWithScrutinee p ty = .wildcard) :
    (checkSwitch ctx patterns ty).isExhaustive = true := by
  have hrow : [Pat.wildcard] ∈ armRows patterns ty := mem_map.2 ⟨p, hp, by rw [hwild]⟩
  have hdefault : [] ∈ defaultSpecialize (armRows patterns ty) :=
    mem_defaultSpecialize.2 hrow
  have hhas : hasWildcard (armRows patterns ty) = true :=
    any_eq_true.2 ⟨_, hrow, rfl⟩
  have huseless : isUseful ctx (defaultSpecialize (armRows patterns ty)) [] [] = false := by
    rw [isUseful.eq_1, isEmpty_eq_false_iff]
    exact ne_nil_of_mem hdefault
  have hw : Pat.wildcard.isWildcard = true := rfl
  rw [isExhaustive_checkSwitch, isUseful.eq_2, if_pos hw]
  simp [hhas, huseless]

variable {c : Constructor}

theorem not_wildcard (hc : c ∈ reported ctx patterns ty)
    (hp : p ∈ patterns) : astToPatWithScrutinee p ty ≠ .wildcard := by
  intro hwild
  rw [reported, if_pos (isExhaustive_of_wildcard hp hwild)] at hc
  cases hc

theorem mem_reported (hc : c ∈ reported ctx patterns ty) :
    c ∈ ctx.typeConstructors ty ∧ ¬ Lists (armRows patterns ty) c := by
  unfold reported at hc
  split at hc
  · cases hc
  · rw [missingCtors, mem_filter] at hc
    refine ⟨hc.1, fun hlists => ?_⟩
    have hany := (any_collectHeadConstructors _ _).2 hlists
    rw [hany] at hc
    exact Bool.noConfusion hc.2

theorem lists_armRows (hp : p ∈ patterns) (hne : astToPatWithScrutinee p ty ≠ .wildcard)
    (hc : constructorsEqual c (astToPatWithScrutinee p ty).ctor = true) :
    Lists (armRows patterns ty) c := by
  refine ⟨astToPatWithScrutinee p ty, [], mem_map.2 ⟨p, hp, rfl⟩, ?_, hc⟩
  cases h : astToPatWithScrutinee p ty with
  | wildcard => exact absurd h hne
  | _ => rfl

section

variable (h : (checkSwitch ctx patterns ty).isExhaustive = false)
include h

theorem witnesses_checkSwitch : (checkSwitch ctx patterns ty).witnesses =
      computeWitnesses ctx (armRows patterns ty) ty := by
  have hrows : (patterns.map (astToPatWithScrutinee · ty)).map ([·]) = armRows patterns ty := by
    simp [armRows, Function.comp_def]
  simp only [checkSwitch, checkExhaustiveness, hrows] at h ⊢
  rw [h]
  rfl

theorem mem_witnesses (d : String) : d ∈ (checkSwitch ctx patterns ty).witnesses ↔
      (∃ c ∈ reported ctx patterns ty, d = formatConstructor c) ∨
        reported ctx patterns ty = [] ∧ ctx.hasFiniteConstructors ty = false ∧ d = "_" := by
  have hreported : reported ctx patterns ty =
      missingCtors (ctx.typeConstructors ty) (armRows patterns ty) := by
    unfold reported
    rw [h]
    rfl
  rw [witnesses_checkSwitch h, computeWitnesses, ← hreported]
  cases hr : reported ctx patterns ty with
  | nil => cases ctx.hasFiniteConstructors ty <;> simp
  | cons c cs =>
    simp only [map_cons, isEmpty_cons, Bool.false_and, Bool.false_eq_true, if_false,
      reduceCtorEq, false_and, or_false]
    rw [← map_cons, mem_map]
    constructor
    · rintro ⟨c', hc', rfl⟩
      exact ⟨c', hc', rfl⟩
    · rintro ⟨c', hc', rfl⟩
      exact ⟨c', hc', rfl⟩

/-- **There is a witness** when some constructor heads no arm, or when none are known. -/
theorem witnesses_ne_nil : (checkSwitch ctx patterns ty).witnesses ≠ [] ↔
      (∃ c ∈ ctx.typeConstructors ty, ¬ Lists (armRows patterns ty) c) ∨
        ctx.hasFiniteConstructors ty = false := by
  rw [witnesses_checkSwitch h, computeWitnesses]
  have hmissing := missingCtors_eq_nil (ctx.typeConstructors ty) (armRows patterns ty)
  by_cases hall : missingCtors (ctx.typeConstructors ty) (armRows patterns ty) = []
  · have hnone : ¬ ∃ c ∈ ctx.typeConstructors ty, ¬ Lists (armRows patterns ty) c := by
      rintro ⟨c, hc, hnot⟩
      exact hnot (hmissing.1 hall c hc)
    cases ctx.hasFiniteConstructors ty <;> simp [hall, hnone]
  · have hsome : ∃ c ∈ ctx.typeConstructors ty, ¬ Lists (armRows patterns ty) c := by
      by_contra hnone
      push Not at hnone
      exact hall (hmissing.2 hnone)
    simp [hall, hsome]

end

/-! ## The values -/

theorem arity_of_mem (enumOf : String → Path → Option (String × String)) {path : Path}
    {name : String} {arity : ℕ}
    (h : Constructor.variant path name arity ∈ ctx.typeConstructors ty) :
    ((ctx.patternEnum path name).1, (ctx.patternEnum path name).2, name) ∈ ctx.enumVariants ∧
      arity = (payloadKinds ctx enumOf (ctx.patternEnum path name).1
        (ctx.patternEnum path name).2 name).length := by
  have hpath : ∃ path', ty.path? = some path' := by
    cases ty with
    | named path' | generic path' => exact ⟨path', rfl⟩
    | bool => simp [Ctx.typeConstructors] at h
    | _ => cases h
  obtain ⟨path', hty⟩ := hpath
  obtain ⟨name', payloads, hlookup, heq⟩ := (mem_typeConstructors hty).1 h
  cases heq
  have hmem : ((path.split ctx.currentPkg).1, (path.split ctx.currentPkg).2, name) ∈
      ctx.enumVariants := AList.lookup_isSome.1 (by rw [hlookup]; rfl)
  rw [patternEnum_of_mem hmem]
  refine ⟨hmem, ?_⟩
  simp [payloadKinds, hlookup]

theorem typeConstructors_cases (h : c ∈ ctx.typeConstructors ty) :
    (∃ path name arity, c = .variant path name arity) ∨ ty = .bool ∧ ∃ b, c = .bool b := by
  cases hty : ty.path? with
  | some path =>
    obtain ⟨name, payloads, -, heq⟩ := (mem_typeConstructors hty).1 h
    exact .inl ⟨_, _, _, heq⟩
  | none =>
    cases ty with
    | bool =>
      have hc : c = .bool true ∨ c = .bool false := by simpa [Ctx.typeConstructors] using h
      rcases hc with rfl | rfl
      · exact .inr ⟨rfl, true, rfl⟩
      · exact .inr ⟨rfl, false, rfl⟩
    | named | generic => cases hty
    | _ => cases h

/-- **A reported constructor is a witness** just when it is spare. -/
theorem unmatched_iff (hc : c ∈ reported ctx patterns ty) :
    Unmatched ctx enumOf patterns ty c ↔ Spare ctx enumOf patterns ty c := by
  obtain ⟨hmem, hlists⟩ := mem_reported hc
  rcases typeConstructors_cases hmem with ⟨path, name, arity, rfl⟩ | ⟨hbool, b, rfl⟩
  · obtain ⟨hvariant, harity⟩ := arity_of_mem enumOf hmem
    constructor
    · rintro ⟨v, args, hkind, ⟨rfl, -⟩, hnone⟩
      cases hk : kindOfTy ctx enumOf ty <;> rw [hk] at hkind <;> cases hkind
      rename_i hpayloads
      refine ⟨hk, args, hpayloads, fun path' payloads hp henum hmatch => hnone _ hp ?_⟩
      exact Pattern.matches_variant.2 ⟨args, by rw [henum], hmatch⟩
    · rintro ⟨hk, args, hargs, hother⟩
      refine ⟨_, args, ?_, ⟨rfl, by rw [hargs.length_eq, harity]⟩, fun p hp hmatch => ?_⟩
      · rw [hk]
        exact .variant hvariant hargs
      · cases p with
        | wildcard => exact not_wildcard hc hp (astToPatWithScrutinee_wildcard ty)
        | binding x => exact not_wildcard hc hp (astToPatWithScrutinee_binding x ty)
        | literal expr =>
          cases expr with
          | other value =>
            refine not_wildcard hc hp ?_
            simp [astToPatWithScrutinee, astToPat, normalizePatEnumPath]
          | _ => cases hmatch
        | variant path' name' payloads =>
          obtain ⟨args', heq, hpayloads⟩ := Pattern.matches_variant.1 hmatch
          simp only [Val.variant.injEq] at heq
          obtain ⟨hpkg, henum, rfl, rfl⟩ := heq
          exact hother path' payloads hp (Prod.ext hpkg.symm henum.symm) hpayloads
  · refine iff_of_true ⟨.bool b, [], ?_, ⟨rfl, rfl⟩, fun p hp hmatch => ?_⟩ trivial
    · rw [hbool]
      exact .bool b
    · have hne := not_wildcard hc hp
      cases hmatch with
      | bool =>
        refine hlists (lists_armRows hp hne ?_)
        rw [astToPatWithScrutinee_bool]
        exact constructorsEqual_refl _
      | wildcard => exact hne (astToPatWithScrutinee_wildcard ty)
      | binding x => exact hne (astToPatWithScrutinee_binding x ty)
      | other =>
        refine hne ?_
        simp [astToPatWithScrutinee, astToPat, normalizePatEnumPath]

/-- **When the witnesses are right.** A match that is refused has a witness just when some
constructor of the type heads no arm, or none are known; what is reported is a witness indeed
just when it has a value that no arm matches under another path of the enum. -/
theorem witnesses_iff (ctx : Ctx) (enumOf : String → Path → Option (String × String))
    (patterns : List Pattern) (ty : Ty) : ((checkSwitch ctx patterns ty).isExhaustive = false →
      ((checkSwitch ctx patterns ty).witnesses ≠ [] ↔
        (∃ c ∈ ctx.typeConstructors ty, ¬ Lists (armRows patterns ty) c) ∨
          ctx.hasFiniteConstructors ty = false) ∧ ∀ d, d ∈ (checkSwitch ctx patterns ty).witnesses ↔
        (∃ c ∈ reported ctx patterns ty, d = formatConstructor c) ∨
          reported ctx patterns ty = [] ∧ ctx.hasFiniteConstructors ty = false ∧ d = "_") ∧
    ∀ c ∈ reported ctx patterns ty,
      (Unmatched ctx enumOf patterns ty c ↔ Spare ctx enumOf patterns ty c) :=
  ⟨fun h => ⟨witnesses_ne_nil h, mem_witnesses h⟩, fun _ hc => unmatched_iff hc⟩

end Witnesses

theorem flag_refused : (checkSwitch flagCtx [flagArm true] flagTy).isExhaustive = false := by
  have hrows : armRows [flagArm true] flagTy =
      [[.variant ⟨["demo"], "Flag"⟩ "On" [.bool true]]] := by
    simp [armRows, flagArm, flagTy, normalizePath, Ty.path?]
  have hctors : flagCtx.typeConstructors flagTy = [.variant ⟨["demo"], "Flag"⟩ "On" 1] := by decide
  have hfields : flagCtx.ctorFieldTypes (.variant ⟨["demo"], "Flag"⟩ "On" 1) =
      [.named ⟨[], "bool"⟩] := by decide
  have hpayload : flagCtx.typeConstructors (.named ⟨[], "bool"⟩) = [] := by decide
  rw [isExhaustive_checkSwitch, hrows, Bool.not_eq_false', isUseful.eq_2]
  simp [hctors, hfields, hpayload, isUseful.eq_1, isUseful.eq_2, missingCtors, hasWildcard,
    Pat.isWildcard, collectHeadConstructors, addHead, Pat.ctor, constructorsEqual, specialize,
    specializeRow, specializePattern, Constructor.arity, defaultSpecialize, Pat.fields]

/-- **A refused match without a witness.** The arm `On(true)` leaves `On(false)`. -/
theorem flag_no_witness :
    Unmatched flagCtx flagEnumOf [flagArm true] flagTy (.variant ⟨["demo"], "Flag"⟩ "On" 1) ∧
    (checkSwitch flagCtx [flagArm true] flagTy).isExhaustive = false ∧
    (checkSwitch flagCtx [flagArm true] flagTy).witnesses = [] := by
  refine ⟨?_, flag_refused, ?_⟩
  · have henum : flagCtx.patternEnum ⟨["demo"], "Flag"⟩ "On" = ("demo", "Flag") := by decide
    refine ⟨.variant "demo" "Flag" "On" [.bool false], [.bool false], ?_, ?_, fun p hp hmatch => ?_⟩
    · refine .variant (by decide) ?_
      exact List.Forall₂.cons (.bool false) List.Forall₂.nil
    · exact ⟨by rw [henum], rfl⟩
    · rw [List.mem_singleton.1 hp, flagArm, Pattern.matches_variant] at hmatch
      obtain ⟨args, heq, hargs⟩ := hmatch
      obtain ⟨-, -, -, rfl⟩ := heq
      cases hargs with
      | cons hb _ => cases hb
  · by_contra hne
    rcases (witnesses_ne_nil flag_refused).1 hne with ⟨c, hc, hnot⟩ | hfinite
    · obtain rfl := List.mem_singleton.1 hc
      refine hnot ⟨.variant ⟨["demo"], "Flag"⟩ "On" [.bool true], [], ?_, rfl, by decide⟩
      simp [armRows, flagArm, flagTy, normalizePath, Ty.path?]
    · cases hfinite

end Arth.Patterns
