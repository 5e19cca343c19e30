import Arth.Typeck.Constraints

/-!
# Unification of types

* `eval` — a type under a valuation of its names; `Solves` — the valuations that a substitution
  allows.
* `Plain` — types without `Unknown` and `Never` whose generic heads are no type parameters.
* `Good` — the invariant of a substitution; `apply_applied` — what replacing the bound parameters
  of a type comes to.
* `unify_good` — a call keeps the invariant, and after a call that succeeds the two types are
  equal under every valuation that is left.
-/

namespace Arth.Constraints

open List Option Function

/-! ## Types and their parts -/

def children : Ty → List Ty
  | .function params ret => ret :: params
  | .generic _ args => args
  | .tuple elems => elems
  | _ => []

theorem sizeOf_child {c t : Ty} (h : c ∈ children t) : sizeOf c < sizeOf t := by
  cases t <;> simp only [children, not_mem_nil, mem_cons] at h
  case function params ret =>
    rcases h with rfl | h
    · simp
    · have := sizeOf_lt_of_mem h
      simp
      omega
  case generic path args =>
    have := sizeOf_lt_of_mem h
    simp
    omega
  case tuple elems =>
    have := sizeOf_lt_of_mem h
    simp
    omega

theorem induction_children {motive : Ty → Prop}
    (h : ∀ t, (∀ c ∈ children t, motive c) → motive t) (t : Ty) : motive t :=
  h t fun c _ => induction_children h c
termination_by sizeOf t
decreasing_by exact sizeOf_child ‹_›

/-- The name that a path of one segment is. -/
def nameOf : List String → List String
  | [x] => [x]
  | _ => []

mutual

/-- The names in a type that may be bound. -/
def names : Ty → List String
  | .named path => nameOf path
  | .generic path args => nameOf path ++ namesAll args
  | .function params ret => names ret ++ namesAll params
  | .tuple elems => namesAll elems
  | _ => []

def namesAll : List Ty → List String
  | [] => []
  | t :: ts => names t ++ namesAll ts

end

mutual

/-- No `Unknown` and no `Never`, and no generic type has a type parameter as its head. -/
def Plain (params : List String) : Ty → Prop
  | .generic path args => (∀ x ∈ params, path ≠ [x]) ∧ PlainAll params args
  | .function ps ret => Plain params ret ∧ PlainAll params ps
  | .tuple elems => PlainAll params elems
  | .unknown => False
  | .never => False
  | _ => True

def PlainAll (params : List String) : List Ty → Prop
  | [] => True
  | t :: ts => Plain params t ∧ PlainAll params ts

end

def evalName (ρ : String → Ty) : List String → Ty
  | [x] => ρ x
  | path => .named path

mutual

/-- A type under a valuation of its names. A generic type without arguments is its name. -/
def eval (ρ : String → Ty) : Ty → Ty
  | .named path => evalName ρ path
  | .generic path [] => evalName ρ path
  | .generic path (t :: ts) => .generic path (eval ρ t :: evalAll ρ ts)
  | .function params ret => .function (evalAll ρ params) (eval ρ ret)
  | .tuple elems => .tuple (evalAll ρ elems)
  | t => t

def evalAll (ρ : String → Ty) : List Ty → List Ty
  | [] => []
  | t :: ts => eval ρ t :: evalAll ρ ts

end

/-- The type itself, where a generic type without arguments is its name. -/
def flat : Ty → Ty := eval fun x => .named [x]

variable {ts as bs : List Ty} {params : List String}

theorem mem_namesAll {y : String} : y ∈ namesAll ts ↔ ∃ t ∈ ts, y ∈ names t := by
  induction ts with
  | nil => simp [namesAll]
  | cons t ts ih => simp [namesAll, ih]

theorem plainAll_iff : PlainAll params ts ↔ ∀ t ∈ ts, Plain params t := by
  induction ts with
  | nil => simp [PlainAll]
  | cons t ts ih => simp [PlainAll, ih]

theorem evalAll_eq (ρ : String → Ty) (ts : List Ty) : evalAll ρ ts = ts.map (eval ρ) := by
  induction ts with
  | nil => rfl
  | cons t ts ih => rw [evalAll, ih, map_cons]

theorem eval_generic (ρ : String → Ty) (path : List String) (ts : List Ty) :
    eval ρ (.generic path ts) =
      if ts = [] then evalName ρ path else .generic path (ts.map (eval ρ)) := by
  cases ts with
  | nil => rfl
  | cons t ts => simp [eval, evalAll_eq]

theorem eval_function (ρ : String → Ty) (ps : List Ty) (r : Ty) :
    eval ρ (.function ps r) = .function (ps.map (eval ρ)) (eval ρ r) := by
  rw [eval, evalAll_eq]

theorem eval_tuple (ρ : String → Ty) (ts : List Ty) :
    eval ρ (.tuple ts) = .tuple (ts.map (eval ρ)) := by
  rw [eval, evalAll_eq]

variable {path : List String} {ts us : List Ty} {ρ : String → Ty}

theorem eval_generic_congr {ρ' : String → Ty}
    (hpath : evalName ρ path = evalName ρ' path) (h : ts.map (eval ρ) = us.map (eval ρ')) :
    eval ρ (.generic path ts) = eval ρ' (.generic path us) := by
  rw [eval_generic, eval_generic]
  by_cases hts : ts = []
  · subst hts
    have hus : us = [] := map_eq_nil_iff.1 h.symm
    rw [if_pos rfl, if_pos hus, hpath]
  · have hus : us ≠ [] := by
      rintro rfl
      exact hts (map_eq_nil_iff.1 h)
    rw [if_neg hts, if_neg hus, h]

variable {x : String}

theorem occursInAny_iff : occursInAny x ts = true ↔ ∃ t ∈ ts, occursIn x t = true := by
  induction ts with
  | nil => simp [occursInAny]
  | cons t ts ih => simp [occursInAny, ih]

theorem mem_nameOf : x ∈ nameOf path ↔ path = [x] := by
  unfold nameOf
  split <;> simp_all [eq_comm]

theorem occursIn_of_mem (hx : x ∈ params) (t : Ty)
    (hplain : Plain params t) (h : x ∈ names t) : occursIn x t = true := by
  induction t using induction_children with
  | h t ih =>
    cases t <;> simp only [names, not_mem_nil, mem_append, mem_nameOf, mem_namesAll] at h
    case named path => simpa [occursIn] using h
    case generic path args =>
      simp only [Plain, plainAll_iff] at hplain
      rcases h with h | ⟨t, ht, h⟩
      · exact absurd h (hplain.1 x hx)
      · exact occursInAny_iff.2 ⟨t, ht, ih t ht (hplain.2 t ht) h⟩
    case function params' ret =>
      simp only [Plain, plainAll_iff] at hplain
      simp only [occursIn, Bool.or_eq_true]
      rcases h with h | ⟨t, ht, h⟩
      · exact .inr (ih ret mem_cons_self hplain.1 h)
      · exact .inl (occursInAny_iff.2 ⟨t, ht, ih t (mem_cons_of_mem _ ht) (hplain.2 t ht) h⟩)
    case tuple elems =>
      simp only [Plain, plainAll_iff] at hplain
      obtain ⟨t, ht, h⟩ := h
      exact occursInAny_iff.2 ⟨t, ht, ih t ht (hplain t ht) h⟩

/-! ## Substitutions -/

/-- The valuations that a substitution allows. -/
def Solves (ρ : String → Ty) (σ : Subst) : Prop := ∀ x t, σ x = some t → ρ x = eval ρ t

/-- A bound name has a greater rank than the bound names in the type it is bound to. -/
def Acyclic (σ : Subst) : Prop :=
  ∃ rank : String → ℕ, ∀ x t, σ x = some t → ∀ y ∈ names t, (σ y).isSome → rank y < rank x

/-- The invariant of a substitution. -/
structure Good (params : List String) (σ : Subst) : Prop where
  inScope : ∀ x t, σ x = some t → x ∈ params
  plain : ∀ x t, σ x = some t → Plain params t
  acyclic : Acyclic σ

/-- All bindings of the first substitution are in the second one. -/
def Extends (σ σ' : Subst) : Prop := ∀ x t, σ x = some t → σ' x = some t

/-- None of the names in the type is bound. -/
def Resolved (σ : Subst) (t : Ty) : Prop := ∀ y ∈ names t, σ y = none

variable {params : List String} {σ σ' : Subst}

theorem Extends.refl (σ : Subst) : Extends σ σ := fun _ _ h => h

theorem Extends.trans {σ'' : Subst} (h : Extends σ σ') (h' : Extends σ' σ'') : Extends σ σ'' :=
  fun x t hx => h' x t (h x t hx)

theorem Solves.of_extends (h : Solves ρ σ') (he : Extends σ σ') :
    Solves ρ σ := fun x t hx => h x t (he x t hx)

variable {t : Ty} {f : Ty → Option Ty} {n : ℕ}

theorem bound_eq_some (h : bound σ path = some t) : ∃ x, path = [x] ∧ σ x = some t := by
  unfold bound at h
  split at h
  · exact ⟨_, rfl, h⟩
  · cases h

theorem bound_eq_none (h : bound σ path = none) : ∀ y ∈ nameOf path, σ y = none := by
  intro y hy
  rw [mem_nameOf] at hy
  subst hy
  exact h

theorem Good.head (h : Good params σ) {args : List Ty}
    (hplain : Plain params (.generic path args)) : bound σ path = none := by
  cases hb : bound σ path with
  | none => rfl
  | some t =>
    obtain ⟨x, rfl, hx⟩ := bound_eq_some hb
    exact absurd rfl (hplain.1 x (h.inScope x t hx))

theorem mapM_cons_eq_some (h : (t :: ts).mapM f = some us) :
    ∃ u vs, f t = some u ∧ ts.mapM f = some vs ∧ us = u :: vs := by
  rw [mapM_cons] at h
  obtain ⟨u, hu, h⟩ := bind_eq_some_iff.1 h
  obtain ⟨vs, hvs, h⟩ := bind_eq_some_iff.1 h
  exact ⟨u, vs, hu, hvs, (some.inj h).symm⟩

/-- What replacing the bound parameters of a type comes to. -/
structure Applied (params : List String) (σ : Subst) (t u : Ty) : Prop where
  plain : Plain params u
  resolved : Resolved σ u
  eval : ∀ ρ, Solves ρ σ → eval ρ u = eval ρ t

theorem applied_list (hf : ∀ t u, Plain params t → f t = some u → Applied params σ t u)
    (hplain : ∀ t ∈ ts, Plain params t) (h : ts.mapM f = some us) :
    (∀ u ∈ us, Plain params u ∧ Resolved σ u) ∧
      ∀ ρ, Solves ρ σ → us.map (eval ρ) = ts.map (eval ρ) := by
  induction ts generalizing us with
  | nil =>
    obtain rfl : [] = us := some.inj h
    exact ⟨fun u hu => absurd hu not_mem_nil, fun _ _ => rfl⟩
  | cons t ts ih =>
    obtain ⟨u, vs, hu, hvs, rfl⟩ := mapM_cons_eq_some h
    have happ := hf t u (hplain t mem_cons_self) hu
    obtain ⟨hall, heval⟩ := ih (fun t ht => hplain t (mem_cons_of_mem _ ht)) hvs
    refine ⟨?_, fun ρ hρ => ?_⟩
    · intro v hv
      rcases mem_cons.1 hv with rfl | hv
      · exact ⟨happ.plain, happ.resolved⟩
      · exact hall v hv
    · rw [map_cons, map_cons, happ.eval ρ hρ, heval ρ hρ]

theorem apply_applied (hg : Good params σ) {t u : Ty} (hplain : Plain params t)
    (h : applySubst σ n t = some u) : Applied params σ t u := by
  induction n generalizing t u with
  | zero => cases h
  | succ n ih =>
    have hlist : ∀ {ts us : List Ty}, (∀ t ∈ ts, Plain params t) →
        ts.mapM (applySubst σ n) = some us → (∀ u ∈ us, Plain params u ∧ Resolved σ u) ∧
          ∀ ρ, Solves ρ σ → us.map (eval ρ) = ts.map (eval ρ) :=
      applied_list fun t u => ih
    cases t <;> simp only [applySubst] at h
    case named path =>
      cases hb : bound σ path with
      | none =>
        rw [hb] at h
        cases h
        exact ⟨trivial, bound_eq_none hb, fun _ _ => rfl⟩
      | some b =>
        obtain ⟨x, rfl, hx⟩ := bound_eq_some hb
        rw [hb] at h
        have happ := ih (hg.plain x b hx) h
        exact ⟨happ.plain, happ.resolved, fun ρ hρ => (happ.eval ρ hρ).trans (hρ x b hx).symm⟩
    case generic path args =>
      have hb := hg.head hplain
      rw [hb] at h
      obtain ⟨us, hus, rfl⟩ := map_eq_some_iff.1 h
      simp only [Plain, plainAll_iff] at hplain
      obtain ⟨hall, heval⟩ := hlist hplain.2 hus
      refine ⟨⟨hplain.1, plainAll_iff.2 fun u hu => (hall u hu).1⟩, ?_, fun ρ hρ => ?_⟩
      · intro y hy
        simp only [names, mem_append, mem_namesAll] at hy
        rcases hy with hy | ⟨u, hu, hy⟩
        · exact bound_eq_none hb y hy
        · exact (hall u hu).2 y hy
      · exact eval_generic_congr rfl (heval ρ hρ)
    case function ps ret =>
      obtain ⟨us, hus, h⟩ := bind_eq_some_iff.1 h
      obtain ⟨v, hv, rfl⟩ := map_eq_some_iff.1 h
      simp only [Plain, plainAll_iff] at hplain
      obtain ⟨hall, heval⟩ := hlist hplain.2 hus
      have happ := ih hplain.1 hv
      refine ⟨⟨happ.plain, plainAll_iff.2 fun u hu => (hall u hu).1⟩, ?_, fun ρ hρ => ?_⟩
      · intro y hy
        simp only [names, mem_append, mem_namesAll] at hy
        rcases hy with hy | ⟨u, hu, hy⟩
        · exact happ.resolved y hy
        · exact (hall u hu).2 y hy
      · rw [eval_function, eval_function, happ.eval ρ hρ, heval ρ hρ]
    case tuple elems =>
      obtain ⟨us, hus, rfl⟩ := map_eq_some_iff.1 h
      simp only [Plain, plainAll_iff] at hplain
      obtain ⟨hall, heval⟩ := hlist hplain hus
      refine ⟨plainAll_iff.2 fun u hu => (hall u hu).1, ?_, fun ρ hρ => ?_⟩
      · intro y hy
        simp only [names, mem_namesAll] at hy
        obtain ⟨u, hu, hy⟩ := hy
        exact (hall u hu).2 y hy
      · rw [eval_tuple, eval_tuple, heval ρ hρ]
    all_goals
      cases h
      exact ⟨hplain, fun y hy => absurd hy not_mem_nil, fun _ _ => rfl⟩

theorem Acyclic.bind (h : Acyclic σ) (hx : x ∉ names t)
    (ht : Resolved σ t) : Acyclic (update σ x (some t)) := by
  obtain ⟨rank, hrank⟩ := h
  refine ⟨fun y => if y = x then 0 else rank y + 1, fun y u hy z hz hbound => ?_⟩
  by_cases hyx : y = x
  · subst hyx
    rw [update_self] at hy
    cases hy
    have hzx : z ≠ y := by
      rintro rfl
      exact hx hz
    rw [update_of_ne hzx, ht z hz] at hbound
    cases hbound
  · rw [update_of_ne hyx] at hy
    by_cases hzx : z = x
    · simp [hzx, hyx]
    · rw [update_of_ne hzx] at hbound
      have hlt := hrank y u hy z hz hbound
      simp only [if_neg hzx, if_neg hyx]
      omega

theorem bind_good (hg : Good params σ) (hx : x ∈ params)
    (hfree : σ x = none) (hplain : Plain params t) (ht : Resolved σ t)
    (hoccurs : occursIn x t = false) :
    Good params (update σ x (some t)) ∧ Extends σ (update σ x (some t)) := by
  have hmem : x ∉ names t := by
    intro h
    rw [occursIn_of_mem hx t hplain h] at hoccurs
    cases hoccurs
  refine ⟨⟨?_, ?_, hg.acyclic.bind hmem ht⟩, ?_⟩
  · intro y u hy
    by_cases hyx : y = x
    · rwa [hyx]
    · rw [update_of_ne hyx] at hy
      exact hg.inScope y u hy
  · intro y u hy
    by_cases hyx : y = x
    · subst hyx
      rw [update_self] at hy
      cases hy
      exact hplain
    · rw [update_of_ne hyx] at hy
      exact hg.plain y u hy
  · intro y u hy
    have hyx : y ≠ x := by
      rintro rfl
      rw [hfree] at hy
      cases hy
    rwa [update_of_ne hyx]

/-- What a call does to a solver; if it succeeds, `eqs` are equal from then on. -/
structure Kept (s s' : Solver) (ok : Bool) (eqs : (String → Ty) → Prop) : Prop where
  typeParams : s'.typeParams = s.typeParams
  good : Good s.typeParams s'.substitution
  extend : Extends s.substitution s'.substitution
  sound : ok = true → ∀ ρ, Solves ρ s'.substitution → eqs ρ

variable {s s' : Solver} {ok : Bool} {ps : List (Ty × Ty)} {a b : Ty} {eqs : (String → Ty) → Prop}

theorem Kept.same (hg : Good s.typeParams s.substitution)
    (h : ok = true → ∀ ρ, Solves ρ s.substitution → eqs ρ) : Kept s s ok eqs :=
  ⟨rfl, hg, .refl _, h⟩

theorem Kept.mono {eqs' : (String → Ty) → Prop} (h : Kept s s' ok eqs)
    (himp : ∀ ρ, Solves ρ s'.substitution → eqs ρ → eqs' ρ) : Kept s s' ok eqs' :=
  ⟨h.typeParams, h.good, h.extend, fun hok ρ hρ => himp ρ hρ (h.sound hok ρ hρ)⟩

theorem bindTypeParam_kept (hg : Good s.typeParams s.substitution)
    (hx : x ∈ s.typeParams) (hfree : s.substitution x = none) (hplain : Plain s.typeParams t)
    (ht : Resolved s.substitution t) (h : bindTypeParam s x t = (ok, s')) :
    Kept s s' ok fun ρ => ρ x = eval ρ t := by
  unfold bindTypeParam at h
  rw [hfree] at h
  split_ifs at h with hoccurs
  · cases h
    exact ⟨rfl, hg, .refl _, nofun⟩
  · cases h
    obtain ⟨hg', hext⟩ := bind_good hg hx hfree hplain ht ((Bool.not_eq_true _).mp hoccurs)
    refine ⟨rfl, hg', hext, fun _ ρ hρ => hρ x t ?_⟩
    exact update_self ..

theorem param_eq_some (h : s.param t = some x) : t = .named [x] ∧ x ∈ s.typeParams := by
  unfold Solver.param at h
  split at h
  · split at h
    · cases h
      exact ⟨rfl, ‹_›⟩
    · cases h
  · cases h

theorem zip_plain (ha : ∀ t ∈ as, Plain params t)
    (hb : ∀ t ∈ bs, Plain params t) : ∀ p ∈ as.zip bs, Plain params p.1 ∧ Plain params p.2 := by
  intro p hp
  exact ⟨ha p.1 (of_mem_zip hp).1, hb p.2 (of_mem_zip hp).2⟩

theorem zip_eval (hlen : as.length = bs.length)
    (h : ∀ p ∈ as.zip bs, eval ρ p.1 = eval ρ p.2) : as.map (eval ρ) = bs.map (eval ρ) := by
  induction as generalizing bs with
  | nil => rw [length_eq_zero_iff.1 hlen.symm]
  | cons a as ih =>
    cases bs with
    | nil => cases hlen
    | cons b bs =>
      have hhead : eval ρ a = eval ρ b := h (a, b) mem_cons_self
      have htail := ih (Nat.succ.inj hlen) fun p hp => h p (mem_cons_of_mem _ hp)
      rw [map_cons, map_cons, hhead, htail]

theorem parts_spec (h : parts a b = some ps)
    (ha : Plain params a) (hb : Plain params b) : (∀ p ∈ ps, Plain params p.1 ∧ Plain params p.2) ∧
      ∀ ρ, (∀ p ∈ ps, eval ρ p.1 = eval ρ p.2) → eval ρ a = eval ρ b := by
  unfold parts at h
  split at h
  case h_8 as bs =>
    split at h
    · rename_i heq
      cases h
      exact ⟨fun p hp => absurd hp not_mem_nil, fun ρ _ => by rw [heq]⟩
    · cases h
  case h_9 pa aa pb ab =>
    split at h
    · rename_i heq
      obtain ⟨rfl, hlen⟩ := heq
      cases h
      simp only [Plain, plainAll_iff] at ha hb
      exact ⟨zip_plain ha.2 hb.2, fun ρ hρ => eval_generic_congr rfl (zip_eval hlen hρ)⟩
    · cases h
  case h_10 path args other =>
    split at h
    · rename_i heq
      obtain ⟨rfl, rfl⟩ := heq
      cases h
      exact ⟨fun p hp => absurd hp not_mem_nil, fun ρ _ => rfl⟩
    · cases h
  case h_11 other path args =>
    split at h
    · rename_i heq
      obtain ⟨rfl, rfl⟩ := heq
      cases h
      exact ⟨fun p hp => absurd hp not_mem_nil, fun ρ _ => rfl⟩
    · cases h
  case h_12 pa ra pb rb =>
    split at h
    · rename_i hlen
      cases h
      simp only [Plain, plainAll_iff] at ha hb
      refine ⟨?_, fun ρ hρ => ?_⟩
      · intro p hp
        rcases mem_cons.1 hp with rfl | hp
        · exact ⟨ha.1, hb.1⟩
        · exact zip_plain ha.2 hb.2 p hp
      · have hret : eval ρ ra = eval ρ rb := hρ (ra, rb) mem_cons_self
        have hparams := zip_eval hlen fun p hp => hρ p (mem_cons_of_mem _ hp)
        rw [eval_function, eval_function, hret, hparams]
    · cases h
  case h_13 ea eb =>
    split at h
    · rename_i hlen
      cases h
      simp only [Plain, plainAll_iff] at ha hb
      refine ⟨zip_plain ha hb, fun ρ hρ => ?_⟩
      rw [eval_tuple, eval_tuple, zip_eval hlen hρ]
    · cases h
  case h_14 => cases h
  all_goals
    cases h
    exact ⟨fun p hp => absurd hp not_mem_nil, fun ρ _ => rfl⟩

theorem inTurn_kept {f : Solver → Ty → Ty → Option (Bool × Solver)}
    (hf : ∀ s s' a b ok, Good s.typeParams s.substitution → Plain s.typeParams a →
      Plain s.typeParams b → f s a b = some (ok, s') → Kept s s' ok fun ρ => eval ρ a = eval ρ b)
    (hg : Good s.typeParams s.substitution)
    (hplain : ∀ p ∈ ps, Plain s.typeParams p.1 ∧ Plain s.typeParams p.2)
    (h : inTurn f s ps = some (ok, s')) :
    Kept s s' ok fun ρ => ∀ p ∈ ps, eval ρ p.1 = eval ρ p.2 := by
  induction ps generalizing s with
  | nil =>
    cases some.inj h
    exact .same hg fun _ ρ _ p hp => absurd hp not_mem_nil
  | cons p ps ih =>
    obtain ⟨a, b⟩ := p
    obtain ⟨⟨ok₁, s₁⟩, hab, hrest⟩ := bind_eq_some_iff.1 h
    obtain ⟨ha, hb⟩ := hplain (a, b) mem_cons_self
    have hfirst := hf s s₁ a b ok₁ hg ha hb hab
    cases ok₁ with
    | false =>
      cases some.inj hrest
      exact ⟨hfirst.typeParams, hfirst.good, hfirst.extend, nofun⟩
    | true =>
      have hgood : Good s₁.typeParams s₁.substitution := hfirst.typeParams ▸ hfirst.good
      have hrest' := ih hgood (fun p hp => by
        rw [hfirst.typeParams]
        exact hplain p (mem_cons_of_mem _ hp)) hrest
      refine ⟨hrest'.typeParams.trans hfirst.typeParams, hfirst.typeParams ▸ hrest'.good,
        hfirst.extend.trans hrest'.extend, fun hok ρ hρ p hp => ?_⟩
      rcases mem_cons.1 hp with rfl | hp
      · exact hfirst.sound rfl ρ (hρ.of_extends hrest'.extend)
      · exact hrest'.sound hok ρ hρ p hp

theorem not_special (h : Plain params t) : isUnknown t = false ∧ isNever t = false := by
  cases t <;> first | exact ⟨rfl, rfl⟩ | cases h

/-- **One call.** It keeps the invariant and all bindings; if it succeeds, then the two types are
equal under all valuations that are left. -/
theorem unify_good (hg : Good s.typeParams s.substitution)
    (ha : Plain s.typeParams a) (hb : Plain s.typeParams b)
    (h : unify n s a b = some (ok, s')) : Kept s s' ok fun ρ => eval ρ a = eval ρ b := by
  induction n generalizing s s' a b ok with
  | zero => cases h
  | succ n ih =>
    obtain ⟨a', ha', h⟩ := bind_eq_some_iff.1 h
    obtain ⟨b', hb', h⟩ := bind_eq_some_iff.1 h
    have happ := apply_applied hg ha ha'
    have hbpp := apply_applied hg hb hb'
    -- it is enough to look at the types with the bound parameters replaced
    suffices hres : Kept s s' ok fun ρ => eval ρ a' = eval ρ b' by
      refine hres.mono fun ρ hρ heq => ?_
      have hρ' := hρ.of_extends hres.extend
      rw [← happ.eval ρ hρ', ← hbpp.eval ρ hρ', heq]
    simp only [unifyResolved, not_special happ.plain, not_special hbpp.plain, Bool.or_self,
      Bool.false_eq_true, if_false] at h
    cases hpa : s.param a' with
    | some x =>
      rw [hpa] at h
      obtain ⟨rfl, hx⟩ := param_eq_some hpa
      have hfree : s.substitution x = none := happ.resolved x mem_cons_self
      exact bindTypeParam_kept hg hx hfree hbpp.plain hbpp.resolved (some.inj h)
    | none =>
      rw [hpa] at h
      cases hpb : s.param b' with
      | some x =>
        rw [hpb] at h
        obtain ⟨rfl, hx⟩ := param_eq_some hpb
        have hfree : s.substitution x = none := hbpp.resolved x mem_cons_self
        have hbind := bindTypeParam_kept hg hx hfree happ.plain happ.resolved (some.inj h)
        exact hbind.mono fun ρ _ heq => heq.symm
      | none =>
        rw [hpb] at h
        cases hparts : parts a' b' with
        | none =>
          rw [hparts] at h
          cases some.inj h
          exact .same hg nofun
        | some ps =>
          rw [hparts] at h
          obtain ⟨hplain, heval⟩ := parts_spec hparts happ.plain hbpp.plain
          have hturn := inTurn_kept (fun s s' a b ok hg ha hb h => ih hg ha hb h) hg hplain h
          exact hturn.mono fun ρ _ hall => heval ρ hall

end Arth.Constraints
