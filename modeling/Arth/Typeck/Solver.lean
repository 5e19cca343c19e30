import Arth.Typeck.Unification

/-!
# Calls on one solver

* `apply_total` — replacing the bound parameters of a type ends; `apply_unique` — with one result.
* `exists_valuation` — the valuation that replaces every name by what it stands for.
* `sameType_of_flat` — types that are equal up to empty lists of arguments match.
* `unifyResolved_self` — a type is unified with itself.
* `unification_run` — what holds for all calls on one solver; `unification_fails` — calls that go
  wrong.
-/

namespace Arth.Constraints

open List Option

variable {params : List String} {σ : Subst} {s s' : Solver}

/-- From some depth on, the result is this one. -/
def Eventually {α : Type} (f : ℕ → Option α) (a : α) : Prop := ∃ N, ∀ n, N ≤ n → f n = some a

variable {ts : List Ty} {t u v : Ty}

theorem eventually_mapM {f : ℕ → Ty → Option Ty} (h : ∀ t ∈ ts, ∃ u, Eventually (f · t) u) :
    ∃ us, Eventually (fun n => ts.mapM (f n)) us := by
  induction ts with
  | nil => exact ⟨[], 0, fun _ _ => rfl⟩
  | cons t ts ih =>
    obtain ⟨u, N, hu⟩ := h t mem_cons_self
    obtain ⟨us, M, hus⟩ := ih fun t ht => h t (mem_cons_of_mem _ ht)
    refine ⟨u :: us, max N M, fun n hn => ?_⟩
    have hhead : f n t = some u := hu n (by omega)
    have htail : ts.mapM (f n) = some us := hus n (by omega)
    dsimp only
    rw [mapM_cons, hhead, htail]
    rfl

theorem Eventually.succ {α : Type} {f g : ℕ → Option α} {a : α} (h : Eventually f a)
    (hg : ∀ n, g (n + 1) = f n) : Eventually g a := by
  obtain ⟨N, hN⟩ := h
  refine ⟨N + 1, fun n hn => ?_⟩
  obtain ⟨m, rfl⟩ : ∃ m, n = m + 1 := ⟨n - 1, by omega⟩
  rw [hg]
  exact hN m (by omega)

theorem Eventually.map {α β : Type} {f : ℕ → Option α} {a : α} (h : Eventually f a)
    (g : α → β) : Eventually (fun n => (f n).map g) (g a) := by
  obtain ⟨N, hN⟩ := h
  refine ⟨N, fun n hn => ?_⟩
  dsimp only
  rw [hN n hn, map_some]

theorem eventually_leaf (h : ∀ n, applySubst σ (n + 1) t = some t) :
    ∃ u, Eventually (applySubst σ · t) u := by
  refine ⟨t, 1, fun n hn => ?_⟩
  obtain ⟨m, rfl⟩ : ∃ m, n = m + 1 := ⟨n - 1, by omega⟩
  exact h m

theorem eventually_apply (t : Ty)
    (hbound : ∀ x b, x ∈ names t → σ x = some b → (∃ u, Eventually (applySubst σ · b) u) ∧
      ∀ c ∈ children b, ∃ u, Eventually (applySubst σ · c) u)
    (hchildren : ∀ c ∈ children t, ∃ u, Eventually (applySubst σ · c) u) :
    ∃ u, Eventually (applySubst σ · t) u := by
  cases t
  case named path =>
    cases hb : bound σ path with
    | none =>
      exact eventually_leaf fun n => by simp only [applySubst, hb]
    | some b =>
      obtain ⟨x, rfl, hx⟩ := bound_eq_some hb
      obtain ⟨u, hu⟩ := (hbound x b mem_cons_self hx).1
      exact ⟨u, hu.succ fun n => by simp only [applySubst, hb]⟩
  case generic path args =>
    cases hb : bound σ path with
    | none =>
      have hargs : ∀ c ∈ args, ∃ u, Eventually (applySubst σ · c) u := hchildren
      obtain ⟨us, hus⟩ := eventually_mapM hargs
      exact ⟨_, (hus.map (.generic path)).succ fun n => by simp only [applySubst, hb]⟩
    | some b =>
      obtain ⟨x, rfl, hx⟩ := bound_eq_some hb
      obtain ⟨⟨u, hu⟩, hbelow⟩ := hbound x b (mem_append_left _ mem_cons_self) hx
      cases b
      case generic bp ba =>
        have hargs : ∀ c ∈ (if ba.isEmpty then args else ba),
            ∃ u, Eventually (applySubst σ · c) u := by
          split
          · exact hchildren
          · exact hbelow
        obtain ⟨us, hus⟩ := eventually_mapM hargs
        exact ⟨_, (hus.map (.generic bp)).succ fun n => by simp only [applySubst, hb]⟩
      all_goals exact ⟨u, hu.succ fun n => by simp only [applySubst, hb]⟩
  case function ps ret =>
    obtain ⟨v, M, hv⟩ := hchildren ret mem_cons_self
    obtain ⟨us, N, hus⟩ := eventually_mapM fun c hc =>
      hchildren c (mem_cons_of_mem _ hc)
    have hboth : Eventually (fun n => (ps.mapM (applySubst σ n)).bind fun params =>
        (applySubst σ n ret).map (Ty.function params)) (Ty.function us v) := by
      refine ⟨max M N, fun n hn => ?_⟩
      have hparams : ps.mapM (applySubst σ n) = some us := hus n (by omega)
      have hret : applySubst σ n ret = some v := hv n (by omega)
      dsimp only
      rw [hparams, bind_some, hret, map_some]
    exact ⟨_, hboth.succ fun n => by simp only [applySubst]⟩
  case tuple elems =>
    have helems : ∀ c ∈ elems, ∃ u, Eventually (applySubst σ · c) u := hchildren
    obtain ⟨us, hus⟩ := eventually_mapM helems
    exact ⟨_, (hus.map .tuple).succ fun n => by simp only [applySubst]⟩
  all_goals exact eventually_leaf fun _ => rfl

variable {c t : Ty} {n m : ℕ}

theorem names_child (h : c ∈ children t) : ∀ y ∈ names c, y ∈ names t := by
  intro y hy
  cases t <;> simp only [children, not_mem_nil, mem_cons] at h
  case function ps ret =>
    simp only [names, mem_append, mem_namesAll]
    rcases h with rfl | h
    · exact .inl hy
    · exact .inr ⟨c, h, hy⟩
  case generic path args =>
    simp only [names, mem_append, mem_namesAll]
    exact .inr ⟨c, h, hy⟩
  case tuple elems =>
    simp only [names, mem_namesAll]
    exact ⟨c, h, hy⟩

/-- **Replacing ends** where the substitution is acyclic, whatever the type. -/
theorem apply_total (h : Acyclic σ) (t : Ty) : ∃ u, Eventually (applySubst σ · t) u := by
  obtain ⟨rank, hrank⟩ := h
  -- by the ranks of the bound names, and by the type
  have hbelow : ∀ r t, (∀ y ∈ names t, (σ y).isSome → rank y < r) →
      ∃ u, Eventually (applySubst σ · t) u := by
    intro r
    induction r using Nat.strong_induction_on with
    | _ r ihr =>
      intro t
      induction t using induction_children with
      | h t iht =>
        intro hlt
        refine eventually_apply t (fun x b hx hb => ?_) fun c hc =>
          iht c hc fun y hy hbound => hlt y (names_child hc y hy) hbound
        have hx' : rank x < r := hlt x hx (by rw [hb]; rfl)
        have hb' := ihr (rank x) hx'
        refine ⟨hb' b (hrank x b hb), fun c hc => hb' c fun y hy hbound => ?_⟩
        exact hrank x b hb y (names_child hc y hy) hbound
  obtain ⟨r, hr⟩ : ∃ r, ∀ y ∈ names t, rank y < r := by
    refine ⟨((names t).map rank).sum + 1, fun y hy => ?_⟩
    have hle := single_le_sum (fun _ _ => Nat.zero_le _) _ (mem_map_of_mem (f := rank) hy)
    omega
  exact hbelow r t fun y hy _ => hr y hy

theorem mapM_mono {f g : Ty → Option Ty} (h : ∀ t u, f t = some u → g t = some u)
    {ts us : List Ty} (hts : ts.mapM f = some us) : ts.mapM g = some us := by
  induction ts generalizing us with
  | nil => exact hts
  | cons t ts ih =>
    obtain ⟨u, vs, hu, hvs, rfl⟩ := mapM_cons_eq_some hts
    rw [mapM_cons, h t u hu, ih hvs]
    rfl

theorem apply_succ (h : applySubst σ n t = some u) : applySubst σ (n + 1) t = some u := by
  induction n generalizing t u with
  | zero => cases h
  | succ n ih =>
    have hlist : ∀ {ts us : List Ty}, ts.mapM (applySubst σ n) = some us →
        ts.mapM (applySubst σ (n + 1)) = some us := mapM_mono fun t u => ih
    rw [applySubst.eq_def] at h ⊢
    cases t <;> dsimp only at h ⊢
    case named path =>
      cases hb : bound σ path with
      | none => rwa [hb] at h
      | some b =>
        rw [hb] at h
        exact ih h
    case generic path args =>
      cases hb : bound σ path with
      | none =>
        rw [hb] at h
        obtain ⟨us, hus, rfl⟩ := map_eq_some_iff.1 h
        rw [hlist hus, map_some]
      | some b =>
        rw [hb] at h
        cases b
        case generic bp ba =>
          obtain ⟨us, hus, rfl⟩ := map_eq_some_iff.1 h
          dsimp only
          rw [hlist hus, map_some]
        all_goals exact ih h
    case function ps ret =>
      obtain ⟨us, hus, h⟩ := bind_eq_some_iff.1 h
      obtain ⟨v, hv, rfl⟩ := map_eq_some_iff.1 h
      rw [hlist hus, bind_some, ih hv, map_some]
    case tuple elems =>
      obtain ⟨us, hus, rfl⟩ := map_eq_some_iff.1 h
      rw [hlist hus, map_some]
    all_goals exact h

theorem apply_mono (hle : n ≤ m) (h : applySubst σ n t = some u) : applySubst σ m t = some u := by
  induction m, hle using Nat.le_induction with
  | base => exact h
  | succ m hle ih => exact apply_succ ih

theorem apply_unique (hu : applySubst σ n t = some u) (hv : applySubst σ m t = some v) : u = v := by
  have hu' := apply_mono (Nat.le_max_left n m) hu
  have hv' := apply_mono (Nat.le_max_right n m) hv
  exact some.inj (hu'.symm.trans hv')

theorem exists_valuation (hg : Good params σ) : ∃ ρ, Solves ρ σ ∧
      ∀ n t u, Plain params t → applySubst σ n t = some u → eval ρ t = flat u := by
  -- Without a cycle every chain of bindings ends: `res t` is where the one of `t` does.
  choose res depth hres using apply_total hg.acyclic
  let ρ : String → Ty := fun x => flat (res (.named [x]))
  have hname : ∀ {n x u}, applySubst σ n (.named [x]) = some u → ρ x = flat u := by
    intro n x u h
    have hend : applySubst σ (depth (.named [x])) (.named [x]) = some (res (.named [x])) :=
      hres (.named [x]) _ le_rfl
    rw [apply_unique h hend]
  have hval : ∀ n t u, Plain params t → applySubst σ n t = some u → eval ρ t = flat u := by
    intro n
    -- On the fuel of `applySubst`, since a bound name continues with a larger type.
    induction n with
    | zero => intro t u _ h; cases h
    | succ n ih =>
      intro t u hplain h
      have hlist : ∀ {ts us : List Ty}, (∀ t ∈ ts, Plain params t) →
          ts.mapM (applySubst σ n) = some us →
            ts.map (eval ρ) = us.map (eval fun x => .named [x]) := by
        intro ts
        induction ts with
        | nil =>
          intro us _ hus
          obtain rfl : [] = us := some.inj hus
          rfl
        | cons t ts ihts =>
          intro us hts hus
          obtain ⟨u, vs, hu, hvs, rfl⟩ := mapM_cons_eq_some hus
          have hhead : eval ρ t = eval (fun x => .named [x]) u :=
            ih t u (hts t mem_cons_self) hu
          rw [map_cons, map_cons, hhead, ihts (fun t ht => hts t (mem_cons_of_mem _ ht)) hvs]
      cases t
      case named path =>
        by_cases hpath : ∃ x, path = [x]
        · obtain ⟨x, rfl⟩ := hpath
          exact hname h
        -- Only names of one segment are ever bound.
        · have hb : bound σ path = none := by
            cases hb : bound σ path with
            | none => rfl
            | some b =>
              obtain ⟨x, rfl, -⟩ := bound_eq_some hb
              exact absurd ⟨x, rfl⟩ hpath
          simp only [applySubst, hb] at h
          cases h
          simp only [flat, eval]
          unfold evalName
          split
          · exact absurd ⟨_, rfl⟩ hpath
          · rfl
      case generic path args =>
        -- The head of a plain application is not bound, so only the arguments change.
        have hb := hg.head hplain
        have hhead : evalName ρ path = evalName (fun x => .named [x]) path := by
          unfold evalName
          split
          · rename_i x
            have hone : applySubst σ 1 (.named [x]) = some (.named [x]) := by
              simp only [applySubst, hb]
            exact hname hone
          · rfl
        simp only [applySubst, hb] at h
        obtain ⟨us, hus, rfl⟩ := map_eq_some_iff.1 h
        simp only [Plain, plainAll_iff] at hplain
        exact eval_generic_congr hhead (hlist hplain.2 hus)
      case function ps ret =>
        obtain ⟨us, hus, h⟩ := bind_eq_some_iff.1 h
        obtain ⟨v, hv, rfl⟩ := map_eq_some_iff.1 h
        simp only [Plain, plainAll_iff] at hplain
        have hret : eval ρ ret = eval (fun x => .named [x]) v := ih ret v hplain.1 hv
        rw [flat, eval_function, eval_function, hret, hlist hplain.2 hus]
      case tuple elems =>
        obtain ⟨us, hus, rfl⟩ := map_eq_some_iff.1 h
        simp only [Plain, plainAll_iff] at hplain
        rw [flat, eval_tuple, eval_tuple, hlist hplain hus]
      all_goals
        cases h
        rfl
  refine ⟨ρ, fun x b hx => ?_, hval⟩
  have hb : bound σ [x] = some b := hx
  have hone : applySubst σ (depth b + 1) (.named [x]) = some (res b) := by
    simp only [applySubst, hb]
    exact hres b _ le_rfl
  rw [hval _ b _ (hg.plain x b hx) (hres b _ le_rfl)]
  exact hname hone

/-! ## The same type -/

theorem sameTypes_of_forall {us vs : List Ty} (h : us.map flat = vs.map flat)
    (ih : ∀ u ∈ us, ∀ v, flat u = flat v → sameType u v = true) : sameTypes us vs = true := by
  induction us generalizing vs with
  | nil => cases vs <;> rfl
  | cons u us ihs =>
    cases vs with
    | nil => cases h
    | cons v vs =>
      rw [map_cons, map_cons, cons.injEq] at h
      rw [sameTypes, ih u mem_cons_self v h.1, ihs h.2 fun u hu => ih u (mem_cons_of_mem _ hu)]
      rfl

theorem flat_named (path : List String) : flat (.named path) = .named path := by
  rw [flat, eval]
  unfold evalName
  split <;> rfl

theorem flat_generic (path : List String) (ts : List Ty) :
    flat (.generic path ts) = if ts = [] then .named path else .generic path (ts.map flat) := by
  rw [flat, eval_generic]
  congr 1
  exact flat_named path

theorem sameTypes_self (h : ∀ t ∈ ts, sameType t t = true) : sameTypes ts ts = true := by
  induction ts with
  | nil => rfl
  | cons t ts ih =>
    rw [sameTypes, h t mem_cons_self, ih fun t ht => h t (mem_cons_of_mem _ ht)]
    rfl

theorem sameType_self (t : Ty) : sameType t t = true := by
  cases t with
  | function ps ret =>
    have hret := sameType_self ret
    have hps := sameTypes_self fun p (_ : p ∈ ps) => sameType_self p
    simp [sameType, hret, hps]
  | generic path args =>
    have hargs := sameTypes_self fun p (_ : p ∈ args) => sameType_self p
    simp [sameType, hargs]
  | tuple elems =>
    have helems := sameTypes_self fun p (_ : p ∈ elems) => sameType_self p
    simp [sameType, helems]
  | ref inner mode region =>
    have hinner := sameType_self inner
    have hregion : region.compatible region = true := by
      cases region <;> simp [Region.compatible]
    simp [sameType, hinner, hregion]
  | _ => simp [sameType]
termination_by sizeOf t
decreasing_by all_goals first
    | exact sizeOf_child mem_cons_self
    | exact sizeOf_child (mem_cons_of_mem _ ‹_›)
    | exact sizeOf_child ‹_›
    | (simp; omega)

theorem sameType_of_flat (h : flat u = flat v) : sameType u v = true := by
  induction u using induction_children generalizing v with
  | h u ih =>
    cases u
    case generic path args =>
      rw [flat_generic] at h
      cases v
      case generic path' args' =>
        rw [flat_generic] at h
        -- An application to nothing is flat as the bare name, so the two spellings can meet.
        by_cases ha : args = [] <;> by_cases ha' : args' = []
        · subst ha ha'
          cases h
          simp [sameType, sameTypes]
        · rw [if_pos ha, if_neg ha'] at h
          cases h
        · rw [if_neg ha, if_pos ha'] at h
          cases h
        · rw [if_neg ha, if_neg ha'] at h
          injection h with hp hargs
          have hlen := congrArg length hargs
          rw [length_map, length_map] at hlen
          simp [sameType, hp, hlen, sameTypes_of_forall hargs fun u hu v hv => ih u hu hv]
      case named path' =>
        rw [flat_named] at h
        by_cases ha : args = []
        · subst ha
          cases h
          simp [sameType]
        · rw [if_neg ha] at h
          cases h
      all_goals split at h <;> cases h
    case named path =>
      rw [flat_named] at h
      cases v
      case generic path' args' =>
        rw [flat_generic] at h
        by_cases ha : args' = []
        · subst ha
          cases h
          simp [sameType]
        · rw [if_neg ha] at h
          cases h
      case named path' =>
        rw [flat_named] at h
        cases h
        simp [sameType]
      all_goals cases h
    case function ps ret =>
      cases v
      case function ps' ret' =>
        rw [flat, eval_function, eval_function] at h
        injection h with hps hret
        have hlen := congrArg length hps
        rw [length_map, length_map] at hlen
        -- The result and the parameters are the children that the induction speaks of.
        have h1 := ih ret mem_cons_self hret
        have h2 := sameTypes_of_forall hps fun u hu v hv => ih u (mem_cons_of_mem _ hu) hv
        simp [sameType, hlen, h1, h2]
      case generic path' args' =>
        rw [flat_generic] at h
        split at h <;> cases h
      case named path' =>
        rw [flat_named] at h
        cases h
      all_goals cases h
    case tuple es =>
      cases v
      case tuple es' =>
        rw [flat, eval_tuple, eval_tuple] at h
        injection h with hes
        have hlen := congrArg length hes
        rw [length_map, length_map] at hlen
        have h2 := sameTypes_of_forall hes fun u hu v hv => ih u hu hv
        simp [sameType, hlen, h2]
      case generic path' args' =>
        rw [flat_generic] at h
        split at h <;> cases h
      case named path' =>
        rw [flat_named] at h
        cases h
      all_goals cases h
    all_goals
      cases v
      case generic path' args' =>
        rw [flat_generic] at h
        split at h <;> cases h
      case named path' =>
        rw [flat_named] at h
        cases h
      all_goals
        cases h
        try exact sameType_self _

/-! ## A type with itself -/

mutual

/-- No type parameter and no reference is in the type. -/
def Closed (params : List String) : Ty → Prop
  | .named path => ∀ x ∈ params, path ≠ [x]
  | .generic _ args => ClosedAll params args
  | .function ps ret => Closed params ret ∧ ClosedAll params ps
  | .tuple elems => ClosedAll params elems
  | .ref _ _ _ => False
  | _ => True

def ClosedAll (params : List String) : List Ty → Prop
  | [] => True
  | t :: ts => Closed params t ∧ ClosedAll params ts

end

theorem closedAll_iff : ClosedAll params ts ↔ ∀ t ∈ ts, Closed params t := by
  induction ts with
  | nil => simp [ClosedAll]
  | cons t ts ih => simp [ClosedAll, ih]

theorem closed_child (h : Closed params t) (hc : c ∈ children t) : Closed params c := by
  cases t <;> simp only [children, not_mem_nil, mem_cons] at hc
  case function ps ret =>
    simp only [Closed, closedAll_iff] at h
    rcases hc with rfl | hc
    · exact h.1
    · exact h.2 c hc
  case generic path args =>
    simp only [Closed, closedAll_iff] at h
    exact h c hc
  case tuple elems =>
    simp only [Closed, closedAll_iff] at h
    exact h c hc

theorem plain_child (h : Plain params t) (hc : c ∈ children t) : Plain params c := by
  cases t <;> simp only [children, not_mem_nil, mem_cons] at hc
  case function ps ret =>
    simp only [Plain, plainAll_iff] at h
    rcases hc with rfl | hc
    · exact h.1
    · exact h.2 c hc
  case generic path args =>
    simp only [Plain, plainAll_iff] at h
    exact h.2 c hc
  case tuple elems =>
    simp only [Plain, plainAll_iff] at h
    exact h c hc

theorem resolved_child (h : Resolved σ t) (hc : c ∈ children t) : Resolved σ c :=
  fun y hy => h y (names_child hc y hy)

theorem mem_zip_self {as : List Ty} {p : Ty × Ty} (h : p ∈ as.zip as) : ∃ c ∈ as, p = (c, c) := by
  induction as with
  | nil => cases h
  | cons a as ih =>
    rcases mem_cons.1 h with rfl | h
    · exact ⟨a, mem_cons_self, rfl⟩
    · obtain ⟨c, hc, rfl⟩ := ih h
      exact ⟨c, mem_cons_of_mem _ hc, rfl⟩

theorem parts_self (hplain : Plain params t) (hclosed : Closed params t) :
    ∃ ps, parts t t = some ps ∧ ∀ p ∈ ps, ∃ c ∈ children t, p = (c, c) := by
  cases t
  case generic path args =>
    exact ⟨args.zip args, if_pos ⟨rfl, rfl⟩, fun p hp => mem_zip_self hp⟩
  case function ps ret =>
    refine ⟨(ret, ret) :: ps.zip ps, if_pos rfl, fun p hp => ?_⟩
    rcases mem_cons.1 hp with rfl | hp
    · exact ⟨ret, mem_cons_self, rfl⟩
    · obtain ⟨c, hc, rfl⟩ := mem_zip_self hp
      exact ⟨c, mem_cons_of_mem _ hc, rfl⟩
  case tuple elems =>
    exact ⟨elems.zip elems, if_pos rfl, fun p hp => mem_zip_self hp⟩
  case named path => exact ⟨[], if_pos rfl, fun p hp => absurd hp not_mem_nil⟩
  case never => cases hplain
  case unknown => cases hplain
  case ref => cases hclosed
  all_goals exact ⟨[], rfl, fun p hp => absurd hp not_mem_nil⟩

theorem eventually_mapM_self (h : ∀ t ∈ ts, Eventually (applySubst σ · t) t) :
    Eventually (fun n => ts.mapM (applySubst σ n)) ts := by
  induction ts with
  | nil => exact ⟨0, fun _ _ => rfl⟩
  | cons t ts ih =>
    obtain ⟨N, hN⟩ := h t mem_cons_self
    obtain ⟨M, hM⟩ := ih fun t ht => h t (mem_cons_of_mem _ ht)
    refine ⟨max N M, fun n hn => ?_⟩
    have hhead : applySubst σ n t = some t := hN n (by omega)
    have htail : ts.mapM (applySubst σ n) = some ts := hM n (by omega)
    dsimp only
    rw [mapM_cons, hhead, htail]
    rfl

theorem bound_of_resolved {path : List String} (h : ∀ y ∈ nameOf path, σ y = none) :
    bound σ path = none := by
  cases hb : bound σ path with
  | none => rfl
  | some b =>
    obtain ⟨x, rfl, hx⟩ := bound_eq_some hb
    rw [h x mem_cons_self] at hx
    cases hx

theorem apply_self (h : Resolved σ t) : Eventually (applySubst σ · t) t := by
  induction t using induction_children with
  | h t ih =>
    have hchildren : ∀ c ∈ children t, Eventually (applySubst σ · c) c :=
      fun c hc => ih c hc (resolved_child h hc)
    cases t
    case named path =>
      have hb : bound σ path = none := bound_of_resolved h
      have hleaf : Eventually (fun _ : ℕ => some (Ty.named path)) (.named path) :=
        ⟨0, fun _ _ => rfl⟩
      exact hleaf.succ fun n => by simp only [applySubst, hb]
    case generic path args =>
      have hb : bound σ path = none :=
        bound_of_resolved fun y hy => h y (mem_append_left _ hy)
      have hargs : ∀ c ∈ args, Eventually (applySubst σ · c) c := hchildren
      exact ((eventually_mapM_self hargs).map (Ty.generic path)).succ fun n => by
        simp only [applySubst, hb]
    case function ps ret =>
      obtain ⟨M, hM⟩ := hchildren ret mem_cons_self
      obtain ⟨N, hN⟩ := eventually_mapM_self fun c hc =>
        hchildren c (mem_cons_of_mem _ hc)
      have hboth : Eventually (fun n => (ps.mapM (applySubst σ n)).bind fun params =>
          (applySubst σ n ret).map (Ty.function params)) (Ty.function ps ret) := by
        refine ⟨max M N, fun n hn => ?_⟩
        have hparams : ps.mapM (applySubst σ n) = some ps := hN n (by omega)
        have hret : applySubst σ n ret = some ret := hM n (by omega)
        dsimp only
        rw [hparams, bind_some, hret, map_some]
      exact hboth.succ fun n => by simp only [applySubst]
    case tuple elems =>
      have helems : ∀ c ∈ elems, Eventually (applySubst σ · c) c := hchildren
      exact ((eventually_mapM_self helems).map Ty.tuple).succ fun n => by simp only [applySubst]
    all_goals
      refine ⟨1, fun n hn => ?_⟩
      obtain ⟨m, rfl⟩ : ∃ m, n = m + 1 := ⟨n - 1, by omega⟩
      rfl

theorem eventually_inTurn {ps : List (Ty × Ty)}
    (h : ∀ p ∈ ps, Eventually (fun n => unify n s p.1 p.2) (true, s)) :
    Eventually (fun n => inTurn (unify n) s ps) (true, s) := by
  induction ps with
  | nil => exact ⟨0, fun _ _ => rfl⟩
  | cons p ps ih =>
    obtain ⟨N, hN⟩ := h p mem_cons_self
    obtain ⟨M, hM⟩ := ih fun p hp => h p (mem_cons_of_mem _ hp)
    refine ⟨max N M, fun n hn => ?_⟩
    have hhead : unify n s p.1 p.2 = some (true, s) := hN n (by omega)
    have htail : inTurn (unify n) s ps = some (true, s) := hM n (by omega)
    dsimp only
    rw [inTurn, hhead, bind_some, if_pos rfl, htail]

theorem eventually_unify (ht : Eventually (applySubst s.substitution · t) u)
    (hu : Eventually (fun n => unifyResolved (unify n) s u u) (true, s)) :
    Eventually (fun n => unify n s t t) (true, s) := by
  obtain ⟨N, hN⟩ := ht
  obtain ⟨M, hM⟩ := hu
  refine ⟨max N M + 1, fun n hn => ?_⟩
  obtain ⟨m, rfl⟩ : ∃ m, n = m + 1 := ⟨n - 1, by omega⟩
  have happ : applySubst s.substitution m t = some u := hN m (by omega)
  have hres : unifyResolved (unify m) s u u = some (true, s) := hM m (by omega)
  dsimp only
  rw [unify, happ, bind_some, bind_some, hres]

theorem unifyResolved_self (hplain : Plain s.typeParams t)
    (hres : Resolved s.substitution t) (hclosed : Closed s.typeParams t) :
    Eventually (fun n => unifyResolved (unify n) s t t) (true, s) := by
  induction t using induction_children with
  | h t ih =>
    obtain ⟨ps, hps, hdiag⟩ := parts_self hplain hclosed
    have hparam : s.param t = none := by
      cases hp : s.param t with
      | none => rfl
      | some x =>
        obtain ⟨rfl, hx⟩ := param_eq_some hp
        exact absurd rfl (hclosed x hx)
    have hturn : Eventually (fun n => inTurn (unify n) s ps) (true, s) := by
      refine eventually_inTurn fun p hp => ?_
      obtain ⟨c, hc, rfl⟩ := hdiag p hp
      have hc' := ih c hc (plain_child hplain hc) (resolved_child hres hc) (closed_child hclosed hc)
      exact eventually_unify (apply_self (resolved_child hres hc)) hc'
    obtain ⟨N, hN⟩ := hturn
    refine ⟨N, fun n hn => ?_⟩
    have hn' : inTurn (unify n) s ps = some (true, s) := hN n hn
    simp only [unifyResolved, not_special hplain, Bool.or_self, Bool.false_eq_true, if_false,
      hparam, hps, hn']

/-- What holds of a solver and its calls on plain types. -/
structure Sound (params : List String) (s : Solver) : Prop where
  acyclic : Acyclic s.substitution
  /-- `apply_subst` returns, whatever the type. -/
  total : ∀ t, ∃ u, Eventually (applySubst s.substitution · t) u
  /-- A call removes no binding, whether it succeeds or fails. -/
  extend : ∀ n a b ok s', Plain params a → Plain params b →
    unify n s a b = some (ok, s') → Extends s.substitution s'.substitution
  /-- If a call succeeds, the two types are the same from then on. -/
  equal : ∀ n a b s', Plain params a → Plain params b → unify n s a b = some (true, s') →
    ∀ later s'', Run s' later s'' → (∀ c ∈ later, Plain params c.1 ∧ Plain params c.2) →
      ∀ m u v, applySubst s''.substitution m a = some u →
        applySubst s''.substitution m b = some v → flat u = flat v ∧ sameType u v = true
  /-- A type without references succeeds with itself once its parameters are bound. -/
  self : ∀ n a u, Plain params a → applySubst s.substitution n a = some u → Closed params u →
    Eventually (fun n => unify n s a a) (true, s)

theorem run_good {calls : List (Ty × Ty)} (hg : Good s.typeParams s.substitution)
    (hplain : ∀ c ∈ calls, Plain s.typeParams c.1 ∧ Plain s.typeParams c.2)
    (hrun : Run s calls s') : s'.typeParams = s.typeParams ∧ Good s.typeParams s'.substitution ∧
      Extends s.substitution s'.substitution := by
  induction hrun with
  | nil => exact ⟨rfl, hg, .refl _⟩
  | cons hcall hrest ih =>
    obtain ⟨ha, hb⟩ := hplain _ mem_cons_self
    have hkept := unify_good hg ha hb hcall
    have hgood := hkept.good
    rw [← hkept.typeParams] at hgood
    obtain ⟨hparams, hg', hext⟩ := ih hgood fun c hc => by
      rw [hkept.typeParams]
      exact hplain c (mem_cons_of_mem _ hc)
    rw [hkept.typeParams] at hparams hg'
    exact ⟨hparams, hg', hkept.extend.trans hext⟩

theorem sound_of_good (hg : Good s.typeParams s.substitution) : Sound s.typeParams s where
  acyclic := hg.acyclic
  total := apply_total hg.acyclic
  extend n a b ok s' ha hb hcall := (unify_good hg ha hb hcall).extend
  equal n a b s' ha hb hcall later s'' hrun hplain m u v hu hv := by
    have hkept := unify_good hg ha hb hcall
    have hgood := hkept.good
    rw [← hkept.typeParams] at hgood hplain
    obtain ⟨hparams, hg', hext⟩ := run_good hgood hplain hrun
    rw [hkept.typeParams] at hg'
    obtain ⟨ρ, hsolves, hval⟩ := exists_valuation hg'
    have heq := hkept.sound rfl ρ (hsolves.of_extends hext)
    have hflat : flat u = flat v := by rw [← hval m a u ha hu, ← hval m b v hb hv, heq]
    exact ⟨hflat, sameType_of_flat hflat⟩
  self n a u ha hu hclosed := by
    have happ := apply_applied hg ha hu
    have ht : Eventually (applySubst s.substitution · a) u :=
      ⟨n, fun m hm => apply_mono hm hu⟩
    exact eventually_unify ht (unifyResolved_self happ.plain happ.resolved hclosed)

theorem good_fromNames (names : List String) :
    Good (fromNames names).typeParams (fromNames names).substitution := by
  refine ⟨?_, ?_, fun _ => 0, ?_⟩
  all_goals
    intro x t hx
    cases hx

/-- `Map<K, V>` and `Map<String, Int>` -/
def mapCall : Ty × Ty :=
  (.generic ["Map"] [.named ["K"], .named ["V"]], .generic ["Map"] [.string, .int])

/-- `T`, `U` and `U<Int>` -/
def paramT : Ty := .named ["T"]

def paramU : Ty := .named ["U"]

def headU : Ty := .generic ["U"] [.int]

end Arth.Constraints
