import Arth.Lower.Scopes

/-!
# The invariant of drop elaboration

A local whose type needs a drop is registered before its initialiser is lowered, and again
after it.

* `dropParts`: which locals have to be dropped, and in which parts.
* `Paired V`: the invariant of the lowering. Every local of `V` is registered in pairs, and
  dropped in pairs.
* The operations on drop scopes and regions preserve it.
-/

namespace Arth.Lower

open Builder List
open Ir (Block InstKind Inst Terminator BlockData)

variable {E : Type} {st st' st₁ : LowerState E} {b : Block} {v p val : Ir.Value} {w : DropItem}
  {V : Ir.Value → Prop}

/-- The parts in which a local has to be dropped: none if its type needs no drop, or if the
escape analysis found that it is not to be dropped or may have been moved. -/
def localParts (st : LowerState E) (name : String) (ty : HirType) : List DropItem :=
  match needsDropTy st ty with
  | none => []
  | some tyName =>
    if shouldDropVar st name ∧ getMoveStateFor st name = .available then
      match getAllocStrategyFor st name with
      | .region _ => [.whole tyName]
      | _ =>
        if hasExplicitDeinitFor st name then [.whole tyName]
        else ((getFieldDropInfoFor st name).filterMap fun f =>
          if f.2.needsDrop then f.2.dropTyName.map fun ty => .field f.1 ty else none).dedup
    else []

/-- The parts of the local with slot `v`. -/
def dropParts (st : LowerState E) (v : Ir.Value) : List DropItem :=
  (st.decls.find? fun d => d.slot == v).elim [] fun d => localParts st d.name d.ty

theorem nodup_localParts (name : String) (ty : HirType) : (localParts st name ty).Nodup := by
  unfold localParts
  split
  · exact nodup_nil
  · split
    · split
      · exact nodup_singleton _
      · split
        · exact nodup_singleton _
        · exact nodup_dedup _
    · exact nodup_nil

theorem nodup_dropParts (v : Ir.Value) : (dropParts st v).Nodup := by
  unfold dropParts
  cases st.decls.find? fun d => d.slot == v with
  | none => exact nodup_nil
  | some d => exact nodup_localParts d.name d.ty

/-- What decides which locals have to be dropped. -/
structure Facts where
  decls : List Decl
  typesNeedingDrop : List String
  escapeInfo : Option (String → Option LocalEscapeInfo)

def LowerState.facts (st : LowerState E) : Facts :=
  ⟨st.decls, st.typesNeedingDrop, st.escapeInfo⟩

/-- The invariant of the lowering for the locals of `V`. -/
structure Paired (V : Ir.Value → Prop) (g : Facts) (st : LowerState E) : Prop where
  facts : st.facts = g
  results : Results st
  fresh : ∀ b v w, st.nextVal ≤ v → st.marks b v w = []
  infos : ∀ scope ∈ st.dropScopes, ∀ i ∈ scope,
    i.slot < st.nextVal ∧ i.declOrder < st.declOrderCounter
  ordered : st.dropScopes.reverse.flatten.Pairwise fun i j => i.declOrder < j.declOrder
  deinits : ∀ r ∈ st.loopRegions, ∀ d ∈ r.2, d.1 < st.nextVal
  decls : ∀ d ∈ st.decls, d.slot < st.nextVal
  bound : ∀ v, V v → v < st.nextVal
  doubled : ∀ b v w, V v → Doubled (st.marks b v w)
  scopes : ∀ scope ∈ st.dropScopes, Grouped V scope
  regions : ∀ r ∈ st.loopRegions, ∀ v, V v → ∀ ty, Even (r.2.count (v, ty))

variable {g : Facts}

theorem Doubled.of_declares {l : List Bool} (h : ∀ m ∈ l, m = true) : Doubled l := by
  induction l with
  | nil => exact .nil
  | cons m l ih =>
    rw [h m mem_cons_self]
    exact .declare (ih fun m' hm' => h m' (mem_cons_of_mem m hm'))

theorem quiet_declares {is : List Inst} (src : Sources)
    (h : ∀ i ∈ is, dropsNothing i.kind = true) : ∀ m ∈ marks v w (events src is), m = true := by
  induction is generalizing src with
  | nil =>
    intro m hm
    cases hm
  | cons i is ih =>
    have hdrop : dropped src i.kind = [] := by
      have hi := h i mem_cons_self
      cases hk : i.kind <;> first | rfl | (rw [hk] at hi; cases hi)
    have ih := ih (src.after i) fun j hj => h j (mem_cons_of_mem i hj)
    intro m hm
    rw [events, hdrop] at hm
    obtain ⟨e, he, hmark⟩ := mem_filterMap.1 hm
    rcases mem_cons.1 he with rfl | he
    · change (if i.result = v then some true else none) = some m at hmark
      split at hmark
      · exact (Option.some.inj hmark).symm
      · cases hmark
    · exact ih m (mem_filterMap.2 ⟨e, he, hmark⟩)

theorem Quiet.doubled (h : Quiet st st') (hd : Doubled (st.marks b v w)) :
    Doubled (st'.marks b v w) := by
  obtain ⟨insts, heq, hinsts⟩ := h.insts b
  rw [marks_of_insts heq]
  exact hd.append (.of_declares (quiet_declares _ fun i hi => (hinsts i hi).1))

theorem Quiet.marks (h : Quiet st st') (hv : v < st.nextVal ∨ st'.nextVal ≤ v) :
    st'.marks b v w = st.marks b v w := by
  obtain ⟨insts, heq, hinsts⟩ := h.insts b
  rw [marks_of_insts heq, marks_quiet, append_nil]
  intro i hi
  obtain ⟨hk, hlo, hhi⟩ := hinsts i hi
  refine ⟨hk, ?_⟩
  rcases hv with hv | hv
  · exact (hv.trans_le hlo).ne.symm
  · exact (hhi.trans_le hv).ne

theorem Quiet.results (h : Quiet st st') (hst : Results st) : Results st' := by
  intro b i hi
  obtain ⟨insts, heq, hinsts⟩ := h.insts b
  rw [heq] at hi
  rcases mem_append.1 hi with hi | hi
  · exact (hst b i hi).trans_le h.nextVal
  · exact (hinsts i hi).2.2

variable {scopes : List (List DropInfo)} {infos scope : List DropInfo}

theorem mem_addInfos {scope : List DropInfo} (h : scope ∈ addInfos infos scopes) :
    scope ∈ scopes ∨ ∃ scope₀ ∈ scopes, scope = scope₀ ++ infos := by
  cases scopes with
  | nil => cases h
  | cons scope₀ scopes =>
    rcases mem_cons.1 h with rfl | h
    · exact .inr ⟨scope₀, mem_cons_self, rfl⟩
    · exact .inl (mem_cons_of_mem _ h)

theorem flatten_addInfos (infos : List DropInfo) (h : scopes ≠ []) :
    (addInfos infos scopes).reverse.flatten = scopes.reverse.flatten ++ infos := by
  cases scopes with
  | nil => exact absurd rfl h
  | cons scope scopes => simp [addInfos]

theorem ordered_addInfos {n : Nat}
    (h : scopes.reverse.flatten.Pairwise fun i j => i.declOrder < j.declOrder)
    (hn : ∀ scope ∈ scopes, ∀ i ∈ scope, i.declOrder < n)
    (hinfos : infos.Pairwise fun i j => i.declOrder < j.declOrder)
    (hle : ∀ i ∈ infos, n ≤ i.declOrder) :
    (addInfos infos scopes).reverse.flatten.Pairwise fun i j => i.declOrder < j.declOrder := by
  by_cases hnil : scopes = []
  · subst hnil
    exact List.Pairwise.nil
  · rw [flatten_addInfos infos hnil]
    apply pairwise_append.2 ⟨h, hinfos, ?_⟩
    intro i hi j hj
    obtain ⟨scope, hscope, hi⟩ := mem_flatten.1 hi
    exact (hn scope (mem_reverse.1 hscope) i hi).trans_le (hle j hj)

theorem Paired.quiet (h : Paired V g st) (hq : Quiet st st') : Paired V g st' := by
  have hle := hq.nextVal
  obtain ⟨infos, hscopes, hsorted, hinfos⟩ := hq.dropScopes
  have hfacts : st'.facts = g := by
    rw [← h.facts]
    unfold LowerState.facts
    rw [hq.decls, hq.typesNeedingDrop, hq.escapeInfo]
  refine ⟨hfacts, hq.results h.results, ?_, ?_, ?_, ?_, ?_, ?_, ?_, ?_, ?_⟩
  · intro b v w hv
    rw [hq.marks (.inr hv)]
    exact h.fresh b v w (hle.trans hv)
  · intro scope hscope i hi
    -- what was registered before is below the old counters
    have hold : ∀ scope ∈ st.dropScopes, ∀ i ∈ scope,
        i.slot < st'.nextVal ∧ i.declOrder < st'.declOrderCounter := by
      intro scope hscope i hi
      have hi := h.infos scope hscope i hi
      exact ⟨Nat.lt_of_lt_of_le hi.1 hle, Nat.lt_of_lt_of_le hi.2 hq.declOrder⟩
    rw [hscopes] at hscope
    rcases mem_addInfos hscope with hscope | ⟨scope₀, hmem, rfl⟩
    · exact hold scope hscope i hi
    · rcases mem_append.1 hi with hi | hi
      · exact hold scope₀ hmem i hi
      · obtain ⟨-, -, hslot, -, horder⟩ := hinfos i hi
        exact ⟨hslot, horder⟩
  · rw [hscopes]
    exact ordered_addInfos h.ordered (fun scope hs i hi => (h.infos scope hs i hi).2) hsorted
      fun i hi => (hinfos i hi).2.2.2.1
  · rw [hq.loopRegions]
    intro r hr d hd
    exact (h.deinits r hr d hd).trans_le hle
  · rw [hq.decls]
    intro d hd
    exact (h.decls d hd).trans_le hle
  · intro v hv
    exact (h.bound v hv).trans_le hle
  · intro b v w hv
    exact hq.doubled (h.doubled b v w hv)
  · rw [hscopes]
    intro scope hscope
    rcases mem_addInfos hscope with hscope | ⟨scope₀, hmem, rfl⟩
    · exact h.scopes scope hscope
    · apply (h.scopes scope₀ hmem).append
      apply Grouped.of_not
      intro i hi hv
      exact not_lt.2 (hinfos i hi).2.1 (h.bound _ hv)
  · rw [hq.loopRegions]
    exact h.regions

theorem Paired.emits (h : Paired V g st) (he : Emits V st st') : Paired V g st' := by
  have hle := he.grows.nextVal
  have hfacts : st'.facts = g := by
    rw [← h.facts]
    unfold LowerState.facts
    rw [he.grows.decls, he.grows.typesNeedingDrop, he.grows.escapeInfo]
  refine ⟨hfacts, he.grows.results h.results, ?_, ?_, ?_, ?_, ?_, ?_, ?_, ?_, ?_⟩
  · intro b v w hv
    rw [he.fresh b v w hv]
    exact h.fresh b v w (hle.trans hv)
  · rw [he.grows.dropScopes, he.grows.declOrder]
    intro scope hscope i hi
    have hi := h.infos scope hscope i hi
    exact ⟨Nat.lt_of_lt_of_le hi.1 hle, hi.2⟩
  · rw [he.grows.dropScopes]
    exact h.ordered
  · rw [he.grows.loopRegions]
    intro r hr d hd
    exact (h.deinits r hr d hd).trans_le hle
  · rw [he.grows.decls]
    intro d hd
    exact (h.decls d hd).trans_le hle
  · intro v hv
    exact (h.bound v hv).trans_le hle
  · intro b v w hv
    exact he.doubled b v w hv (h.doubled b v w hv)
  · rw [he.grows.dropScopes]
    exact h.scopes
  · rw [he.grows.loopRegions]
    exact h.regions

/-! ## Scopes -/

theorem Paired.pushScope (h : Paired V g st) :
    Paired V g { st with dropScopes := [] :: st.dropScopes } where
  facts := h.facts
  results := h.results
  fresh := h.fresh
  infos scope hscope i hi := by
    rcases mem_cons.1 hscope with rfl | hscope
    · cases hi
    · exact h.infos scope hscope i hi
  ordered := by
    have hnil : ([] :: st.dropScopes).reverse.flatten = st.dropScopes.reverse.flatten := by simp
    rw [hnil]
    exact h.ordered
  deinits := h.deinits
  decls := h.decls
  bound := h.bound
  doubled := h.doubled
  scopes scope hscope := by
    rcases mem_cons.1 hscope with rfl | hscope
    · exact .nil
    · exact h.scopes scope hscope
  regions := h.regions

theorem Paired.popScope (h : Paired V g st) (heq : st.dropScopes = scope :: scopes) :
    Paired V g { st with dropScopes := scopes } where
  facts := h.facts
  results := h.results
  fresh := h.fresh
  infos s hs := h.infos s (by rw [heq]; exact mem_cons_of_mem scope hs)
  ordered := by
    have hsplit : st.dropScopes.reverse.flatten = scopes.reverse.flatten ++ scope := by
      rw [heq]
      simp
    have hordered := h.ordered
    rw [hsplit] at hordered
    exact (pairwise_append.1 hordered).1
  deinits := h.deinits
  decls := h.decls
  bound := h.bound
  doubled := h.doubled
  scopes s hs := h.scopes s (by rw [heq]; exact mem_cons_of_mem scope hs)
  regions := h.regions

theorem ordered_take (h : Paired V g st) (k : ℕ) :
    ((st.dropScopes.take k).reverse.flatten).Pairwise fun i j => i.declOrder < j.declOrder := by
  refine List.Pairwise.sublist ?_ h.ordered
  apply Sublist.flatten
  exact reverse_sublist.2 (take_sublist k _)

/-- **The emission of the innermost scopes.** -/
theorem emits_scopes (h : Paired V g st) {k : ℕ} {st₁ : LowerState E} (hres : Results st₁)
    (hval : st₁.nextVal = st.nextVal) :
    Gives ((byDeclOrder (st.dropScopes.take k).flatten).forM emitDropFor) st₁
      fun _ => Emits V st₁ := by
  have hperm : (st.dropScopes.take k).flatten.Perm (st.dropScopes.take k).reverse.flatten :=
    (reverse_perm _).symm.flatten
  rw [byDeclOrder_reverse (ordered_take h k) hperm]
  apply forM_emits
  · apply Grouped.reverse
    apply Grouped.flatten
    intro scope hscope
    exact h.scopes scope (mem_of_mem_take (mem_reverse.1 hscope))
  · exact hres
  · intro i hi
    obtain ⟨scope, hscope, hi⟩ := mem_flatten.1 (mem_reverse.1 hi)
    rw [hval]
    exact (h.infos scope (mem_of_mem_take (mem_reverse.1 hscope)) i hi).1
  · intro v hv
    rw [hval]
    exact h.bound v hv

theorem emitDropsToDepth_paired (depth : ℕ) : Keeps (Paired V g) (emitDropsToDepth (E := E) depth) := by
  apply Keeps.get_bind
  intro st h
  exact (emits_scopes h h.results rfl).imp fun _ _ he => h.emits he

theorem popDropScope_paired : Keeps (Paired V g) (popDropScope (E := E)) := by
  apply Keeps.get_bind
  intro st h
  split
  · exact Gives.pure h
  · rename_i scope scopes heq
    apply Gives.bind
    apply Gives.set
    have hpop := h.popScope heq
    have htake : (st.dropScopes.take 1).flatten = scope := by
      rw [heq]
      simp
    have hresults : Results { st with dropScopes := scopes } := h.results
    have hemits := emits_scopes (k := 1) h hresults rfl
    rw [htake] at hemits
    exact hemits.imp fun _ _ he => hpop.emits he

/-! ## Regions -/

theorem marks_deinits (src : Sources) (n : Nat) (id : UInt32) (ds : List (Ir.Value × String))
    (hv : v ≠ n) : ∃ k, marks v w (events src [⟨n, .regionExit id ds⟩]) = replicate k false ∧
      ((∀ ty, Even (ds.count (v, ty))) → Even k) ∧ ((∀ d ∈ ds, d.1 ≠ v) → k = 0) := by
  have hevents : events src [⟨n, .regionExit id ds⟩] =
      .define n :: ds.map fun d => .drop d.1 (.whole d.2) := by
    simp [events, dropped]
  have hdef : mark v w (.define n) = none := if_neg hv.symm
  rw [hevents, marks, filterMap_cons_none hdef]
  cases w with
  | field fieldName ty =>
    refine ⟨0, ?_, fun _ => Even.zero, fun _ => rfl⟩
    apply filterMap_eq_nil_iff.2
    intro e he
    obtain ⟨d, -, rfl⟩ := mem_map.1 he
    exact if_neg fun h => by cases h.2
  | whole ty =>
    refine ⟨ds.count (v, ty), ?_, fun h => h ty, ?_⟩
    · induction ds with
      | nil => rfl
      | cons d ds ih =>
        have ih := ih (by simp [events, dropped])
        rw [map_cons]
        by_cases hd : d = (v, ty)
        · have hmark : mark v (.whole ty) (.drop d.1 (.whole d.2)) = some false := by
            rw [hd]
            exact if_pos ⟨rfl, rfl⟩
          rw [filterMap_cons_some hmark, ih, hd, count_cons_self, replicate_succ]
        · have hmark : mark v (.whole ty) (.drop d.1 (.whole d.2)) = none := by
            apply if_neg
            rintro ⟨h₁, h₂⟩
            cases h₂
            exact hd (by rw [← h₁])
          rw [filterMap_cons_none hmark, ih, count_cons_of_ne hd]
    · intro h
      exact count_eq_zero.2 fun hmem => h _ hmem rfl

/-- **The exit of a region** whose list holds its locals in pairs. -/
theorem emits_regionExit {id : UInt32} {ds : List (Ir.Value × String)}
    (hslots : ∀ d ∈ ds, d.1 < st.nextVal) (hbound : ∀ v, V v → v < st.nextVal)
    (heven : ∀ v, V v → ∀ ty, Even (ds.count (v, ty))) :
    Emits V st (st.push (.regionExit id ds)) where
  grows := Grows.push _
  fresh b v w hv := by
    have hlt : st.nextVal < v := hv
    rw [marks_of_insts (insts_push _ b)]
    split
    · obtain ⟨k, hk, -, hzero⟩ := marks_deinits (w := w) (st.sources b) st.nextVal id ds hlt.ne.symm
      have hnone : ∀ d ∈ ds, d.1 ≠ v := fun d hd => ((hslots d hd).trans hlt).ne
      rw [hk, hzero hnone]
      exact append_nil _
    · exact append_nil _
  doubled b v w hv hd := by
    rw [marks_of_insts (insts_push _ b)]
    split
    · obtain ⟨k, hk, hpair, -⟩ := marks_deinits (w := w) (st.sources b) st.nextVal id ds
        (hbound v hv).ne
      obtain ⟨n, rfl⟩ := hpair (heven v hv)
      rw [hk]
      exact hd.append (Doubled.replicate n)
    · rw [show marks v w (events (st.sources b) []) = [] from rfl, append_nil]
      exact hd

theorem Paired.ofRegions {regions : List (Nat × List (Ir.Value × String))} (h : Paired V g st)
    (hsub : ∀ r ∈ regions, r.2 = [] ∨ r ∈ st.loopRegions) :
    Paired V g { st with loopRegions := regions } where
  facts := h.facts
  results := h.results
  fresh := h.fresh
  infos := h.infos
  ordered := h.ordered
  deinits r hr d hd := by
    rcases hsub r hr with hnil | hmem
    · rw [hnil] at hd
      cases hd
    · exact h.deinits r hmem d hd
  decls := h.decls
  bound := h.bound
  doubled := h.doubled
  scopes := h.scopes
  regions r hr v hv ty := by
    rcases hsub r hr with hnil | hmem
    · rw [hnil]
      exact Even.zero
    · exact h.regions r hmem v hv ty

theorem exitLoopRegion_paired (expected : Nat) :
    Keeps (Paired V g) (exitLoopRegion (E := E) expected) := by
  apply Keeps.get_bind
  intro st h
  split
  · exact Gives.pure h
  · rename_i id deinit regions heq
    have hmem : (id, deinit) ∈ st.loopRegions := by
      rw [heq]
      exact mem_cons_self
    split
    · apply Gives.bind
      apply Gives.set
      have hleft : Paired V g { st with loopRegions := regions } := by
        apply h.ofRegions
        intro r hr
        rw [heq]
        exact .inr (mem_cons_of_mem _ hr)
      intro a st' hr
      cases hr
      exact hleft.emits (emits_regionExit (h.deinits _ hmem) h.bound (h.regions _ hmem))
    · apply Gives.set
      apply h.ofRegions
      intro r hr
      rcases mem_cons.1 hr with rfl | hr
      · exact .inl rfl
      · rw [heq]
        exact .inr (mem_cons_of_mem _ hr)

theorem exitAllLoopRegions_paired : Keeps (Paired V g) (exitAllLoopRegions (E := E)) := by
  apply Keeps.get_bind
  intro st h
  apply Gives.bind
  apply Gives.set
  have hleft : Paired V g { st with loopRegions := [] } := h.ofRegions fun r hr => by cases hr
  -- the values of the regions stay below the next number while the exits are emitted
  have hexits : ∀ regions : List (Nat × List (Ir.Value × String)),
      (∀ r ∈ regions, r ∈ st.loopRegions) →
      ∀ s : LowerState E, Paired V g s → st.nextVal ≤ s.nextVal →
        Gives (regions.forM fun r => do let _ ← emit (.regionExit (UInt32.ofNat r.1) r.2)) s
          fun _ s' => Paired V g s' := by
    intro regions
    induction regions with
    | nil =>
      intro _ s hs _
      exact Gives.pure hs
    | cons r regions ih =>
      intro hsub s hs hle a s' hr
      obtain ⟨⟨⟩, s₁, hexit, hrest⟩ := bind_inv hr
      cases hexit
      have hmem := hsub r mem_cons_self
      have hemits : Emits V s (s.push (.regionExit (UInt32.ofNat r.1) r.2)) :=
        emits_regionExit (fun d hd => (h.deinits r hmem d hd).trans_le hle) hs.bound
          (h.regions r hmem)
      exact ih (fun r' hr' => hsub r' (mem_cons_of_mem r hr')) _ (hs.emits hemits)
        (hle.trans (Nat.le_succ _)) _ _ hrest
  exact hexits st.loopRegions (fun _ hr => hr) _ hleft le_rfl

theorem enterLoopRegion_paired : Keeps (Paired V g) (enterLoopRegion (E := E)) := by
  apply Keeps.get_bind
  intro st h
  apply Gives.bind
  apply Gives.set
  apply Gives.bind
  have henter : Paired V g { st with
      nextRegionId := st.nextRegionId + 1
      loopRegions := (st.nextRegionId, []) :: st.loopRegions } := by
    constructor
    · exact h.facts
    · exact h.results
    · exact h.fresh
    · exact h.infos
    · exact h.ordered
    · intro r hr d hd
      rcases mem_cons.1 hr with rfl | hr
      · cases hd
      · exact h.deinits r hr d hd
    · exact h.decls
    · exact h.bound
    · exact h.doubled
    · exact h.scopes
    · intro r hr v hv ty
      rcases mem_cons.1 hr with rfl | hr
      · exact Even.zero
      · exact h.regions r hr v hv ty
  intro a st' hr
  cases hr
  exact Gives.pure (henter.quiet (quiet_push rfl))

end Arth.Lower
