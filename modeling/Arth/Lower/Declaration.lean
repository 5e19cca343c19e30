import Arth.Lower.Paired

/-!
# A declaration registers its local in a pair

* `register_paired`: the registration of one value leaves the pairs of the others alone.
* `registers_pair`: before and after the initialiser a declaration registers the same value,
  with nothing but values of foreign code in between.
* `Inv`: every local that has to be dropped is in pairs. `lowerVarDecl_keeps`: a declaration
  preserves that, its own local included.
-/

namespace Arth.Lower

open Builder List
open Ir (Block InstKind Inst Terminator BlockData)

variable {E : Type} {st st' st₁ : LowerState E} {V : Ir.Value → Prop} {g : Facts}

/-! ## Registration -/

/-- The list of a region gets one more value. -/
def addDeinit (id : Nat) (d : Ir.Value × String) (regions : List (Nat × List (Ir.Value × String))) :
    List (Nat × List (Ir.Value × String)) :=
  match regions.findIdx? (·.1 == id) with
  | some i => regions.modify i fun r => (r.1, r.2 ++ [d])
  | none => regions

theorem mem_modify {A : Type} {l : List A} {i : ℕ} {f : A → A} {a : A} (h : a ∈ l.modify i f) :
    a ∈ l ∨ ∃ a₀ ∈ l, a = f a₀ := by
  induction l generalizing i with
  | nil =>
    rw [modify_nil] at h
    cases h
  | cons a' l ih =>
    cases i with
    | zero =>
      rcases mem_cons.1 h with rfl | h
      · exact .inr ⟨a', mem_cons_self, rfl⟩
      · exact .inl (mem_cons_of_mem _ h)
    | succ i =>
      rcases mem_cons.1 h with rfl | h
      · exact .inl mem_cons_self
      · rcases ih h with h | ⟨a₀, hmem, rfl⟩
        · exact .inl (mem_cons_of_mem _ h)
        · exact .inr ⟨a₀, mem_cons_of_mem _ hmem, rfl⟩

variable {id : Nat} {d : Ir.Value × String} {regions : List (Nat × List (Ir.Value × String))}
  {r : Nat × List (Ir.Value × String)}

theorem mem_addDeinit (h : r ∈ addDeinit id d regions) :
    r ∈ regions ∨ ∃ r₀ ∈ regions, r = (r₀.1, r₀.2 ++ [d]) := by
  unfold addDeinit at h
  split at h
  · exact mem_modify h
  · exact .inl h

theorem mem_addDeinit_twice (h : r ∈ addDeinit id d (addDeinit id d regions)) :
    r ∈ regions ∨ ∃ r₀ ∈ regions, r = (r₀.1, r₀.2 ++ [d, d]) := by
  have htwice : ∀ regions : List (Nat × List (Ir.Value × String)),
      addDeinit id d (addDeinit id d regions) = match regions.findIdx? (·.1 == id) with
        | some i => regions.modify i fun r => (r.1, r.2 ++ [d, d])
        | none => regions := by
    intro regions
    unfold addDeinit
    cases hi : regions.findIdx? (·.1 == id) with
    | none => simp only [hi]
    | some i =>
      have hsame : (regions.modify i fun r => (r.1, r.2 ++ [d])).findIdx? (·.1 == id) = some i := by
        rw [findIdx?_eq_some_iff_getElem] at hi ⊢
        obtain ⟨hlt, hid, hbefore⟩ := hi
        refine ⟨by rw [length_modify]; exact hlt, ?_, ?_⟩
        · rw [getElem_modify_eq]
          exact hid
        · intro j hj
          rw [getElem_modify, if_neg hj.ne']
          exact hbefore j hj
      simp only [hsame]
      rw [modify_modify_eq]
      congr 1
      funext r
      simp
  rw [htwice] at h
  split at h
  · exact mem_modify h
  · exact .inl h

/-- What a registration stores about a local. -/
def dropInfo (st : LowerState E) (name : String) (slot : Ir.Value) (tyName : String)
    (s : AllocStrategy) (flag : Option Ir.Value) : DropInfo where
  name := name
  slot := slot
  tyName := tyName
  declOrder := st.declOrderCounter
  allocStrategy := s
  moveState := getMoveStateFor st name
  dropFlagSlot := flag
  fieldDropInfo := getFieldDropInfoFor st name
  hasExplicitDeinit := hasExplicitDeinitFor st name

/-- The next number for a registration. -/
def LowerState.count (st : LowerState E) : LowerState E :=
  { st with declOrderCounter := st.declOrderCounter + 1 }

/-- The slot of a drop flag, which starts unset. -/
def LowerState.flag (st : LowerState E) : LowerState E :=
  ((st.push .alloca).push (.constI64 0)).push (.store st.nextVal (st.nextVal + 1))

variable {name : String} {slot : Ir.Value} {tyName : String} {s : AllocStrategy}

theorem register_region (r : Nat) : registerDropWithStrategy name slot tyName (.region r) st =
      some ((), { st with loopRegions := addDeinit r (slot, tyName) st.loopRegions }) := rfl

theorem register_flagged (hs : ∀ r, s ≠ .region r)
    (hm : getMoveStateFor st name = .conditionallyMoved) :
    registerDropWithStrategy name slot tyName s st = some ((), { st.count.flag with
        dropScopes := addInfos [dropInfo st name slot tyName s (some st.nextVal)]
          st.dropScopes }) := by
  have heq : registerDropWithStrategy name slot tyName s st =
      addDropInfo (dropInfo st name slot tyName s (some st.nextVal)) st.count.flag := by
    unfold registerDropWithStrategy dropInfo
    cases s with
    | region r => exact absurd rfl (hs r)
    | _ =>
      simp only
      rw [run_get_bind, run_set_bind, hm]
      rfl
  rw [heq, addDropInfo_eq]
  rfl

theorem register_plain (hs : ∀ r, s ≠ .region r)
    (hm : getMoveStateFor st name ≠ .conditionallyMoved) :
    registerDropWithStrategy name slot tyName s st = some ((), { st.count with
        dropScopes := addInfos [dropInfo st name slot tyName s none] st.dropScopes }) := by
  have heq : registerDropWithStrategy name slot tyName s st =
      addDropInfo (dropInfo st name slot tyName s none) st.count := by
    unfold registerDropWithStrategy dropInfo
    cases s with
    | region r => exact absurd rfl (hs r)
    | _ =>
      simp only
      rw [run_get_bind, run_set_bind]
      cases hms : getMoveStateFor st name with
      | conditionallyMoved => exact absurd hms hm
      | _ => rfl
  rw [heq, addDropInfo_eq]
  rfl

theorem Paired.addInfo (h : Paired V g st) {info : DropInfo} (hnot : ¬ V info.slot)
    (hslot : info.slot < st.nextVal) (horder : info.declOrder < st.declOrderCounter)
    (hlast : ∀ scope ∈ st.dropScopes, ∀ i ∈ scope, i.declOrder < info.declOrder) :
    Paired V g { st with dropScopes := addInfos [info] st.dropScopes } where
  facts := h.facts
  results := h.results
  fresh := h.fresh
  infos scope hscope i hi := by
    rcases mem_addInfos hscope with hscope | ⟨scope₀, hmem, rfl⟩
    · exact h.infos scope hscope i hi
    · rcases mem_append.1 hi with hi | hi
      · exact h.infos scope₀ hmem i hi
      · rw [mem_singleton.1 hi]
        exact ⟨hslot, horder⟩
  ordered := by
    apply ordered_addInfos h.ordered hlast (pairwise_singleton _ _)
    intro i hi
    rw [mem_singleton.1 hi]
  deinits := h.deinits
  decls := h.decls
  bound := h.bound
  doubled := h.doubled
  scopes scope hscope := by
    rcases mem_addInfos hscope with hscope | ⟨scope₀, hmem, rfl⟩
    · exact h.scopes scope hscope
    · exact (h.scopes scope₀ hmem).append (.other hnot .nil)
  regions := h.regions

theorem Paired.addDeinit (h : Paired V g st) (hnot : ¬ V d.1) (hslot : d.1 < st.nextVal) :
    Paired V g { st with loopRegions := addDeinit id d st.loopRegions } where
  facts := h.facts
  results := h.results
  fresh := h.fresh
  infos := h.infos
  ordered := h.ordered
  deinits r hr d' hd := by
    rcases mem_addDeinit hr with hr | ⟨r₀, hmem, rfl⟩
    · exact h.deinits r hr d' hd
    · rcases mem_append.1 hd with hd | hd
      · exact h.deinits r₀ hmem d' hd
      · rw [mem_singleton.1 hd]
        exact hslot
  decls := h.decls
  bound := h.bound
  doubled := h.doubled
  scopes := h.scopes
  regions r hr v hv ty := by
    rcases mem_addDeinit hr with hr | ⟨r₀, hmem, rfl⟩
    · exact h.regions r hr v hv ty
    · have hne : d ≠ (v, ty) := fun heq => hnot (heq ▸ hv)
      rw [count_append, count_singleton, beq_false_of_ne hne]
      exact h.regions r₀ hmem v hv ty

theorem quiet_count : Quiet st st.count where
  nextVal := Nat.le_refl _
  declOrder := Nat.le_succ _
  insts b := ⟨[], by rw [append_nil]; rfl, by simp⟩
  dropScopes := ⟨[], by rw [addInfos_nil]; rfl, by simp, by simp⟩
  loopRegions := rfl
  typesNeedingDrop := rfl
  escapeInfo := rfl
  decls := rfl

theorem quiet_flag : Quiet st st.flag :=
  ((quiet_push rfl).trans (quiet_push rfl)).trans (quiet_push rfl)

/-- What a registration of any local leaves as it was. -/
structure Registers (V : Ir.Value → Prop) (g : Facts) (st st' : LowerState E) : Prop where
  paired : Paired V g st'
  nextVal : st.nextVal ≤ st'.nextVal
  doubled : ∀ b v w, Doubled (st.marks b v w) → Doubled (st'.marks b v w)

theorem Registers.refl (h : Paired V g st) : Registers V g st st :=
  ⟨h, le_rfl, fun _ _ _ hd => hd⟩

theorem register_paired (h : Paired V g st) (hnot : ¬ V slot) (hslot : slot < st.nextVal) :
    Gives (registerDropWithStrategy name slot tyName s) st fun _ => Registers V g st := by
  have hlast : ∀ scope ∈ st.dropScopes, ∀ i ∈ scope, i.declOrder < st.declOrderCounter :=
    fun scope hscope i hi => (h.infos scope hscope i hi).2
  by_cases hregion : ∃ r, s = .region r
  · obtain ⟨r, rfl⟩ := hregion
    intro a st' hr
    cases hr
    exact ⟨h.addDeinit hnot hslot, le_rfl, fun _ _ _ hd => hd⟩
  · have hs : ∀ r, s ≠ .region r := fun r hr => hregion ⟨r, hr⟩
    intro a st' hr
    by_cases hm : getMoveStateFor st name = .conditionallyMoved
    · rw [register_flagged hs hm] at hr
      cases hr
      have hflag : Paired V g st.count.flag := (h.quiet quiet_count).quiet quiet_flag
      have hquiet : Quiet st.count st.count.flag := quiet_flag
      exact ⟨hflag.addInfo hnot (hslot.trans_le hquiet.nextVal) (Nat.lt_succ_self _)
        hlast, hquiet.nextVal, fun _ _ _ hd => hquiet.doubled hd⟩
    · rw [register_plain hs hm] at hr
      cases hr
      exact ⟨(h.quiet quiet_count).addInfo hnot hslot (Nat.lt_succ_self _) hlast, le_rfl,
        fun _ _ _ hd => hd⟩

theorem registerBeforeInit_paired (h : Paired V g st) (ty : HirType) (hnot : ¬ V slot)
    (hslot : slot < st.nextVal) : Gives (registerBeforeInit name ty slot) st
      fun _ => Registers V g st := by
  apply Gives.get_bind
  split
  · exact register_paired h hnot hslot
  · exact Gives.pure (.refl h)

theorem registerAfterInit_paired (h : Paired V g st) (ty : HirType) (hnot : ¬ V slot)
    (hslot : slot < st.nextVal) : Gives (registerAfterInit name ty slot) st
      fun _ => Registers V g st := by
  apply Gives.get_bind
  split
  · split
    · exact register_paired h hnot hslot
    · exact Gives.pure (.refl h)
  · exact Gives.pure (.refl h)

/-! ## A declaration registers a pair -/

theorem needsDropTy_facts (h : st'.facts = st.facts) (ty : HirType) :
    needsDropTy st' ty = needsDropTy st ty := by
  have htypes : st'.typesNeedingDrop = st.typesNeedingDrop := congrArg Facts.typesNeedingDrop h
  unfold needsDropTy
  rw [htypes]

theorem localInfo_facts (h : st'.facts = st.facts) (name : String) :
    localInfo st' name = localInfo st name := by
  have hinfo : st'.escapeInfo = st.escapeInfo := congrArg Facts.escapeInfo h
  unfold localInfo
  rw [hinfo]

theorem localParts_facts (htypes : st'.typesNeedingDrop = st.typesNeedingDrop)
    (hinfo : st'.escapeInfo = st.escapeInfo) (name : String) (ty : HirType) :
    localParts st' name ty = localParts st name ty := by
  unfold localParts shouldDropVar getMoveStateFor getAllocStrategyFor hasExplicitDeinitFor
    getFieldDropInfoFor needsDropTy localInfo
  rw [htypes, hinfo]

theorem dropParts_facts (h : st'.facts = st.facts) (v : Ir.Value) :
    dropParts st' v = dropParts st v := by
  have hdecls : st'.decls = st.decls := congrArg Facts.decls h
  unfold dropParts
  rw [hdecls]
  congr 1
  funext d
  exact localParts_facts (congrArg Facts.typesNeedingDrop h) (congrArg Facts.escapeInfo h) _ _

theorem localParts_ne_nil {ty : HirType} (h : localParts st name ty ≠ []) :
    ∃ tyName, needsDropTy st ty = some tyName ∧ shouldDropVar st name = true ∧
      getMoveStateFor st name = .available := by
  unfold localParts at h
  split at h
  · exact absurd rfl h
  · rename_i tyName heq
    split at h
    · rename_i hc
      exact ⟨tyName, heq, hc.1, hc.2⟩
    · exact absurd rfl h

theorem straight_dropInfo (hs : ∀ r, s ≠ .region r) (hm : getMoveStateFor st name = .available)
    (flag : Option Ir.Value) : Straight (dropInfo st name slot tyName s flag) := ⟨hm, hs⟩

theorem items_dropInfo (h : st'.facts = st.facts) (flag flag' : Option Ir.Value) :
    (dropInfo st' name slot tyName s flag').items = (dropInfo st name slot tyName s flag).items := by
  unfold DropInfo.items fieldsToDrop dropInfo getFieldDropInfoFor hasExplicitDeinitFor
  simp only [localInfo_facts h]

variable {st₂ st₃ st₄ st₅ : LowerState E} {ty : HirType}

/-- **A pair.** Before and after the initialiser the same local is registered, and in between
nothing but what foreign code hands over. -/
theorem registers_pair (hparts : localParts st₂ name ty ≠ []) (h : Paired V g st₂)
    (hslot : slot < st₂.nextVal) (hnew : ∀ scope ∈ st₂.dropScopes, ∀ i ∈ scope, i.slot ≠ slot)
    (hnewr : ∀ r ∈ st₂.loopRegions, ∀ d ∈ r.2, d.1 ≠ slot)
    (hbefore : registerBeforeInit name ty slot st₂ = some ((), st₃)) (hquiet : Quiet st₃ st₄)
    (hafter : registerAfterInit name ty slot st₄ = some ((), st₅)) :
    (∀ scope ∈ st₅.dropScopes, Grouped (fun v => V v ∨ v = slot) scope) ∧
      ∀ r ∈ st₅.loopRegions, ∀ ty', Even (r.2.count (slot, ty')) := by
  obtain ⟨tyName, hty, hshould, hmove⟩ := localParts_ne_nil hparts
  have hfacts₄ : st₄.facts = st₃.facts := by
    unfold LowerState.facts
    rw [hquiet.decls, hquiet.typesNeedingDrop, hquiet.escapeInfo]
  have hbefore' : registerDropWithStrategy name slot tyName (getAllocStrategyFor st₂ name) st₂ =
      some ((), st₃) := by
    unfold registerBeforeInit at hbefore
    rwa [run_get_bind, hty] at hbefore
  -- the escape analysis says the same of the local both times
  have hafter' : st₃.facts = st₂.facts →
      registerDropWithStrategy name slot tyName (getAllocStrategyFor st₂ name) st₄ =
        some ((), st₅) := by
    intro hfacts
    have hsame : st₄.facts = st₂.facts := hfacts₄.trans hfacts
    have hshould₄ : shouldDropVar st₄ name = true := by
      rw [← hshould]
      unfold shouldDropVar
      rw [localInfo_facts hsame]
    have hstrategy : getAllocStrategyFor st₄ name = getAllocStrategyFor st₂ name := by
      unfold getAllocStrategyFor
      rw [localInfo_facts hsame]
    unfold registerAfterInit at hafter
    rw [run_get_bind, needsDropTy_facts hsame, hty] at hafter
    simp only [hshould₄, if_true] at hafter
    rw [← hstrategy]
    exact hafter
  have hold : ∀ scope ∈ st₂.dropScopes, Grouped (fun v => V v ∨ v = slot) scope := by
    intro scope hscope
    apply (h.scopes scope hscope).mono
    intro i hi hv
    rcases hv with hv | hv
    · exact hv
    · exact absurd hv (hnew scope hscope i hi)
  have hzero : ∀ r ∈ st₂.loopRegions, ∀ ty', r.2.count (slot, ty') = 0 := by
    intro r hr ty'
    exact count_eq_zero.2 fun hmem => hnewr r hr _ hmem rfl
  obtain ⟨infos, hscopes₄, -, hinfos⟩ := hquiet.dropScopes
  have hle : st₂.nextVal ≤ st₃.nextVal → ∀ i ∈ infos, Straight i ∧ ¬ (V i.slot ∨ i.slot = slot) := by
    intro hle i hi
    obtain ⟨howned, hlo, -⟩ := hinfos i hi
    refine ⟨howned.straight, ?_⟩
    rintro (hv | hv)
    · exact not_lt.2 (hle.trans hlo) (h.bound _ hv)
    · rw [hv] at hlo
      exact not_lt.2 (hle.trans hlo) hslot
  by_cases hregion : ∃ r, getAllocStrategyFor st₂ name = .region r
  · obtain ⟨r, hr⟩ := hregion
    rw [hr, register_region] at hbefore'
    cases hbefore'
    have hafter₅ := hafter' rfl
    rw [hr, register_region] at hafter₅
    cases hafter₅
    constructor
    · intro scope hscope
      rw [hscopes₄] at hscope
      rcases mem_addInfos hscope with hscope | ⟨scope₀, hmem, rfl⟩
      · exact hold scope hscope
      · exact (hold scope₀ hmem).append (.of_not fun i hi => (hle le_rfl i hi).2)
    · intro r' hr' ty'
      rw [hquiet.loopRegions] at hr'
      rcases mem_addDeinit_twice hr' with hr' | ⟨r₀, hmem, rfl⟩
      · rw [hzero r' hr' ty']
        exact Even.zero
      · rw [count_append, hzero r₀ hmem ty', zero_add]
        by_cases hsame : (slot, tyName) = (slot, ty')
        · rw [hsame, count_cons_self, count_cons_self]
          exact ⟨1, rfl⟩
        · rw [count_cons_of_ne hsame, count_cons_of_ne hsame]
          exact Even.zero
  · have hs : ∀ r, getAllocStrategyFor st₂ name ≠ .region r := fun r hr => hregion ⟨r, hr⟩
    have hm : getMoveStateFor st₂ name ≠ .conditionallyMoved := by
      rw [hmove]
      intro hc
      cases hc
    rw [register_plain hs hm] at hbefore'
    cases hbefore'
    have hfacts : st₄.facts = st₂.facts := hfacts₄
    have hmove₄ : getMoveStateFor st₄ name = .available := by
      rw [← hmove]
      unfold getMoveStateFor
      rw [localInfo_facts hfacts]
    have hm₄ : getMoveStateFor st₄ name ≠ .conditionallyMoved := by
      rw [hmove₄]
      intro hc
      cases hc
    have hafter₅ := hafter' rfl
    rw [register_plain hs hm₄] at hafter₅
    cases hafter₅
    constructor
    · intro scope hscope
      rw [hscopes₄, addInfos_addInfos] at hscope
      rw [addInfos_addInfos] at hscope
      rcases mem_addInfos hscope with hscope | ⟨scope₀, hmem, rfl⟩
      · exact hold scope hscope
      · apply (hold scope₀ hmem).append
        exact .pair (straight_dropInfo hs hmove none) (straight_dropInfo hs hmove₄ none) rfl
          (items_dropInfo hfacts none none) (hle le_rfl) .nil
    · intro r' hr' ty'
      change r' ∈ st₄.loopRegions at hr'
      rw [hquiet.loopRegions] at hr'
      rw [hzero r' hr' ty']
      exact Even.zero

theorem Paired.add (h : Paired V g st) (hslot : slot < st.nextVal)
    (hdoubled : ∀ b w, Doubled (st.marks b slot w))
    (hscopes : ∀ scope ∈ st.dropScopes, Grouped (fun v => V v ∨ v = slot) scope)
    (hregions : ∀ r ∈ st.loopRegions, ∀ ty, Even (r.2.count (slot, ty))) :
    Paired (fun v => V v ∨ v = slot) g st where
  facts := h.facts
  results := h.results
  fresh := h.fresh
  infos := h.infos
  ordered := h.ordered
  deinits := h.deinits
  decls := h.decls
  bound v hv := by
    rcases hv with hv | rfl
    · exact h.bound v hv
    · exact hslot
  doubled b v w hv := by
    rcases hv with hv | rfl
    · exact h.doubled b v w hv
    · exact hdoubled b w
  scopes := hscopes
  regions r hr v hv := by
    rcases hv with hv | rfl
    · exact h.regions r hr v hv
    · exact hregions r hr

theorem Paired.mono {V' : Ir.Value → Prop} (h : Paired V g st) (hV : ∀ v, V' v → V v) :
    Paired V' g st where
  facts := h.facts
  results := h.results
  fresh := h.fresh
  infos := h.infos
  ordered := h.ordered
  deinits := h.deinits
  decls := h.decls
  bound v hv := h.bound v (hV v hv)
  doubled b v w hv := h.doubled b v w (hV v hv)
  scopes scope hscope := (h.scopes scope hscope).mono fun i _ hv => hV i.slot hv
  regions r hr v hv := h.regions r hr v (hV v hv)

/-- The invariant of the lowering: every local that has to be dropped is in pairs. -/
def Inv (st : LowerState E) : Prop := Paired (fun v => dropParts st v ≠ []) st.facts st

variable {α : Type} {m : LowerM E α}

theorem keeps_inv (h : ∀ V g, Keeps (Paired V g) m) : Keeps Inv m := by
  intro st hst a st' hr
  have hst' := h _ _ st hst a st' hr
  have hsame : st'.facts = st.facts := hst'.facts
  unfold Inv
  rw [hsame]
  apply hst'.mono
  intro v hv
  rwa [dropParts_facts hsame] at hv

theorem IsQuiet.keeps (h : IsQuiet m) : Keeps Inv m :=
  keeps_inv fun _ _ st hst a st' hr => hst.quiet (h st a st' hr)

theorem allocSlot_gives (name : String) : Gives (allocSlot name) st fun slot st' =>
      Grows st st' ∧ Quiet st st' ∧ st.nextVal ≤ slot ∧ slot < st'.nextVal := by
  apply Gives.get_bind
  split
  · intro slot st' hr
    cases hr
    exact ⟨(Grows.push _).trans (Grows.push _), (quiet_push rfl).trans (quiet_push rfl),
      Nat.le_succ _, Nat.lt_succ_self _⟩
  · intro slot st' hr
    cases hr
    exact ⟨Grows.push _, quiet_push rfl, le_rfl, Nat.lt_succ_self _⟩

variable {x : Exprs E}

theorem initLocal_quiet (hx : x.Lawful) (name : String) (slot : Ir.Value) (init : Option E)
    (isShared : Bool) : IsQuiet (initLocal x name slot init isShared) := by
  unfold initLocal
  split
  · have hshared : IsQuiet (E := E) (modify fun st =>
        { st with sharedLocals := name :: st.sharedLocals }) := by
      intro st a st' hr
      cases hr
      exact Quiet.of_eq (fun _ => rfl) rfl rfl rfl rfl rfl rfl rfl
    refine hshared.bind fun _ => ?_
    refine (emit_quiet rfl).bind fun h => ?_
    refine (emit_quiet rfl).bind fun _ => ?_
    cases init with
    | none => exact IsQuiet.pure ()
    | some e =>
      refine (hx.lowerExpr e).bind fun v => ?_
      refine (emit_quiet rfl).bind fun hcur => ?_
      exact (emit_quiet rfl).bind fun _ => IsQuiet.pure ()
  · cases init with
    | none => exact IsQuiet.pure ()
    | some e =>
      refine (hx.lowerExpr e).bind fun v => ?_
      exact (emit_quiet rfl).bind fun _ => IsQuiet.pure ()

/-- The state after a declaration. -/
def LowerState.declare (st : LowerState E) (name : String) (ty : HirType) (slot : Ir.Value) :
    LowerState E :=
  { st with
    locals := Function.update st.locals name (some slot)
    localTypes := Function.update st.localTypes name (some ty)
    decls := st.decls ++ [⟨name, slot, ty⟩] }

theorem Paired.declare (h : Paired V g st) (hslot : slot < st.nextVal) :
    Paired V (st.declare name ty slot).facts (st.declare name ty slot) where
  facts := rfl
  results := h.results
  fresh := h.fresh
  infos := h.infos
  ordered := h.ordered
  deinits := h.deinits
  decls d hd := by
    rcases mem_append.1 hd with hd | hd
    · exact h.decls d hd
    · rw [mem_singleton.1 hd]
      exact hslot
  bound := h.bound
  doubled := h.doubled
  scopes := h.scopes
  regions := h.regions

theorem dropParts_declare (hnew : ∀ d ∈ st.decls, d.slot ≠ slot) (v : Ir.Value) :
    dropParts (st.declare name ty slot) v =
      if v = slot then localParts (st.declare name ty slot) name ty else dropParts st v := by
  have hparts : ∀ d : Decl, localParts (st.declare name ty slot) d.name d.ty =
      localParts st d.name d.ty := fun d => localParts_facts rfl rfl _ _
  unfold dropParts
  change ((st.decls ++ [Decl.mk name slot ty]).find? fun d => d.slot == v).elim [] _ = _
  rw [find?_append]
  by_cases hv : v = slot
  · subst hv
    have hnone : (st.decls.find? fun d => d.slot == v) = none := by
      apply find?_eq_none.2
      intro d hd
      simp [hnew d hd]
    rw [if_pos rfl, hnone]
    simp
  · rw [if_neg hv]
    have hne : (slot == v) = false := beq_false_of_ne fun h => hv h.symm
    cases st.decls.find? fun d => d.slot == v with
    | none => simp [hne]
    | some d => exact hparts d

/-- **A declaration keeps the locals in pairs**, the new one included. -/
theorem lowerVarDecl_keeps (hx : x.Lawful) (name : String) (ty : HirType) (init : Option E)
    (isShared : Bool) : Keeps Inv (lowerVarDecl x name ty init isShared) := by
  intro st h a st₅ hr
  obtain ⟨slot, st₁, halloc, hr⟩ := bind_inv hr
  obtain ⟨⟨⟩, st₂, hdeclare, hr⟩ := bind_inv hr
  obtain ⟨⟨⟩, st₃, hbefore, hr⟩ := bind_inv hr
  obtain ⟨⟨⟩, st₄, hinit, hafter⟩ := bind_inv hr
  cases hdeclare
  obtain ⟨hgrows, hquiet, hlo, hhi⟩ := allocSlot_gives name slot st₁ halloc
  have hquiet₄ := initLocal_quiet hx name slot init isShared st₃ _ _ hinit
  have h₁ : Paired (fun v => dropParts st v ≠ []) st.facts st₁ := h.quiet hquiet
  have h₂ : Paired (fun v => dropParts st v ≠ []) (st₁.declare name ty slot).facts
      (st₁.declare name ty slot) := h₁.declare hhi
  -- the slot is new, so nothing was registered for it before
  have hnot : ¬ dropParts st slot ≠ [] := fun hv => absurd (h.bound slot hv) (not_lt.2 hlo)
  obtain ⟨h₃, hle₃, hd₃⟩ := registerBeforeInit_paired h₂ ty hnot hhi _ _ hbefore
  have h₄ := h₃.quiet hquiet₄
  have hhi₄ : slot < st₄.nextVal :=
    hhi.trans_le (hle₃.trans hquiet₄.nextVal)
  obtain ⟨h₅, hle₅, hd₅⟩ := registerAfterInit_paired h₄ ty hnot hhi₄ _ _ hafter
  have hnew : ∀ d ∈ st₁.decls, d.slot ≠ slot := by
    intro d hd
    rw [hgrows.decls] at hd
    exact ((h.decls d hd).trans_le hlo).ne
  have hparts : ∀ v, dropParts st₅ v =
      if v = slot then localParts (st₁.declare name ty slot) name ty else dropParts st v := by
    intro v
    rw [dropParts_facts h₅.facts, dropParts_declare hnew, dropParts_facts h₁.facts]
  unfold Inv
  rw [h₅.facts]
  by_cases hnil : localParts (st₁.declare name ty slot) name ty = []
  · apply h₅.mono
    intro v hv
    rw [hparts, hnil] at hv
    split at hv
    · exact absurd rfl hv
    · exact hv
  · -- the new local: no event before, only its declaration since, and a pair in its scope
    have hpair := registers_pair hnil h₂ hhi (by
        intro scope hscope i hi
        change scope ∈ st₁.dropScopes at hscope
        rw [hgrows.dropScopes] at hscope
        exact (Nat.lt_of_lt_of_le (h.infos scope hscope i hi).1 hlo).ne)
      (by
        intro r hr d hd
        change r ∈ st₁.loopRegions at hr
        rw [hgrows.loopRegions] at hr
        exact ((h.deinits r hr d hd).trans_le hlo).ne)
      hbefore hquiet₄ hafter
    have hdoubled : ∀ b w, Doubled (st₅.marks b slot w) := by
      intro b w
      have hstart : Doubled (st.marks b slot w) := by
        rw [h.fresh b slot w hlo]
        exact .nil
      exact hd₅ b slot w (hquiet₄.doubled (hd₃ b slot w (hquiet.doubled hstart)))
    apply (h₅.add (hhi₄.trans_le hle₅) hdoubled hpair.1 hpair.2).mono
    intro v hv
    rw [hparts] at hv
    split_ifs at hv with heq
    · exact .inr heq
    · exact .inl hv

end Arth.Lower
