import Arth.Lower.Events

/-!
# What the emission of drops adds to the blocks

* `emitDropFor_straight`: an available local is dropped by a load and one instruction for
  each of its parts, all in the current block.
* `Only p`: the emission for any local with slot `p` adds no event of another local.
* `Grouped V`: a drop scope in which the locals of `V` are registered in pairs. The emission
  of such a scope keeps their marks doubled (`forM_emits`).
-/

namespace Arth.Lower

open Builder List
open Ir (Block InstKind Inst Terminator BlockData)

variable {E : Type} {st st' st₁ : LowerState E} {b : Block} {v p val : Ir.Value} {w : DropItem}

/-! ## Marks of a block -/

def LowerState.sources (st : LowerState E) (b : Block) : Sources :=
  (st.insts b).foldl Sources.after fun _ => none

def LowerState.marks (st : LowerState E) (b : Block) (v : Ir.Value) (w : DropItem) : List Bool :=
  Lower.marks v w (blockEvents st.blocks b)

theorem marks_of_insts {insts : List Inst} (h : st'.insts b = st.insts b ++ insts) :
    st'.marks b v w = st.marks b v w ++ Lower.marks v w (events (st.sources b) insts) := by
  change Lower.marks v w (events _ (st'.insts b)) = _
  rw [h, events_append, marks_append]
  rfl

theorem marks_of_insts_eq (h : st'.insts b = st.insts b) : st'.marks b v w = st.marks b v w := by
  change Lower.marks v w (events _ (st'.insts b)) = _
  rw [h]
  rfl

theorem sources_of_insts_eq (h : st'.insts b = st.insts b) : st'.sources b = st.sources b := by
  unfold LowerState.sources
  rw [h]

theorem foldl_after_of_ne {insts : List Inst} (src : Sources)
    (h : ∀ i ∈ insts, i.result ≠ val) : insts.foldl Sources.after src val = src val := by
  induction insts generalizing src with
  | nil => rfl
  | cons i is ih =>
    rw [foldl_cons, ih _ fun j hj => h j (mem_cons_of_mem i hj)]
    exact Function.update_of_ne (h i mem_cons_self).symm _ _

/-- All results are below the next number. -/
def Results (st : LowerState E) : Prop := ∀ b, ∀ i ∈ st.insts b, i.result < st.nextVal

theorem Results.sources (h : Results st) (b : Block) : st.sources b st.nextVal = none :=
  foldl_after_of_ne _ fun i hi => (h b i hi).ne

/-- The blocks grow by fresh results; scopes, regions and declarations stay. -/
structure Grows (st st' : LowerState E) : Prop where
  nextVal : st.nextVal ≤ st'.nextVal
  insts : ∀ b, ∃ insts, st'.insts b = st.insts b ++ insts ∧
    ∀ i ∈ insts, st.nextVal ≤ i.result ∧ i.result < st'.nextVal
  dropScopes : st'.dropScopes = st.dropScopes
  declOrder : st'.declOrderCounter = st.declOrderCounter
  loopRegions : st'.loopRegions = st.loopRegions
  typesNeedingDrop : st'.typesNeedingDrop = st.typesNeedingDrop
  escapeInfo : st'.escapeInfo = st.escapeInfo
  decls : st'.decls = st.decls

theorem Grows.refl : Grows st st :=
  ⟨le_rfl, fun _ => ⟨[], by simp, by simp⟩, rfl, rfl, rfl, rfl, rfl, rfl⟩

theorem Grows.trans (h : Grows st st₁) (h' : Grows st₁ st') : Grows st st' where
  nextVal := h.nextVal.trans h'.nextVal
  insts b := by
    obtain ⟨insts, heq, hinsts⟩ := h.insts b
    obtain ⟨insts', heq', hinsts'⟩ := h'.insts b
    refine ⟨insts ++ insts', by rw [heq', heq, append_assoc], ?_⟩
    intro i hi
    rcases mem_append.1 hi with hi | hi
    · exact ⟨(hinsts i hi).1, Nat.lt_of_lt_of_le (hinsts i hi).2 h'.nextVal⟩
    · exact ⟨h.nextVal.trans (hinsts' i hi).1, (hinsts' i hi).2⟩
  dropScopes := h'.dropScopes.trans h.dropScopes
  declOrder := h'.declOrder.trans h.declOrder
  loopRegions := h'.loopRegions.trans h.loopRegions
  typesNeedingDrop := h'.typesNeedingDrop.trans h.typesNeedingDrop
  escapeInfo := h'.escapeInfo.trans h.escapeInfo
  decls := h'.decls.trans h.decls

theorem Grows.results (h : Grows st st') (hst : Results st) : Results st' := by
  intro b i hi
  obtain ⟨insts, heq, hinsts⟩ := h.insts b
  rw [heq] at hi
  rcases mem_append.1 hi with hi | hi
  · exact (hst b i hi).trans_le h.nextVal
  · exact (hinsts i hi).2

theorem Grows.push (kind : InstKind) : Grows st (st.push kind) where
  nextVal := Nat.le_succ _
  insts b := by
    refine ⟨_, insts_push kind b, ?_⟩
    intro i hi
    split at hi
    · rw [mem_singleton] at hi
      subst hi
      exact ⟨le_rfl, Nat.lt_succ_self _⟩
    · cases hi
  dropScopes := rfl
  declOrder := rfl
  loopRegions := rfl
  typesNeedingDrop := rfl
  escapeInfo := rfl
  decls := rfl

/-- From `st` to `st'` the blocks got no event of a local but the one with slot `p`. -/
structure Only (p : Ir.Value) (st st' : LowerState E) : Prop where
  grows : Grows st st'
  marks : ∀ b v w, v ≠ p → (v < st.nextVal ∨ st'.nextVal ≤ v) →
    st'.marks b v w = st.marks b v w

/-- `val` was loaded from `p`, wherever it was loaded. -/
def Loaded (val p : Ir.Value) (st : LowerState E) : Prop :=
  val < st.nextVal ∧ ∀ b q, st.sources b val = some q → q = p

theorem Only.refl : Only p st st := ⟨Grows.refl, fun _ _ _ _ _ => rfl⟩

theorem Only.trans (h : Only p st st₁) (h' : Only p st₁ st') : Only p st st' where
  grows := h.grows.trans h'.grows
  marks b v w hv hlt := by
    have hle := h.grows.nextVal
    have hle' := h'.grows.nextVal
    have h₁ : v < st₁.nextVal ∨ st'.nextVal ≤ v :=
      hlt.imp_left fun hlt => hlt.trans_le hle
    have h₂ : v < st.nextVal ∨ st₁.nextVal ≤ v := hlt.imp_right hle'.trans
    rw [h'.marks b v w hv h₁, h.marks b v w hv h₂]

theorem Only.of_insts (hinsts : ∀ b, st'.insts b = st.insts b) (hg : Grows st st') :
    Only p st st' :=
  ⟨hg, fun b _ _ _ _ => marks_of_insts_eq (hinsts b)⟩

theorem Only.push {kind : InstKind}
    (hdrop : ∀ d ∈ dropped (st.sources st.cur) kind, d.1 = p) : Only p st (st.push kind) where
  grows := Grows.push kind
  marks b v w hv hlt := by
    have hne : st.nextVal ≠ v := by
      rcases hlt with hlt | hlt
      · exact hlt.ne.symm
      · exact Nat.ne_of_lt hlt
    rw [marks_of_insts (insts_push kind b)]
    split_ifs with hb
    · rw [hb.1]
      have hnil : Lower.marks v w (events (st.sources st.cur) [⟨st.nextVal, kind⟩]) = [] := by
        apply marks_eq_nil
        intro e he
        simp only [events, append_nil, mem_cons, mem_map] at he
        rcases he with rfl | ⟨d, hd, rfl⟩
        · exact hne
        · exact fun h => hv (h.symm.trans (hdrop d hd))
      rw [hnil, append_nil]
    · exact append_nil _

theorem Loaded.push (h : Loaded val p st) (kind : InstKind) : Loaded val p (st.push kind) := by
  refine ⟨Nat.lt_succ_of_lt h.1, ?_⟩
  intro b q hq
  apply h.2 b q
  rw [← hq]
  unfold LowerState.sources
  rw [insts_push, foldl_append]
  symm
  apply foldl_after_of_ne
  intro i hi
  split at hi
  · rw [mem_singleton] at hi
    subst hi
    exact (Nat.ne_of_lt h.1).symm
  · cases hi

theorem Loaded.of_insts (h : Loaded val p st) (hinsts : ∀ b, st'.insts b = st.insts b)
    (hval : st'.nextVal = st.nextVal) : Loaded val p st' := by
  refine ⟨by rw [hval]; exact h.1, ?_⟩
  intro b q hq
  rw [sources_of_insts_eq (hinsts b)] at hq
  exact h.2 b q hq

theorem Results.loaded (h : Results st) (p : Ir.Value) :
    Loaded st.nextVal p (st.push (.load p)) := by
  refine ⟨Nat.lt_succ_self _, ?_⟩
  intro b q hq
  unfold LowerState.sources at hq
  rw [insts_push, foldl_append] at hq
  have hnone := h.sources b
  unfold LowerState.sources at hnone
  split at hq
  · rw [foldl_cons, foldl_nil, Sources.after, Function.update_self] at hq
    exact (Option.some.inj hq).symm
  · rw [foldl_nil, hnone] at hq
    cases hq

/-- The emission for one local: what it has added since `st₀`, and the value it drops. -/
def Dropping (st₀ : LowerState E) (val p : Ir.Value) (st : LowerState E) : Prop :=
  Only p st₀ st ∧ Loaded val p st

variable {st₀ : LowerState E}

theorem dropping_emit {kind : InstKind}
    (hdrop : ∀ src : Sources, (∀ q, src val = some q → q = p) → ∀ d ∈ dropped src kind, d.1 = p) :
    Keeps (Dropping st₀ val p) (emit kind) := by
  intro st hst a st' hr
  cases hr
  have honly : Only p st (st.push kind) := Only.push (hdrop _ fun q hq => hst.2.2 st.cur q hq)
  exact ⟨hst.1.trans honly, hst.2.push kind⟩

theorem dropping_emit_quiet {kind : InstKind} (hk : dropsNothing kind = true) :
    Keeps (Dropping st₀ val p) (emit kind) := by
  apply dropping_emit
  intro src _ d hd
  cases kind <;> first | cases hd | cases hk

theorem mem_source {src : Sources} {d : Ir.Value × DropItem} {item : DropItem}
    (hsrc : ∀ q, src val = some q → q = p)
    (h : d ∈ (src val).toList.map fun p => (p, item)) : d.1 = p := by
  obtain ⟨q, hq, rfl⟩ := mem_map.1 h
  exact hsrc q (Option.mem_toList.1 hq)

theorem dropping_of_insts {m : LowerM E α} (h : ∀ st a st', m st = some (a, st') →
      (∀ b, st'.insts b = st.insts b) ∧ st'.nextVal = st.nextVal ∧ Grows st st') :
    Keeps (Dropping st₀ val p) m := by
  intro st hst a st' hr
  obtain ⟨hinsts, hval, hgrows⟩ := h st a st' hr
  exact ⟨hst.1.trans (Only.of_insts hinsts hgrows), hst.2.of_insts hinsts hval⟩

theorem grows_of_insts (hinsts : ∀ b, st'.insts b = st.insts b) (hval : st'.nextVal = st.nextVal)
    (hscopes : st'.dropScopes = st.dropScopes) (horder : st'.declOrderCounter = st.declOrderCounter)
    (hregions : st'.loopRegions = st.loopRegions)
    (htypes : st'.typesNeedingDrop = st.typesNeedingDrop)
    (hinfo : st'.escapeInfo = st.escapeInfo) (hdecls : st'.decls = st.decls) : Grows st st' :=
  ⟨hval.ge, fun b => ⟨[], by rw [hinsts, append_nil], by simp⟩, hscopes, horder, hregions,
    htypes, hinfo, hdecls⟩

theorem dropping_newBlock (base : String) : Keeps (Dropping st₀ val p) (newBlock base) := by
  apply dropping_of_insts
  intro st a st' hr
  cases hr
  have hinsts := blockInsts_append_new st.blocks (base ++ "_" ++ toString st.blocks.length)
    (.ret none)
  exact ⟨hinsts, rfl, grows_of_insts hinsts rfl rfl rfl rfl rfl rfl rfl⟩

theorem dropping_setCur (b : Block) : Keeps (Dropping st₀ val p) (setCur b) := by
  apply dropping_of_insts
  intro st a st' hr
  cases hr
  exact ⟨fun _ => rfl, rfl, grows_of_insts (fun _ => rfl) rfl rfl rfl rfl rfl rfl rfl⟩

theorem dropping_setTerm (t : Terminator) : Keeps (Dropping st₀ val p) (setTerm t) := by
  apply dropping_of_insts
  intro st a st' hr
  cases hr
  have hinsts := fun b => blockInsts_modify_term st.blocks st.cur b t
  exact ⟨hinsts, rfl, grows_of_insts hinsts rfl rfl rfl rfl rfl rfl rfl⟩

theorem dropping_emitFieldDrop (field : String × FieldDropInfo) :
    Keeps (Dropping st₀ val p) (emitFieldDrop val field) := by
  unfold emitFieldDrop
  cases field.2.dropTyName with
  | none => exact Keeps.pure
  | some tyName =>
    apply Keeps.bind _ fun _ => Keeps.pure
    apply dropping_emit
    intro src hsrc d hd
    exact mem_source hsrc hd

theorem dropping_emitCondFieldDrop (flag : Ir.Value) (field : String × FieldDropInfo) :
    Keeps (Dropping st₀ val p) (emitCondFieldDrop val flag field) := by
  unfold emitCondFieldDrop
  cases field.2.dropTyName with
  | none => exact Keeps.pure
  | some tyName =>
    apply Keeps.get_bind
    intro st hst
    have hdrop : Keeps (Dropping st₀ val p) (emit (E := E) (.fieldDrop val field.1 tyName)) := by
      apply dropping_emit
      intro src hsrc d hd
      exact mem_source hsrc hd
    refine Keeps.bind (dropping_newBlock _) (fun skip => ?_) st hst
    refine Keeps.bind (dropping_newBlock _) fun drop => ?_
    refine Keeps.bind (dropping_newBlock _) fun cont => ?_
    refine Keeps.bind (dropping_setTerm _) fun _ => ?_
    refine Keeps.bind (dropping_setCur _) fun _ => ?_
    refine Keeps.bind (dropping_setTerm _) fun _ => ?_
    refine Keeps.bind (dropping_setCur _) fun _ => ?_
    refine Keeps.bind hdrop fun _ => ?_
    refine Keeps.bind (dropping_setTerm _) fun _ => ?_
    exact dropping_setCur _

/-- **The emission for one local adds no event of another one.** -/
theorem emitDropFor_only (info : DropInfo) (hst : Results st) :
    Gives (emitDropFor info) st fun _ st' => Only info.slot st st' := by
  have hload : ∀ s, Results s → Only info.slot st s →
      Dropping st s.nextVal info.slot (s.push (.load info.slot)) := by
    intro s hs honly
    exact ⟨honly.trans (Only.push (by intro d hd; cases hd)), hs.loaded info.slot⟩
  unfold emitDropFor
  split
  · exact Gives.pure Only.refl
  · rename_i moved _
    split
    · exact Gives.pure Only.refl
    · -- every field is loaded and dropped on its own
      have hfields : Keeps (fun s => Only info.slot st s ∧ Results s)
          ((unmovedFields info moved).forM fun field => do
            let val ← emit (E := E) (.load info.slot)
            emitFieldDrop val field) := by
        apply Keeps.forM
        intro field _ s hs a s' hr
        obtain ⟨val, s₁, hemit, hfield⟩ := bind_inv hr
        cases hemit
        have hdrop := dropping_emitFieldDrop field _ (hload s hs.2 hs.1) a s' hfield
        exact ⟨hdrop.1, hdrop.1.grows.results hst⟩
      exact (hfields st ⟨Only.refl, hst⟩).imp fun _ _ h => h.1
  · -- the local is loaded once
    intro a st' hr
    obtain ⟨val, s₁, hemit, hrest⟩ := bind_inv hr
    cases hemit
    have hdropping := hload st hst Only.refl
    suffices hkeeps : Keeps (Dropping st st.nextVal info.slot) _ from
      (hkeeps _ hdropping a st' hrest).1
    split
    · apply Keeps.bind (dropping_emit_quiet rfl)
      intro flag
      split
      · apply Keeps.bind _ fun _ => Keeps.pure
        apply dropping_emit
        intro src hsrc d hd
        exact mem_source hsrc hd
      · exact Keeps.forM _ fun field _ => dropping_emitCondFieldDrop flag field
    · split
      · exact Keeps.pure
      · split
        · apply Keeps.bind _ fun _ => Keeps.pure
          apply dropping_emit
          intro src hsrc d hd
          exact mem_source hsrc hd
        · exact Keeps.forM _ fun field _ => dropping_emitFieldDrop field

end Arth.Lower
