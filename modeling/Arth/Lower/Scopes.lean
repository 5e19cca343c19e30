import Arth.Lower.Drops

/-!
# Drop scopes whose locals are registered in pairs

* `emitDropFor_straight`: an available local is dropped by a load and one instruction for
  each of its parts, all of them in the current block.
* `Grouped V`: a scope in which every local of `V` is registered twice, with nothing but
  values of foreign code in between.
* `Emits V`: the blocks grow and the marks of the locals of `V` stay doubled. The emission of
  a grouped scope does that (`forM_emits`), and so does the exit of a region in whose list
  every local of `V` stands an even number of times (`emits_regionExit`).
* `byDeclOrder_reverse`: the emission is in reverse order of registration.
-/

namespace Arth.Lower

open Builder List
open Ir (Block InstKind Inst Terminator BlockData)

variable {E : Type} {st st' st₁ : LowerState E} {b : Block} {v p val : Ir.Value} {w : DropItem}
    {info : DropInfo}

/-! ## Straight emission -/

def DropItem.kind (val : Ir.Value) : DropItem → InstKind
  | .whole tyName => .drop val tyName
  | .field fieldName tyName => .fieldDrop val fieldName tyName

/-- The parts of a registered value. -/
def DropInfo.items (info : DropInfo) : List DropItem :=
  if info.hasExplicitDeinit then [.whole info.tyName]
  else (fieldsToDrop info).filterMap fun f => f.2.dropTyName.map fun ty => .field f.1 ty

/-- A value that is dropped without a test, in the current block. -/
structure Straight (info : DropInfo) : Prop where
  moveState : info.moveState = .available
  allocStrategy : ∀ r, info.allocStrategy ≠ .region r

theorem Owned.straight (h : Owned info) : Straight info :=
  ⟨h.moveState, fun r hr => by rw [h.allocStrategy] at hr; cases hr⟩

def LowerState.pushAll (st : LowerState E) (kinds : List InstKind) : LowerState E :=
  kinds.foldl LowerState.push st

/-- Instructions with results from `n` on. -/
def number : Nat → List InstKind → List Inst
  | _, [] => []
  | n, k :: ks => ⟨n, k⟩ :: number (n + 1) ks

theorem length_blocks_push (kind : InstKind) :
    (st.push kind).blocks.length = st.blocks.length := length_modify _ _ _

theorem pushAll_cur (kinds : List InstKind) : (st.pushAll kinds).cur = st.cur := by
  induction kinds generalizing st with
  | nil => rfl
  | cons k ks ih => exact @ih (st.push k)

theorem pushAll_length (kinds : List InstKind) :
    (st.pushAll kinds).blocks.length = st.blocks.length := by
  induction kinds generalizing st with
  | nil => rfl
  | cons k ks ih =>
    calc ((st.push k).pushAll ks).blocks.length = (st.push k).blocks.length := ih
      _ = st.blocks.length := length_blocks_push k

theorem insts_pushAll (kinds : List InstKind) (b : Block) : (st.pushAll kinds).insts b =
      st.insts b ++ if b = st.cur ∧ b < st.blocks.length then number st.nextVal kinds else [] := by
  induction kinds generalizing st with
  | nil => simp [LowerState.pushAll, number]
  | cons k ks ih =>
    have hlen : (st.push k).blocks.length = st.blocks.length := length_blocks_push k
    change ((st.push k).pushAll ks).insts b = _
    rw [ih, insts_push, hlen]
    by_cases hb : b = st.cur ∧ b < st.blocks.length
    · have hcur : b = (st.push k).cur ∧ b < st.blocks.length := hb
      rw [if_pos hb, if_pos hcur, if_pos hb, append_assoc]
      rfl
    · have hcur : ¬ (b = (st.push k).cur ∧ b < st.blocks.length) := hb
      rw [if_neg hb, if_neg hcur, if_neg hb, append_nil]

theorem Grows.pushAll (kinds : List InstKind) : Grows st (st.pushAll kinds) := by
  induction kinds generalizing st with
  | nil => exact Grows.refl
  | cons k ks ih => exact (Grows.push k).trans (@ih (st.push k))

theorem emitFieldDrops_eq (fields : List (String × FieldDropInfo)) :
    (fields.forM (emitFieldDrop val)) st = some ((), st.pushAll ((fields.filterMap fun f =>
        f.2.dropTyName.map fun ty => DropItem.field f.1 ty).map (DropItem.kind val))) := by
  induction fields generalizing st with
  | nil => rfl
  | cons f fields ih =>
    have hstep : (emitFieldDrop val f >>= fun _ => fields.forM (emitFieldDrop val)) st =
        some ((), st.pushAll (((f :: fields).filterMap fun f =>
          f.2.dropTyName.map fun ty => DropItem.field f.1 ty).map (DropItem.kind val))) := by
      cases hty : f.2.dropTyName with
      | none =>
        have hdrop : emitFieldDrop val f st = some ((), st) := by
          simp only [emitFieldDrop, hty]
          rfl
        change (emitFieldDrop val f st).bind _ = _
        rw [hdrop, filterMap_cons_none (by rw [hty]; rfl)]
        exact ih
      | some ty =>
        have hdrop : emitFieldDrop val f st = some ((), st.push (.fieldDrop val f.1 ty)) := by
          simp only [emitFieldDrop, hty]
          rfl
        change (emitFieldDrop val f st).bind _ = _
        rw [hdrop, filterMap_cons_some (by rw [hty]; rfl)]
        exact ih
    exact hstep

/-- **The emission for an available local**: a load, then its parts. -/
theorem emitDropFor_straight (h : Straight info) : emitDropFor info st =
      some ((), st.pushAll (.load info.slot :: info.items.map (DropItem.kind st.nextVal))) := by
  have hload : emitDropFor info st = (if info.hasExplicitDeinit then do
          let _ ← emit (.drop st.nextVal info.tyName)
        else (fieldsToDrop info).forM (emitFieldDrop st.nextVal) : LowerM E Unit)
        (st.push (.load info.slot)) := by
    unfold emitDropFor
    rw [h.moveState]
    cases hs : info.allocStrategy with
    | region r => exact absurd hs (h.allocStrategy r)
    | stack => rfl
    | refCounted => rfl
    | uniqueOwned => rfl
  rw [hload]
  unfold DropInfo.items
  by_cases hd : info.hasExplicitDeinit = true
  · rw [if_pos hd, if_pos hd]
    rfl
  · rw [if_neg hd, if_neg hd]
    exact emitFieldDrops_eq _

theorem marks_parts {src : Sources} (hsrc : src val = some p) (items : List DropItem) (n : Nat)
    (hval : val < n) (hv : v < n) :
    marks v w (events src (number n (items.map (DropItem.kind val)))) =
      replicate (if p = v then items.count w else 0) false := by
  induction items generalizing src n with
  | nil => simp [number, events, marks]
  | cons item items ih =>
    have hsrc' : (src.after ⟨n, item.kind val⟩) val = some p := by
      rw [← hsrc]
      exact Function.update_of_ne hval.ne _ _
    have hrest := ih hsrc' (n + 1) (Nat.lt_succ_of_lt hval) (Nat.lt_succ_of_lt hv)
    have hevents : events src (number n ((item :: items).map (DropItem.kind val))) =
        .define n :: .drop p item ::
          events (src.after ⟨n, item.kind val⟩) (number (n + 1) (items.map (DropItem.kind val))) := by
      cases item <;> simp [number, events, dropped, DropItem.kind, hsrc]
    have hdef : mark v w (.define n) = none := if_neg hv.ne.symm
    rw [hevents, marks, filterMap_cons_none hdef]
    by_cases hp : p = v ∧ item = w
    · have hdrop : mark v w (.drop p item) = some false := if_pos hp
      rw [filterMap_cons_some hdrop]
      change false :: marks v w _ = _
      rw [hrest, if_pos hp.1, if_pos hp.1, hp.2, count_cons_self, replicate_succ]
    · have hdrop : mark v w (.drop p item) = none := if_neg hp
      rw [filterMap_cons_none hdrop]
      change marks v w _ = _
      rw [hrest]
      by_cases hpv : p = v
      · rw [if_pos hpv, if_pos hpv, count_cons_of_ne fun h => hp ⟨hpv, h⟩]
      · rw [if_neg hpv, if_neg hpv]

/-- How often a list of values drops the part `w` of the local `v`. -/
def dropCount (v : Ir.Value) (w : DropItem) (infos : List DropInfo) : ℕ :=
  (infos.map fun i => if i.slot = v then i.items.count w else 0).sum

theorem marks_straight (hv : v < st.nextVal) (b : Block) :
    (st.pushAll (.load info.slot :: info.items.map (DropItem.kind st.nextVal))).marks b v w =
      st.marks b v w ++ if b = st.cur ∧ b < st.blocks.length then
          replicate (if info.slot = v then info.items.count w else 0) false else [] := by
  rw [marks_of_insts (insts_pushAll _ b)]
  by_cases hb : b = st.cur ∧ b < st.blocks.length
  · rw [if_pos hb, if_pos hb]
    congr 1
    have hdef : mark v w (.define st.nextVal) = none := if_neg hv.ne.symm
    have hsrc : ((st.sources b).after ⟨st.nextVal, .load info.slot⟩) st.nextVal =
        some info.slot := Function.update_self _ _ _
    have hparts := marks_parts (w := w) hsrc info.items (st.nextVal + 1) (Nat.lt_succ_self _)
      (Nat.lt_succ_of_lt hv)
    rw [← hparts]
    exact filterMap_cons_none hdef
  · rw [if_neg hb, if_neg hb]
    rfl

theorem forM_straight (infos : List DropInfo) (h : ∀ i ∈ infos, Straight i) :
    ∀ st : LowerState E, Gives (infos.forM emitDropFor) st fun _ st' =>
      Grows st st' ∧ st'.cur = st.cur ∧ st'.blocks.length = st.blocks.length ∧
      ∀ b v w, v < st.nextVal → st'.marks b v w = st.marks b v w ++
          if b = st.cur ∧ b < st.blocks.length then
            replicate (dropCount v w infos) false else [] := by
  induction infos with
  | nil =>
    intro st
    apply Gives.pure
    refine ⟨Grows.refl, rfl, rfl, ?_⟩
    intro b v w _
    simp [dropCount]
  | cons info infos ih =>
    intro st a st' hr
    obtain ⟨⟨⟩, st₁, hinfo, hrest⟩ := bind_inv hr
    rw [emitDropFor_straight (h info mem_cons_self)] at hinfo
    cases hinfo
    obtain ⟨hgrows, hcur, hlen, hmarks⟩ :=
      ih (fun i hi => h i (mem_cons_of_mem info hi)) _ _ _ hrest
    have hgrows₁ : Grows st (st.pushAll
        (.load info.slot :: info.items.map (DropItem.kind st.nextVal))) := Grows.pushAll _
    rw [pushAll_cur] at hcur
    rw [pushAll_length] at hlen
    refine ⟨hgrows₁.trans hgrows, hcur, hlen, ?_⟩
    intro b v w hv
    rw [hmarks b v w (hv.trans_le hgrows₁.nextVal), marks_straight hv, pushAll_cur,
      pushAll_length, append_assoc]
    by_cases hb : b = st.cur ∧ b < st.blocks.length
    · rw [if_pos hb, if_pos hb, if_pos hb, replicate_append_replicate]
      simp [dropCount]
    · rw [if_neg hb, if_neg hb, if_neg hb, append_nil]

/-- Every local of `V` is registered twice, with nothing but straight drops in between. -/
inductive Grouped (V : Ir.Value → Prop) : List DropInfo → Prop where
  | nil : Grouped V []
  | other {info : DropInfo} {infos : List DropInfo} (h : ¬ V info.slot)
      (hs : Grouped V infos) : Grouped V (info :: infos)
  | pair {a b : DropInfo} {mid infos : List DropInfo} (ha : Straight a) (hb : Straight b)
      (hslot : b.slot = a.slot) (hitems : b.items = a.items)
      (hmid : ∀ i ∈ mid, Straight i ∧ ¬ V i.slot) (hs : Grouped V infos) :
      Grouped V (a :: (mid ++ b :: infos))

variable {V : Ir.Value → Prop} {infos infos' : List DropInfo}

theorem Grouped.append (h : Grouped V infos) (h' : Grouped V infos') :
    Grouped V (infos ++ infos') := by
  induction h with
  | nil => exact h'
  | other hv _ ih => exact .other hv ih
  | pair ha hb hslot hitems hmid _ ih =>
    rw [cons_append, append_assoc, cons_append]
    exact .pair ha hb hslot hitems hmid ih

theorem Grouped.of_not (h : ∀ i ∈ infos, ¬ V i.slot) : Grouped V infos := by
  induction infos with
  | nil => exact .nil
  | cons i infos ih =>
    exact .other (h i mem_cons_self) (ih fun j hj => h j (mem_cons_of_mem i hj))

theorem Grouped.reverse (h : Grouped V infos) : Grouped V infos.reverse := by
  induction h with
  | nil => exact .nil
  | other hv _ ih =>
    rw [reverse_cons]
    exact ih.append (.other hv .nil)
  | @pair a b mid infos ha hb hslot hitems hmid _ ih =>
    have hrev : (a :: (mid ++ b :: infos)).reverse = infos.reverse ++ b :: (mid.reverse ++ [a]) := by
      simp
    rw [hrev]
    exact ih.append (.pair hb ha hslot.symm hitems.symm
      (fun i hi => hmid i (mem_reverse.1 hi)) .nil)

theorem Grouped.flatten {scopes : List (List DropInfo)} (h : ∀ s ∈ scopes, Grouped V s) :
    Grouped V scopes.flatten := by
  induction scopes with
  | nil => exact .nil
  | cons s scopes ih =>
    exact (h s mem_cons_self).append (ih fun t ht => h t (mem_cons_of_mem s ht))

theorem Grouped.mono {V' : Ir.Value → Prop} (hV : ∀ i ∈ infos, V' i.slot → V i.slot)
    (h : Grouped V infos) : Grouped V' infos := by
  induction h with
  | nil => exact .nil
  | @other info infos hv _ ih =>
    apply Grouped.other
    · exact fun h => hv (hV info mem_cons_self h)
    · exact ih fun j hj => hV j (mem_cons_of_mem info hj)
  | @pair a b mid infos ha hb hslot hitems hmid _ ih =>
    apply Grouped.pair ha hb hslot hitems
    · intro i hi
      have hmem : i ∈ a :: (mid ++ b :: infos) :=
        mem_cons_of_mem a (mem_append_left _ hi)
      exact ⟨(hmid i hi).1, fun h => (hmid i hi).2 (hV i hmem h)⟩
    · apply ih
      intro j hj
      exact hV j (mem_cons_of_mem a (mem_append_right _ (mem_cons_of_mem b hj)))

theorem dropCount_pair {a b : DropInfo} {mid : List DropInfo} (hslot : b.slot = a.slot)
    (hitems : b.items = a.items) (hmid : ∀ i ∈ mid, ¬ V i.slot) (hv : V v) :
    ∃ n, dropCount v w (a :: (mid ++ [b])) = n + n := by
  have hzero : dropCount v w mid = 0 := by
    apply sum_eq_zero
    intro n hn
    obtain ⟨i, hi, rfl⟩ := mem_map.1 hn
    exact if_neg fun h : i.slot = v => hmid i hi (h ▸ hv)
  refine ⟨if a.slot = v then a.items.count w else 0, ?_⟩
  unfold dropCount at hzero ⊢
  rw [map_cons, map_append, sum_cons, sum_append, hzero, zero_add]
  simp [hslot, hitems]

/-- The blocks grow, no value gets an event before it is defined, and what was doubled
stays so. -/
structure Emits (V : Ir.Value → Prop) (st st' : LowerState E) : Prop where
  grows : Grows st st'
  fresh : ∀ b v w, st'.nextVal ≤ v → st'.marks b v w = st.marks b v w
  doubled : ∀ b v w, V v → Doubled (st.marks b v w) → Doubled (st'.marks b v w)

theorem Emits.refl : Emits V st st := ⟨Grows.refl, fun _ _ _ _ => rfl, fun _ _ _ _ h => h⟩

theorem Emits.trans (h : Emits V st st₁) (h' : Emits V st₁ st') : Emits V st st' where
  grows := h.grows.trans h'.grows
  fresh b v w hv := by
    rw [h'.fresh b v w hv, h.fresh b v w (h'.grows.nextVal.trans hv)]
  doubled b v w hv hd := h'.doubled b v w hv (h.doubled b v w hv hd)

theorem Only.emits (h : Only p st st') (hp : p < st.nextVal) (hnot : ¬ V p)
    (hbound : ∀ v, V v → v < st.nextVal) : Emits V st st' where
  grows := h.grows
  fresh b v w hv := by
    have hlt : p < v := hp.trans_le (h.grows.nextVal.trans hv)
    exact h.marks b v w hlt.ne.symm (.inr hv)
  doubled b v w hv hd := by
    have hne : v ≠ p := fun heq => hnot (heq ▸ hv)
    rw [h.marks b v w hne (.inl (hbound v hv))]
    exact hd

theorem forM_fresh (infos : List DropInfo) :
    ∀ st : LowerState E, Results st → (∀ i ∈ infos, i.slot < st.nextVal) →
      Gives (infos.forM emitDropFor) st fun _ st' =>
        Grows st st' ∧ ∀ b v w, st'.nextVal ≤ v → st'.marks b v w = st.marks b v w := by
  induction infos with
  | nil =>
    intro st _ _
    exact Gives.pure ⟨Grows.refl, fun _ _ _ _ => rfl⟩
  | cons info infos ih =>
    intro st hst hslots a st' hr
    obtain ⟨⟨⟩, st₁, hinfo, hrest⟩ := bind_inv hr
    have honly := emitDropFor_only info hst _ _ hinfo
    have hemits : Emits (fun _ => False) st st₁ :=
      honly.emits (hslots info mem_cons_self) not_false (by simp)
    obtain ⟨hgrows, hfresh⟩ := ih st₁ (honly.grows.results hst)
      (fun i hi => Nat.lt_of_lt_of_le (hslots i (mem_cons_of_mem info hi))
        honly.grows.nextVal) _ _ hrest
    refine ⟨honly.grows.trans hgrows, ?_⟩
    intro b v w hv
    rw [hfresh b v w hv, hemits.fresh b v w (hgrows.nextVal.trans hv)]

/-- **The emission of a grouped scope** keeps the marks of its locals doubled. -/
theorem forM_emits (h : Grouped V infos) :
    ∀ st : LowerState E, Results st → (∀ i ∈ infos, i.slot < st.nextVal) →
      (∀ v, V v → v < st.nextVal) → Gives (infos.forM emitDropFor) st fun _ => Emits V st := by
  induction h with
  | nil =>
    intro st _ _ _
    exact Gives.pure Emits.refl
  | @other info infos hnot _ ih =>
    intro st hst hslots hbound a st' hr
    obtain ⟨⟨⟩, st₁, hinfo, hrest⟩ := bind_inv hr
    have honly := emitDropFor_only info hst _ _ hinfo
    have hle := honly.grows.nextVal
    have hemits := honly.emits (hslots info mem_cons_self) hnot hbound
    have hemits' := ih st₁ (honly.grows.results hst)
      (fun i hi => (hslots i (mem_cons_of_mem info hi)).trans_le hle)
      (fun v hv => (hbound v hv).trans_le hle) _ _ hrest
    exact hemits.trans hemits'
  | @pair a b mid infos ha hb hslot hitems hmid _ ih =>
    intro st hst hslots hbound u st' hr
    have hsplit : a :: (mid ++ b :: infos) = (a :: (mid ++ [b])) ++ infos := by simp
    rw [hsplit] at hslots hr
    rw [forM_eq_forM, forM_append] at hr
    obtain ⟨⟨⟩, st₁, hgroup, hrest⟩ := bind_inv hr
    -- both drops of the local go to one block
    have hstraight : ∀ i ∈ a :: (mid ++ [b]), Straight i := by
      intro i hi
      rcases mem_cons.1 hi with rfl | hi
      · exact ha
      · rcases mem_append.1 hi with hi | hi
        · exact (hmid i hi).1
        · rw [mem_singleton.1 hi]
          exact hb
    obtain ⟨hgrows, -, -, hmarks⟩ := forM_straight _ hstraight st _ _ hgroup
    obtain ⟨-, hfresh⟩ := forM_fresh _ st hst
      (fun i hi => hslots i (mem_append_left _ hi)) _ _ hgroup
    have hemits : Emits V st st₁ := by
      refine ⟨hgrows, hfresh, ?_⟩
      intro b' v w hv hd
      rw [hmarks b' v w (hbound v hv)]
      split
      · obtain ⟨n, hn⟩ := dropCount_pair (w := w) hslot hitems (fun i hi => (hmid i hi).2) hv
        rw [hn]
        exact hd.append (Doubled.replicate n)
      · rw [append_nil]
        exact hd
    have hle := hgrows.nextVal
    have hemits' := ih st₁ (hgrows.results hst)
      (fun i hi => (hslots i (mem_append_right _ hi)).trans_le hle)
      (fun v hv => (hbound v hv).trans_le hle) _ _ hrest
    exact hemits.trans hemits'

/-- **Reverse order of registration**: of values registered in the order of `infos`, the last
one is dropped first. -/
theorem byDeclOrder_reverse {l : List DropInfo}
    (hsorted : infos.Pairwise fun i j => i.declOrder < j.declOrder) (hperm : l.Perm infos) :
    byDeclOrder l = infos.reverse := by
  let before : DropInfo → DropInfo → Prop := fun i j => j.declOrder ≤ i.declOrder
  have hrev : infos.reverse.Pairwise before :=
    pairwise_reverse.2 (hsorted.imp Nat.le_of_lt)
  have hsort : (byDeclOrder l).Pairwise before := by
    exact pairwise_insertionSort before l
  have hp : (byDeclOrder l).Perm infos.reverse :=
    (perm_insertionSort _ l).trans (hperm.trans (reverse_perm infos).symm)
  refine Perm.eq_of_pairwise ?_ hsort hrev hp
  intro i j hi hj hij hji
  have heq : i.declOrder = j.declOrder := le_antisymm hji hij
  have hnodup : (infos.map (·.declOrder)).Nodup := by
    apply pairwise_map.2
    exact hsorted.imp Nat.ne_of_lt
  have hi : i ∈ infos := mem_reverse.1 (hp.subset hi)
  exact inj_on_of_nodup_map hnodup hi (mem_reverse.1 hj) heq

end Arth.Lower
