import Arth.Ir.Dom

/-!
# The immediate dominators are right

The table of `DomInfo.compute` as a function is `parent`. At every position of a round it is a
`Dominance.Round`, so no `expect` fails, `intersect` finds the common ancestors (`meet_spec`) and a
block that gets another dominator gets an earlier one; the rounds end (`rounds_spec`).
-/

namespace Arth.Ir

open Dominance List Function

def parent (idom : List (Option ℕ)) (b : ℕ) : Option ℕ := (idom[b]?).join

variable {i b c p : ℕ} {idom : List (Option ℕ)}

theorem fetch_eq {α : Type} {l : List α} {a : α} (h : l[i]? = some a) : fetch l i = .ok a := by
  unfold fetch
  rw [h]

theorem exists_fetch {α : Type} {l : List α} (h : i < l.length) :
    ∃ a, l[i]? = some a ∧ fetch l i = .ok a :=
  ⟨_, getElem?_eq_getElem h, fetch_eq (getElem?_eq_getElem h)⟩

theorem fetch_parent (hb : b < idom.length) : fetch idom b = .ok (parent idom b) := by
  obtain ⟨a, ha, hfetch⟩ := exists_fetch hb
  rw [hfetch, parent, ha]
  rfl

theorem lt_of_parent (h : parent idom b = some c) : b < idom.length := by
  by_contra hb
  unfold parent at h
  rw [getElem?_eq_none (by omega)] at h
  cases h

theorem expectIdom_eq (h : parent idom b = some c) : expectIdom idom b = .ok c := by
  unfold expectIdom
  rw [fetch_parent (lt_of_parent h), h]
  rfl

theorem parent_set (hb : b < idom.length) (c : Option ℕ) :
    parent (idom.set b c) = update (parent idom) b c := by
  funext v
  unfold parent
  by_cases hv : v = b
  · subst hv
    simp [hb]
  · rw [update_of_ne hv, getElem?_set_ne (Ne.symm hv)]

/-! ## The numbers of the blocks -/

theorem getElem?_number (l : List ℕ) (hl : l.Nodup) (k : ℕ) (acc : List ℕ)
    (hlt : ∀ x ∈ l, x < acc.length) (hb : b ∈ l) :
    ((l.zipIdx k).foldl (fun acc s => acc.set s.1 s.2) acc)[b]? = some (k + l.idxOf b) := by
  have hrest : ∀ (l : List ℕ) (k : ℕ) (acc : List ℕ), b ∉ l →
      ((l.zipIdx k).foldl (fun acc s => acc.set s.1 s.2) acc)[b]? = acc[b]? := by
    intro l
    induction l with
    | nil => exact fun _ _ _ => rfl
    | cons x l ih =>
      intro k acc hx
      have hne : x ≠ b := fun h => hx (h ▸ mem_cons_self)
      rw [zipIdx_cons, foldl_cons, ih _ _ fun h => hx (mem_cons_of_mem x h)]
      exact getElem?_set_ne hne
  induction l generalizing k acc with
  | nil => cases hb
  | cons x l ih =>
    obtain ⟨hx, hl⟩ := nodup_cons.1 hl
    rw [zipIdx_cons, foldl_cons]
    by_cases hbx : x = b
    · subst hbx
      rw [hrest _ _ _ hx]
      simp [hlt x mem_cons_self]
    · have hb := (mem_cons.1 hb).resolve_left (Ne.symm hbx)
      rw [ih hl (k + 1) _ (fun y hy => by simpa using hlt y (mem_cons_of_mem x hy)) hb,
        idxOf_cons_ne _ hbx]
      congr 1
      omega

theorem Func.edge_src_lt {f : Func} (h : (Cfg.build f).graph.edge p b) : p < f.blocks.length := by
  by_contra hp
  have h : b ∈ edgesOf (Cfg.build f).succs p := h
  unfold edgesOf at h
  rw [getD_eq_default _ _ (by rw [Func.length_succs]; omega)] at h
  cases h

section

variable {f : Func} (hf : f.blocks ≠ [])

include hf

theorem Func.rpo_length_le : (Cfg.build f).rpo.length ≤ f.blocks.length := by
  have hsub : (Cfg.build f).rpo ⊆ range f.blocks.length :=
    fun b hb => mem_range.2 ((Func.mem_rpo hf).1 hb).1
  have := ((Func.nodup_rpo f).subperm hsub).length_le
  rwa [length_range] at this

theorem Func.place_lt (hb : f.Reachable b) : f.place b < (Cfg.build f).rpo.length :=
  idxOf_lt_length_iff.2 ((Func.mem_rpo hf).2 hb)

theorem getElem?_numberRpo (hb : f.Reachable b) :
    (numberRpo f.blocks.length (Cfg.build f).rpo)[b]? = some (f.place b) := by
  have hlt : ∀ x ∈ (Cfg.build f).rpo, x < (replicate f.blocks.length usizeMax).length := by
    intro x hx
    rw [length_replicate]
    exact ((Func.mem_rpo hf).1 hx).1
  have := getElem?_number _ (Func.nodup_rpo f) 0 _ hlt ((Func.mem_rpo hf).2 hb)
  rwa [zero_add] at this

end

section

variable {f : Func} {idom : List (Option ℕ)} {rpoIndex : List ℕ}

/-- What the fingers rely on. -/
structure Fingers (f : Func) (idom : List (Option ℕ)) (rpoIndex : List ℕ) : Prop where
  blocks : f.blocks ≠ []
  length : idom.length = f.blocks.length
  index {b : ℕ} : f.Reachable b → rpoIndex[b]? = some (f.place b)
  tree : Tree (Cfg.build f).graph f.place (parent idom)
  sound : Sound (Cfg.build f).graph (parent idom)

variable {b c : ℕ}

section

variable (h : Fingers f idom rpoIndex)
include h

theorem Fingers.reachable (hb : parent idom b = some c) : f.Reachable b :=
  Func.reachable_of_reached h.blocks (h.tree.reached hb)

theorem Fingers.place_le (hb : parent idom b = some c) : f.place b < idom.length := by
  have h₁ := Func.place_lt h.blocks (h.reachable hb)
  have h₂ := Func.rpo_length_le h.blocks
  rw [h.length]
  omega

variable {b₂ d₂ b₁ d₁ : ℕ}

/-- **One finger** stops at or before the other, and the meeting point is the same. -/
theorem climb_spec (h₂ : parent idom b₂ = some d₂)
    (n : ℕ) (h₁ : parent idom b₁ = some d₁) (hn : f.place b₁ < n) :
    ∃ b d, climb idom rpoIndex (f.place b₂) n b₁ (f.place b₁) = .ok (b, f.place b) ∧
      parent idom b = some d ∧ f.place b ≤ f.place b₁ ∧ f.place b ≤ f.place b₂ ∧
      ∀ r, Joins (Cfg.build f).graph (parent idom) (fun x => x = b ∨ x = b₂) r →
        Joins (Cfg.build f).graph (parent idom) (fun x => x = b₁ ∨ x = b₂) r := by
  induction n generalizing b₁ d₁ with
  | zero => omega
  | succ n ih =>
    unfold climb
    by_cases hlt : f.place b₂ < f.place b₁
    · have hentry : b₁ ≠ 0 := by
        rintro rfl
        have hroot := h.tree.idx_le (h.sound.above h.tree h₂ (FlowGraph.dominates_entry b₂))
        have : f.place 0 ≤ f.place b₂ := hroot
        omega
      have hlower := h.tree.lower h₁ hentry
      obtain ⟨e, he⟩ := h.tree.up h₁
      obtain ⟨b, d, hclimb, hd, hle₁, hle₂, hjoins⟩ := ih he (by omega)
      refine ⟨b, d, ?_, hd, by omega, hle₂, fun r hr => ?_⟩
      · rw [if_pos hlt, expectIdom_eq h₁]
        show (fetch rpoIndex d₁ >>= _) = _
        rw [fetch_eq (h.index (h.reachable he))]
        exact hclimb
      · exact Joins.climb (Func.numbering h.blocks) h.tree h.sound h₁ h₂ hlt (hjoins r hr)
    · exact ⟨b₁, d₁, if_neg hlt, h₁, le_refl _, by omega, fun r hr => hr⟩

/-- **The fingers meet** where the ancestors of the two blocks do. -/
theorem meet_spec (n : ℕ) (h₁ : parent idom b₁ = some d₁) (h₂ : parent idom b₂ = some d₂)
    (hn : f.place b₁ + f.place b₂ < n) :
    ∃ r, meet idom rpoIndex n (b₁, f.place b₁) (b₂, f.place b₂) = .ok r ∧
      Joins (Cfg.build f).graph (parent idom) (fun x => x = b₁ ∨ x = b₂) r := by
  induction n generalizing b₁ d₁ b₂ d₂ with
  | zero => omega
  | succ n ih =>
    unfold meet
    by_cases heq : b₁ = b₂
    · subst heq
      exact ⟨b₁, if_pos rfl, (Joins.single h₁).congr fun x => (or_self_iff).symm⟩
    · have hne : f.place b₁ ≠ f.place b₂ := fun hplace =>
        heq ((Func.numbering h.blocks).inj (h.tree.reached h₁) (h.tree.reached h₂) hplace)
      obtain ⟨c₁, e₁, hclimb₁, he₁, hle₁, hbound₁, hjoins₁⟩ :=
        climb_spec h h₂ (idom.length + 1) h₁ (by have := h.place_le h₁; omega)
      obtain ⟨c₂, e₂, hclimb₂, he₂, hle₂, hbound₂, hjoins₂⟩ :=
        climb_spec h he₁ (idom.length + 1) h₂ (by have := h.place_le h₂; omega)
      obtain ⟨r, hmeet, hr⟩ := ih he₁ he₂ (by omega)
      refine ⟨r, ?_, hjoins₁ r ?_⟩
      · rw [if_neg heq, hclimb₁]
        show (climb idom rpoIndex (f.place c₁) (idom.length + 1) b₂ (f.place b₂) >>= _) = _
        rw [hclimb₂]
        exact hmeet
      · exact (hjoins₂ r (hr.congr fun x => or_comm)).congr fun x => or_comm

theorem intersect_spec (h₁ : parent idom b₁ = some d₁) (h₂ : parent idom b₂ = some d₂) :
    ∃ r, intersect b₁ b₂ idom rpoIndex = .ok r ∧
      Joins (Cfg.build f).graph (parent idom) (fun x => x = b₁ ∨ x = b₂) r := by
  have hle₁ := h.place_le h₁
  have hle₂ := h.place_le h₂
  obtain ⟨r, hmeet, hr⟩ := meet_spec h (2 * idom.length + 1) h₁ h₂ (by omega)
  refine ⟨r, ?_, hr⟩
  unfold intersect
  rw [fetch_eq (h.index (h.reachable h₁)), fetch_eq (h.index (h.reachable h₂))]
  exact hmeet

end

/-- What has been made of the predecessors seen so far. -/
def Joined (f : Func) (idom : List (Option ℕ)) (P : ℕ → Prop) : Option ℕ → Prop
  | none => ∀ x, ¬ P x
  | some c => Joins (Cfg.build f).graph (parent idom) P c

variable {new : Option ℕ}

variable {P : ℕ → Prop}

theorem Joined.congr {Q : ℕ → Prop} (h : Joined f idom P new)
    (hPQ : ∀ x, P x ↔ Q x) : Joined f idom Q new := by
  have : P = Q := funext fun x => propext (hPQ x)
  rwa [← this]

theorem joinPred_spec (h : Fingers f idom rpoIndex)
    (hnew : Joined f idom P new) (hp : p < f.blocks.length) :
    ∃ new', joinPred (Cfg.build f) idom rpoIndex new p = .ok new' ∧
      Joined f idom (fun x => P x ∨ (x = p ∧ ∃ d, parent idom x = some d)) new' := by
  obtain ⟨r, hr, hreach⟩ := Func.getElem?_reachable hp
  have hidom : fetch idom p = .ok (parent idom p) := fetch_parent (by rwa [h.length])
  unfold joinPred
  rw [fetch_eq hr]
  -- a predecessor without a parent so far is skipped
  cases hparent : parent idom p with
  | none =>
    have hsame : Joined f idom (fun x => P x ∨ (x = p ∧ ∃ d, parent idom x = some d)) new := by
      refine hnew.congr fun x => ⟨.inl, ?_⟩
      rintro (hx | ⟨rfl, d, hd⟩)
      · exact hx
      · rw [hparent] at hd
        cases hd
    refine ⟨new, ?_, hsame⟩
    rw [hparent] at hidom
    cases r with
    | false => rfl
    | true =>
      rw [hidom]
      rfl
  | some d =>
    have hrtrue : r = true := hreach.2 (h.reachable hparent)
    subst hrtrue
    rw [hparent] at hidom
    -- the first one counted stands for itself, a later one is joined with those before
    cases new with
    | none =>
      refine ⟨some p, ?_, ?_⟩
      · rw [hidom]
        rfl
      · have hsingle : Joined f idom (· = p) (some p) := Joins.single hparent
        refine hsingle.congr fun x => ⟨?_, ?_⟩
        · rintro rfl
          exact .inr ⟨rfl, d, hparent⟩
        · rintro (hx | ⟨hx, -⟩)
          · exact absurd hx (hnew x)
          · exact hx
    | some q =>
      have hq : Joins (Cfg.build f).graph (parent idom) P q := hnew
      obtain ⟨e, he⟩ := hq.inTree
      obtain ⟨c, hc, hjoins⟩ := intersect_spec h hparent he
      refine ⟨some c, ?_, ?_⟩
      · rw [hidom]
        show (intersect p q idom rpoIndex >>= _) = _
        rw [hc]
        rfl
      · have hpair : Joined f idom (fun x => P x ∨ x = p) (some c) := hq.pair hjoins
        refine hpair.congr fun x => or_congr_right ⟨?_, And.left⟩
        rintro rfl
        exact ⟨rfl, d, hparent⟩

theorem foldlM_joinPred (h : Fingers f idom rpoIndex) (ps : List ℕ)
    (hps : ∀ p ∈ ps, p < f.blocks.length) (hnew : Joined f idom P new) :
    ∃ new', ps.foldlM (joinPred (Cfg.build f) idom rpoIndex) new = .ok new' ∧
      Joined f idom (fun x => P x ∨ (x ∈ ps ∧ ∃ d, parent idom x = some d)) new' := by
  induction ps generalizing P new with
  | nil => exact ⟨new, rfl, hnew.congr fun x => by simp⟩
  | cons p ps ih =>
    obtain ⟨new₁, hstep, hnew₁⟩ := joinPred_spec h hnew (hps p mem_cons_self)
    obtain ⟨new₂, hfold, hnew₂⟩ :=
      ih (fun q hq => hps q (mem_cons_of_mem p hq)) hnew₁
    refine ⟨new₂, ?_, hnew₂.congr fun x => ?_⟩
    · rw [foldlM_cons, hstep]
      exact hfold
    · rw [mem_cons]
      tauto

/-- The numbers of the parents, where a block without one counts as much as there are blocks. -/
def weight (f : Func) (idom : List (Option ℕ)) : ℕ :=
  ((Cfg.build f).rpo.map fun b => (parent idom b).elim f.blocks.length f.place).sum

/-- A block whose dominator is where its predecessors meet. -/
def Settled (f : Func) (idom : List (Option ℕ)) (b : ℕ) : Prop :=
  ∃ c, parent idom b = some c ∧
    Joins (Cfg.build f).graph (parent idom) (Entered (Cfg.build f).graph (parent idom) b) c

/-- The table when a round reaches position `j` of the order. -/
structure AtRound (f : Func) (j : ℕ) (idom : List (Option ℕ)) : Prop where
  length : idom.length = f.blocks.length
  round : Round (Cfg.build f).graph f.place f.before (parent idom) j

/-- A table in place of another: nothing happened and the blocks are settled, or the parents are
earlier than they were. -/
def Advance (f : Func) (bs : List ℕ) (s s' : List (Option ℕ) × Bool) : Prop :=
  (s' = s ∧ ∀ b ∈ bs, Settled f s.1 b) ∨ (s'.2 = true ∧ weight f s'.1 < weight f s.1)

/-- What holds of the table in the end. -/
structure Solved (f : Func) (idom : List (Option ℕ)) : Prop where
  length : idom.length = f.blocks.length
  round : Round (Cfg.build f).graph f.place f.before (parent idom) 1
  entered {b : ℕ} : f.Reachable b → ∃ c, parent idom b = some c
  settled {b : ℕ} : f.Reachable b → b ≠ 0 → Settled f idom b

theorem entered_iff (hb : f.Reachable b)
    (p : ℕ) : p ∈ (Cfg.build f).preds.getD b [] ∧ (∃ d, parent idom p = some d) ↔
      Entered (Cfg.build f).graph (parent idom) b p := by
  rw [Func.mem_preds hb.1]
  exact Iff.rfl

variable (hf : f.blocks ≠ [])

include hf

variable {j : ℕ}

theorem AtRound.fingers (h : AtRound f j idom)
    (hindex : ∀ b, f.Reachable b → rpoIndex[b]? = some (f.place b)) : Fingers f idom rpoIndex where
  blocks := hf
  length := h.length
  index {b} hb := hindex b hb
  tree := h.round.tree
  sound := h.round.sound

theorem weight_set_lt (h : AtRound f j idom) (hb : f.Reachable b)
    (hc : ∃ d, parent idom c = some d) (hnew : parent idom b ≠ some c)
    (hup : ∀ d, parent idom b = some d → Above (parent idom) c d) :
    weight f (idom.set b (some c)) < weight f idom := by
  have hblen : b < idom.length := by rw [h.length]; exact hb.1
  have hlower : f.place c < (parent idom b).elim f.blocks.length f.place := by
    obtain ⟨e, he⟩ := hc
    cases hold : parent idom b with
    | none =>
      have h₁ := Func.place_lt hf (Func.reachable_of_reached hf (h.round.tree.reached he))
      have h₂ := Func.rpo_length_le hf
      show f.place c < f.blocks.length
      omega
    | some d =>
      obtain ⟨d', hd'⟩ := h.round.tree.up hold
      refine h.round.tree.idx_lt hd' (hup d hold) ?_
      rintro rfl
      exact hnew hold
  unfold weight
  rw [parent_set hblen]
  refine sum_lt_sum _ _ (fun x _ => ?_) ⟨b, (Func.mem_rpo hf).2 hb, ?_⟩
  · by_cases hx : x = b
    · subst hx
      rw [update_self]
      exact hlower.le
    · rw [update_of_ne hx]
  · rw [update_self]
    exact hlower

/-- **One block of a round.** -/
theorem visitBlock_spec (h : AtRound f j idom)
    (hindex : ∀ b, f.Reachable b → rpoIndex[b]? = some (f.place b))
    (hb : f.Reachable b) (hentry : b ≠ 0) (hj : f.place b = j) (changed : Bool) :
    ∃ s, visitBlock (Cfg.build f) rpoIndex (idom, changed) b = .ok s ∧ AtRound f (j + 1) s.1 ∧
      Advance f [b] (idom, changed) s := by
  have N := Func.numbering hf
  have hF := h.fingers hf hindex
  obtain ⟨r, hr, hreach⟩ := Func.getElem?_reachable hb.1
  have hrtrue : r = true := hreach.2 hb
  subst hrtrue
  have hblen : b < idom.length := by rw [h.length]; exact hb.1
  have hpreds : (Cfg.build f).preds[b]? = some ((Cfg.build f).preds.getD b []) := by
    have hlt : b < (Cfg.build f).preds.length := by rw [Func.length_preds]; exact hb.1
    rw [getD_eq_getElem?_getD, getElem?_eq_getElem hlt]
    rfl
  have hsrc : ∀ p ∈ (Cfg.build f).preds.getD b [], p < f.blocks.length :=
    fun p hp => Func.edge_src_lt ((Func.mem_preds hb.1).1 hp)
  have hstart : Joined f idom (fun _ => False) none := fun _ => id
  obtain ⟨new, hfold, hnew⟩ := foldlM_joinPred hF _ hsrc hstart
  have hnew : Joined f idom (Entered (Cfg.build f).graph (parent idom) b) new := by
    refine hnew.congr fun p => ?_
    rw [false_or]
    exact entered_iff hb p
  have hrun : visitBlock (Cfg.build f) rpoIndex (idom, changed) b =
      if new.isSome ∧ parent idom b ≠ new then .ok (idom.set b new, true)
      else .ok (idom, changed) := by
    unfold visitBlock
    rw [fetch_eq hr]
    rw [fetch_eq hpreds]
    show (List.foldlM (joinPred (Cfg.build f) idom rpoIndex) none _ >>= _) = _
    rw [hfold]
    rw [fetch_parent hblen]
    rfl
  -- the edge from its tree parent is among them, so some predecessor counts
  cases new with
  | none => exact absurd (h.round.fwd_entered N hb.2 hentry hj) (hnew _)
  | some c =>
    have hjoins : Joins (Cfg.build f).graph (parent idom)
        (Entered (Cfg.build f).graph (parent idom) b) c := hnew
    have hround := h.round.update N hb.2 hentry hj hjoins
    -- the entry stays, or a lower weight takes its place
    by_cases hold : parent idom b = some c
    · refine ⟨(idom, changed), ?_, ⟨h.length, ?_⟩, .inl ⟨rfl, fun x hx => ?_⟩⟩
      · rw [hrun, if_neg fun hne => hne.2 hold]
      · rwa [← hold, update_eq_self] at hround
      · rw [mem_singleton.1 hx]
        exact ⟨c, hold, hjoins⟩
    · refine ⟨(idom.set b (some c), true), ?_, ⟨?_, ?_⟩, .inr ⟨rfl, ?_⟩⟩
      · rw [hrun, if_pos ⟨rfl, hold⟩]
      · rw [length_set]
        exact h.length
      · rwa [parent_set hblen]
      · exact weight_set_lt hf h hb hjoins.inTree hold
          fun d hd => h.round.above_old hentry hjoins hd

/-- **One round**, from a position of the order on. -/
theorem foldlM_visitBlock
    (hindex : ∀ b, f.Reachable b → rpoIndex[b]? = some (f.place b)) (bs before : List ℕ)
    (hrpo : (Cfg.build f).rpo = before ++ bs) (hbefore : before ≠ []) (idom : List (Option ℕ))
    (h : AtRound f before.length idom) (changed : Bool) :
    ∃ s, bs.foldlM (visitBlock (Cfg.build f) rpoIndex) (idom, changed) = .ok s ∧
      AtRound f (Cfg.build f).rpo.length s.1 ∧ Advance f bs (idom, changed) s := by
  induction bs generalizing before idom changed with
  | nil =>
    refine ⟨(idom, changed), rfl, ?_, .inl ⟨rfl, fun b hb => absurd hb not_mem_nil⟩⟩
    rwa [hrpo, append_nil]
  | cons b bs ih =>
    have hnodup := Func.nodup_rpo f
    rw [hrpo] at hnodup
    have hnot : b ∉ before := fun hmem =>
      (nodup_append.1 hnodup).2.2 b hmem b mem_cons_self rfl
    have hreach : f.Reachable b := (Func.mem_rpo hf).1 (by rw [hrpo]; simp)
    have hplace : f.place b = before.length := by
      unfold Func.place
      rw [hrpo, idxOf_append_of_notMem hnot]
      simp
    -- the entry is the first of the order, so it is among the blocks before
    have hentry : b ≠ 0 := by
      rintro rfl
      obtain ⟨l, hl⟩ := Func.rpo_head hf
      cases before with
      | nil => exact hbefore rfl
      | cons x before =>
        rw [hl] at hrpo
        obtain ⟨rfl, -⟩ := cons.inj hrpo
        exact hnot mem_cons_self
    obtain ⟨s₁, hstep, h₁, hadv₁⟩ := visitBlock_spec hf h hindex hreach hentry hplace changed
    obtain ⟨idom₁, changed₁⟩ := s₁
    obtain ⟨s₂, hfold, h₂, hadv₂⟩ := ih (before ++ [b]) (by rw [hrpo]; simp) (by simp) idom₁
      (by rwa [length_append]) changed₁
    refine ⟨s₂, ?_, h₂, ?_⟩
    · rw [foldlM_cons, hstep]
      exact hfold
    -- a round changes nothing when none of its visits does
    · rcases hadv₁ with ⟨heq, hsettled₁⟩ | ⟨hch, hlt⟩
      · cases heq
        rcases hadv₂ with ⟨heq₂, hsettled₂⟩ | hless
        · refine .inl ⟨heq₂, fun x hx => ?_⟩
          rcases mem_cons.1 hx with rfl | hx
          · exact hsettled₁ x (mem_singleton_self x)
          · exact hsettled₂ x hx
        · exact .inr hless
      · rcases hadv₂ with ⟨heq₂, -⟩ | ⟨hch₂, hlt₂⟩
        · rw [heq₂]
          exact .inr ⟨hch, hlt⟩
        · exact .inr ⟨hch₂, lt_trans hlt₂ hlt⟩

/-- **The rounds end**, and then every block is settled. -/
theorem rounds_spec (hindex : ∀ b, f.Reachable b → rpoIndex[b]? = some (f.place b)) (n : ℕ)
    (idom : List (Option ℕ)) (h : AtRound f 1 idom) (hn : weight f idom < n) :
    ∃ idom', rounds (Cfg.build f) rpoIndex n idom = .ok idom' ∧ Solved f idom' := by
  induction n generalizing idom with
  | zero => omega
  | succ n ih =>
    obtain ⟨l, hl⟩ := Func.rpo_head hf
    obtain ⟨s, hround, hend, hadv⟩ := foldlM_visitBlock hf hindex l [0] hl (by simp) idom h false
    have hlt : ∀ a, (Cfg.build f).graph.Reached a → f.place a < (Cfg.build f).rpo.length :=
      fun a ha => Func.place_lt hf (Func.reachable_of_reached hf ha)
    have hrestart : AtRound f 1 s.1 :=
      ⟨hend.length, hend.round.restart hlt (by rw [hl]; simp)⟩
    have hrun : rounds (Cfg.build f) rpoIndex (n + 1) idom =
        if s.2 then rounds (Cfg.build f) rpoIndex n s.1 else .ok s.1 := by
      show (round (Cfg.build f) rpoIndex idom >>= _) = _
      unfold round
      rw [hl]
      show (List.foldlM (visitBlock (Cfg.build f) rpoIndex) (idom, false) l >>= _) = _
      rw [hround]
      rfl
    rcases hadv with ⟨heq, hsettled⟩ | ⟨hch, hless⟩
    · refine ⟨idom, by rw [hrun, heq]; rfl, ?_⟩
      rw [heq] at hend
      exact {
        length := h.length
        round := h.round
        entered := fun hb => hend.round.entered hb.2 (Func.place_lt hf hb)
        settled := by
          intro b hb hentry
          have hmem := (Func.mem_rpo hf).2 hb
          rw [hl] at hmem
          exact hsettled b ((mem_cons.1 hmem).resolve_left hentry) }
    · have hless : weight f s.1 < weight f idom := hless
      obtain ⟨idom', hrounds, hsolved⟩ := ih s.1 hrestart (by omega)
      exact ⟨idom', by rw [hrun, if_pos hch, hrounds], hsolved⟩

theorem atRound_start :
    AtRound f 1 ((replicate f.blocks.length none).set ((Cfg.build f).rpo.headD 0)
      (some ((Cfg.build f).rpo.headD 0))) := by
  obtain ⟨l, hl⟩ := Func.rpo_head hf
  have hpos : 0 < f.blocks.length := length_pos_iff.2 hf
  rw [hl]
  refine ⟨by simp, ?_⟩
  have hparent : parent ((replicate f.blocks.length none).set 0 (some 0)) =
      fun v => if v = (Cfg.build f).graph.entry then some (Cfg.build f).graph.entry else none := by
    rw [parent_set (by simpa using hpos)]
    funext v
    by_cases hv : v = 0
    · subst hv
      exact (if_pos rfl).symm
    · rw [update_of_ne hv]
      have hnone : parent (replicate f.blocks.length none) v = none := by
        unfold parent
        by_cases hlt : v < f.blocks.length <;> simp [hlt]
      rw [hnone]
      exact (if_neg hv).symm
  show Round _ _ _ (parent ((replicate f.blocks.length none).set 0 (some 0))) 1
  rw [hparent]
  refine Round.start fun a ha hlt => ?_
  have hplace : f.place 0 = 0 := by
    unfold Func.place
    rw [hl]
    simp
  refine (Func.numbering hf).inj ha FlowGraph.Reached.entry ?_
  have : f.place (Cfg.build f).graph.entry = 0 := hplace
  omega

theorem weight_le (idom : List (Option ℕ)) (hle : ∀ b c, parent idom b = some c → f.Reachable c) :
    weight f idom ≤ f.blocks.length * f.blocks.length := by
  have hbound : ∀ x ∈ (Cfg.build f).rpo.map
      (fun b => (parent idom b).elim f.blocks.length f.place), x ≤ f.blocks.length := by
    intro x hx
    obtain ⟨b, -, rfl⟩ := mem_map.1 hx
    cases hb : parent idom b with
    | none => exact le_refl _
    | some c =>
      have h₁ := Func.place_lt hf (hle b c hb)
      have h₂ := Func.rpo_length_le hf
      show f.place c ≤ f.blocks.length
      omega
  have hsum := sum_le_card_nsmul _ _ hbound
  rw [length_map, smul_eq_mul] at hsum
  exact hsum.trans (Nat.mul_le_mul_right _ (Func.rpo_length_le hf))

end

end Arth.Ir
