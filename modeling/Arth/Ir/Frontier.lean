import Arth.Ir.Dominators

/-!
# What `DomInfo.compute` returns

* `compute_dominates` — it always returns, and `dominates` tells dominance between reachable blocks.
* `mem_addFrontiers` — the walks from the predecessors put a block on the frontiers of the blocks
  below its immediate dominator.
* `frontier_exact_iff` — the frontiers are the dominance frontiers just when no reachable block
  leads back to the entry: the entry block is its own immediate dominator, so the walks for it stop
  short of it.
-/

namespace Arth.Ir

open Dominance List Option

/-! ## Loops that do not fail -/

theorem exists_foldlM {σ α : Type} {I : σ → Prop} {step : σ → α → Except Stop σ} (l : List α)
    (hstep : ∀ a ∈ l, ∀ s, I s → ∃ s', step s a = .ok s' ∧ I s') (s : σ) (hs : I s) :
    ∃ s', l.foldlM step s = .ok s' ∧ I s' := by
  induction l generalizing s with
  | nil => exact ⟨s, rfl, hs⟩
  | cons a l ih =>
    obtain ⟨s₁, hrun, hs₁⟩ := hstep a mem_cons_self s hs
    obtain ⟨s₂, hfold, hs₂⟩ := ih (fun b hb => hstep b (mem_cons_of_mem a hb)) s₁ hs₁
    refine ⟨s₂, ?_, hs₂⟩
    rw [foldlM_cons, hrun]
    exact hfold

variable {i b c x s r : ℕ} {lists : List (List ℕ)}

theorem pushAt_eq (hi : i < lists.length) (b : ℕ) :
    pushAt lists i b = .ok (lists.modify i (· ++ [b])) := by
  obtain ⟨a, -, hfetch⟩ := exists_fetch hi
  unfold pushAt
  rw [hfetch]
  rfl

theorem mem_getD_modify (hi : i < lists.length) (b x y : ℕ) :
    y ∈ (lists.modify i (· ++ [b])).getD x [] ↔ y ∈ lists.getD x [] ∨ (x = i ∧ y = b) := by
  by_cases hx : i = x
  · subst hx
    simp [hi]
  · simp [hx, Ne.symm hx]

section

variable {f : Func} {idom : List (Option ℕ)}

theorem Solved.lt (h : Solved f idom) (hb : parent idom b = some c) : c < f.blocks.length := by
  obtain ⟨d, hd⟩ := h.round.tree.up hb
  have := lt_of_parent hd
  rwa [h.length] at this

theorem Solved.reachable (hf : f.blocks ≠ []) (h : Solved f idom)
    (hb : parent idom b = some c) : f.Reachable b :=
  Func.reachable_of_reached hf (h.round.tree.reached hb)

/-- **The ancestors in the table are the dominators.** -/
theorem Solved.above_iff (hf : f.blocks ≠ []) (h : Solved f idom)
    (hb : f.Reachable b) : Above (parent idom) x b ↔ (Cfg.build f).graph.Dominates x b := by
  refine above_iff_dominates h.round ?_ ?_ hb.2
  · exact fun a ha => h.entered (Func.reachable_of_reached hf ha)
  · intro b c hc hentry
    obtain ⟨d, hd, hjoins⟩ := h.settled (h.reachable hf hc) hentry
    rw [hc] at hd
    rwa [some.inj hd]

/-- **The climb of `dominates`** finds the ancestors. -/
theorem climbTo_spec (hf : f.blocks ≠ []) (h : Solved f idom) (a : ℕ) (n : ℕ) {v : ℕ}
    (hv : f.Reachable v) (hn : f.place v < n) :
    ∃ r, climbTo idom a n v = .ok r ∧ (r = true ↔ Above (parent idom) a v) := by
  -- on the fuel; every step goes to an earlier place of the order
  induction n generalizing v with
  | zero => omega
  | succ n ih =>
    unfold climbTo
    by_cases hva : v = a
    · refine ⟨true, if_pos hva, ?_⟩
      rw [hva]
      exact ⟨fun _ => Above.refl a, fun _ => rfl⟩
    · obtain ⟨w, hw⟩ := h.entered hv
      have hfetch : fetch idom v = .ok (some w) := by
        rw [fetch_parent (lt_of_parent hw), hw]
      rw [if_neg hva, hfetch]
      -- only the entry is its own parent, and the climb ends there
      by_cases hwv : w = v
      · refine ⟨false, ?_, ?_⟩
        · show (if w = v then _ else _) = _
          rw [if_pos hwv]
        · have hentry : v = 0 := by
            by_contra hne
            have := h.round.tree.lower hw hne
            rw [hwv] at this
            omega
          subst hentry
          constructor
          · intro hfalse
            cases hfalse
          · intro habove
            exact absurd (h.round.tree.above_entry habove).symm hva
      · have hentry : v ≠ 0 := by
          rintro rfl
          have hroot : parent idom 0 = some 0 := h.round.tree.root
          rw [hw] at hroot
          exact hwv (some.inj hroot)
        obtain ⟨d, hd⟩ := h.round.tree.up hw
        have hlower := h.round.tree.lower hw hentry
        obtain ⟨r, hrun, hr⟩ := ih (h.reachable hf hd) (by omega)
        refine ⟨r, ?_, ?_⟩
        · show (if w = v then _ else _) = _
          rw [if_neg hwv]
          exact hrun
        · rw [hr, above_iff hw]
          exact ⟨.inr, fun hor => hor.resolve_left (Ne.symm hva)⟩

/-! ## The walks to the immediate dominator -/

variable {frontier : List (List ℕ)}

theorem runFrontier_spec (hf : f.blocks ≠ []) (h : Solved f idom) (b : ℕ) (n : ℕ)
    (hlen : frontier.length = f.blocks.length) {r : ℕ} (hr : r < f.blocks.length)
    (hs : ∃ c, parent idom s = some c)
    (habove : ∀ c, parent idom r = some c → Above (parent idom) s r ∧ f.place r < n) (hn : 0 < n) :
    ∃ frontier', runFrontier idom b (some s) n frontier r = .ok frontier' ∧
      frontier'.length = f.blocks.length ∧ ∀ x, f.Reachable x → ∀ y,
        (y ∈ frontier'.getD x [] ↔ y ∈ frontier.getD x [] ∨
          (y = b ∧ f.Reachable r ∧ Above (parent idom) x r ∧ ¬ Above (parent idom) x s)) := by
  induction n generalizing frontier r with
  | zero => omega
  | succ n ih =>
    unfold runFrontier
    by_cases hrs : r = s
    · subst hrs
      refine ⟨frontier, if_pos rfl, hlen, fun x _ y => ?_⟩
      tauto
    · have hne : ¬ some r = some s := fun heq => hrs (some.inj heq)
      have hfetch : fetch idom r = .ok (parent idom r) := fetch_parent (by rwa [h.length])
      rw [if_neg hne, pushAt_eq (by rwa [hlen])]
      have hlen' : (frontier.modify r (· ++ [b])).length = f.blocks.length := by
        rw [length_modify, hlen]
      have hroom : r < frontier.length := by rwa [hlen]
      have hmem (x y : ℕ) := mem_getD_modify hroom b x y
      -- an unreachable block has no parent, and the walk ends with it
      cases hparent : parent idom r with
      | none =>
        rw [hparent] at hfetch
        refine ⟨frontier.modify r (· ++ [b]), ?_, hlen', fun x hx y => ?_⟩
        · rw [hfetch]
          rfl
        · have hnot : ¬ f.Reachable r := by
            intro hreach
            obtain ⟨c, hc⟩ := h.entered hreach
            rw [hparent] at hc
            cases hc
          have hxr : x ≠ r := by
            rintro rfl
            exact hnot hx
          rw [hmem]
          tauto
      | some c =>
        rw [hparent] at hfetch
        obtain ⟨hsr, hplace⟩ := habove c hparent
        have hentry : r ≠ 0 := by
          rintro rfl
          exact hrs (h.round.tree.above_entry hsr).symm
        have hlower := h.round.tree.lower hparent hentry
        have hsc := (h.round.tree.above_parent hparent hentry).2 ⟨hsr, Ne.symm hrs⟩
        obtain ⟨frontier', hrun, hlen₂, hmem₂⟩ := ih hlen' (h.lt hparent)
          (fun d hd => ⟨hsc, by omega⟩) (by omega)
        refine ⟨frontier', ?_, hlen₂, fun x hx y => ?_⟩
        · rw [hfetch]
          exact hrun
        · have hreach := h.reachable hf hparent
          have hreachc : f.Reachable c := by
            obtain ⟨d, hd⟩ := h.round.tree.up hparent
            exact h.reachable hf hd
          have hrnot : ¬ Above (parent idom) r s := fun hback =>
            hrs (h.round.tree.antisymm hback hsr)
          rw [hmem₂ x hx y, hmem, above_iff hparent]
          constructor
          · rintro ((hold | ⟨rfl, rfl⟩) | ⟨rfl, -, hxc, hxs⟩)
            · exact .inl hold
            · exact .inr ⟨rfl, hreach, .inl rfl, hrnot⟩
            · exact .inr ⟨rfl, hreach, .inr hxc, hxs⟩
          · rintro (hold | ⟨rfl, -, rfl | hxc, hxs⟩)
            · exact .inl (.inl hold)
            · exact .inl (.inr ⟨rfl, rfl⟩)
            · exact .inr ⟨rfl, hreachc, hxc, hxs⟩

/-- A predecessor of `y` from which the walk passes `x`. -/
def Passed (f : Func) (idom : List (Option ℕ)) (s x r : ℕ) : Prop :=
  f.Reachable r ∧ Above (parent idom) x r ∧ ¬ Above (parent idom) x s

theorem Solved.above_pred (hf : f.blocks ≠ []) (h : Solved f idom)
    (hs : parent idom b = some s) (hedge : (Cfg.build f).graph.edge r b) (hr : f.Reachable r) :
    Above (parent idom) s r := by
  by_cases hentry : b = 0
  · subst hentry
    have hroot : parent idom 0 = some 0 := h.round.tree.root
    rw [hs] at hroot
    rw [some.inj hroot]
    exact (h.above_iff hf hr).2 (FlowGraph.dominates_entry r)
  · obtain ⟨d, hd, hjoins⟩ := h.settled (h.reachable hf hs) hentry
    rw [hs] at hd
    cases hd
    exact (hjoins.above s).1 (Above.refl s) r ⟨hedge, h.entered hr⟩

theorem foldlM_runFrontier (hf : f.blocks ≠ []) (h : Solved f idom)
    (hs : parent idom b = some s) (ps : List ℕ) (hps : ∀ r ∈ ps, (Cfg.build f).graph.edge r b)
    (hlen : frontier.length = f.blocks.length) :
    ∃ frontier', ps.foldlM (runFrontier idom b (some s) (idom.length + 1)) frontier =
        .ok frontier' ∧ frontier'.length = f.blocks.length ∧ ∀ x, f.Reachable x → ∀ y,
        (y ∈ frontier'.getD x [] ↔ y ∈ frontier.getD x [] ∨
          (y = b ∧ ∃ r ∈ ps, Passed f idom s x r)) := by
  induction ps generalizing frontier with
  | nil => exact ⟨frontier, rfl, hlen, fun x _ y => by simp⟩
  | cons r ps ih =>
    have hedge := hps r mem_cons_self
    have habove : ∀ c, parent idom r = some c →
        Above (parent idom) s r ∧ f.place r < idom.length + 1 := by
      intro c hc
      have hr := h.reachable hf hc
      have h₁ := Func.place_lt hf hr
      have h₂ := Func.rpo_length_le hf
      refine ⟨h.above_pred hf hs hedge hr, ?_⟩
      rw [h.length]
      omega
    obtain ⟨frontier₁, hrun, hlen₁, hmem₁⟩ := runFrontier_spec hf h b (idom.length + 1) hlen
      (Func.edge_src_lt hedge) (h.round.tree.up hs) habove (by omega)
    obtain ⟨frontier₂, hfold, hlen₂, hmem₂⟩ :=
      ih (fun q hq => hps q (mem_cons_of_mem r hq)) hlen₁
    refine ⟨frontier₂, ?_, hlen₂, fun x hx y => ?_⟩
    · rw [foldlM_cons, hrun]
      exact hfold
    · rw [hmem₂ x hx y, hmem₁ x hx y]
      constructor
      · rintro ((hold | ⟨rfl, hpass⟩) | ⟨rfl, q, hq, hpass⟩)
        · exact .inl hold
        · exact .inr ⟨rfl, r, mem_cons_self, hpass⟩
        · exact .inr ⟨rfl, q, mem_cons_of_mem r hq, hpass⟩
      · rintro (hold | ⟨rfl, q, hq, hpass⟩)
        · exact .inl (.inl hold)
        · rcases mem_cons.1 hq with rfl | hq
          · exact .inl (.inr ⟨rfl, hpass⟩)
          · exact .inr ⟨rfl, q, hq, hpass⟩

/-- `y` is put on the frontier of `x`. -/
def Walked (f : Func) (idom : List (Option ℕ)) (x y : ℕ) : Prop :=
  f.Reachable y ∧ 2 ≤ ((Cfg.build f).preds.getD y []).length ∧ ∃ s, parent idom y = some s ∧
    ∃ r, (Cfg.build f).graph.edge r y ∧ Passed f idom s x r

theorem addFrontier_spec (hf : f.blocks ≠ []) (h : Solved f idom) (hb : b < f.blocks.length)
    (hlen : frontier.length = f.blocks.length) :
    ∃ frontier', addFrontier (Cfg.build f) idom frontier b = .ok frontier' ∧
      frontier'.length = f.blocks.length ∧ ∀ x, f.Reachable x → ∀ y,
        (y ∈ frontier'.getD x [] ↔ y ∈ frontier.getD x [] ∨ (y = b ∧ Walked f idom x b)) := by
  obtain ⟨r, hr, hreach⟩ := Func.getElem?_reachable hb
  have hpreds : (Cfg.build f).preds[b]? = some ((Cfg.build f).preds.getD b []) := by
    have hlt : b < (Cfg.build f).preds.length := by rwa [Func.length_preds]
    rw [getD_eq_getElem?_getD, getElem?_eq_getElem hlt]
    rfl
  unfold addFrontier
  rw [fetch_eq hr]
  by_cases hbr : f.Reachable b
  · obtain rfl : r = true := hreach.2 hbr
    obtain ⟨s, hs⟩ := h.entered hbr
    -- a block with one predecessor at most is in no frontier
    by_cases hlong : 2 ≤ ((Cfg.build f).preds.getD b []).length
    · obtain ⟨frontier', hrun, hlen', hmem⟩ := foldlM_runFrontier hf h hs
        ((Cfg.build f).preds.getD b []) (fun q hq => (Func.mem_preds hb).1 hq) hlen
      refine ⟨frontier', ?_, hlen', fun x hx y => ?_⟩
      · rw [fetch_eq hpreds]
        show (if 2 ≤ ((Cfg.build f).preds.getD b []).length then _ else _) = _
        rw [if_pos hlong, fetch_parent (lt_of_parent hs), hs]
        exact hrun
      · rw [hmem x hx y]
        refine or_congr_right (and_congr_right fun _ => ?_)
        constructor
        · rintro ⟨q, hq, hpass⟩
          exact ⟨hbr, hlong, s, hs, q, (Func.mem_preds hb).1 hq, hpass⟩
        · rintro ⟨-, -, s', hs', q, hq, hpass⟩
          rw [hs] at hs'
          cases hs'
          exact ⟨q, (Func.mem_preds hb).2 hq, hpass⟩
    · refine ⟨frontier, ?_, hlen, fun x _ y => ?_⟩
      · rw [fetch_eq hpreds]
        show (if 2 ≤ ((Cfg.build f).preds.getD b []).length then _ else _) = _
        rw [if_neg hlong]
      · refine ⟨.inl, fun hor => hor.resolve_right ?_⟩
        rintro ⟨-, -, hlong', -⟩
        exact hlong hlong'
  · have hrfalse : r = false := by
      cases r with
      | false => rfl
      | true => exact absurd (hreach.1 rfl) hbr
    subst hrfalse
    refine ⟨frontier, rfl, hlen, fun x _ y => ?_⟩
    refine ⟨.inl, fun hor => hor.resolve_right ?_⟩
    rintro ⟨-, hreach', -⟩
    exact hbr hreach'

/-- **The frontiers**, of the blocks of a list. -/
theorem mem_addFrontiers (hf : f.blocks ≠ []) (h : Solved f idom) (bs : List ℕ)
    (hbs : ∀ b ∈ bs, b < f.blocks.length) (hlen : frontier.length = f.blocks.length) :
    ∃ frontier', bs.foldlM (addFrontier (Cfg.build f) idom) frontier = .ok frontier' ∧
      ∀ x, f.Reachable x → ∀ y,
        (y ∈ frontier'.getD x [] ↔ y ∈ frontier.getD x [] ∨ (y ∈ bs ∧ Walked f idom x y)) := by
  induction bs generalizing frontier with
  | nil => exact ⟨frontier, rfl, fun x _ y => by simp⟩
  | cons b bs ih =>
    obtain ⟨frontier₁, hrun, hlen₁, hmem₁⟩ :=
      addFrontier_spec hf h (hbs b mem_cons_self) hlen
    obtain ⟨frontier₂, hfold, hmem₂⟩ :=
      ih (fun q hq => hbs q (mem_cons_of_mem b hq)) hlen₁
    refine ⟨frontier₂, ?_, fun x hx y => ?_⟩
    · rw [foldlM_cons, hrun]
      exact hfold
    · rw [hmem₂ x hx y, hmem₁ x hx y, mem_cons]
      constructor
      · rintro ((hold | ⟨rfl, hwalk⟩) | ⟨hy, hwalk⟩)
        · exact .inl hold
        · exact .inr ⟨.inl rfl, hwalk⟩
        · exact .inr ⟨.inr hy, hwalk⟩
      · rintro (hold | ⟨rfl | hy, hwalk⟩)
        · exact .inl (.inl hold)
        · exact .inl (.inr ⟨rfl, hwalk⟩)
        · exact .inr ⟨hy, hwalk⟩

end

variable {f : Func}

theorem exists_tree {idom : List (Option ℕ)} (h : Solved f idom) :
    ∃ tree, idom.zipIdx.foldlM addChild (replicate f.blocks.length []) = .ok tree ∧
      tree.length = f.blocks.length := by
  refine exists_foldlM _ ?_ _ (by simp)
  intro s hs tree hlen
  unfold addChild
  cases hp : s.1 with
  | none => exact ⟨tree, rfl, hlen⟩
  | some p =>
    have hparent : parent idom s.2 = some p := by
      unfold parent
      rw [mem_zipIdx_iff_getElem?.1 hs, hp]
      rfl
    by_cases hne : p ≠ s.2
    · refine ⟨tree.modify p (· ++ [s.2]), ?_, by rw [length_modify, hlen]⟩
      show (if p ≠ s.2 then _ else _) = _
      rw [if_pos hne, pushAt_eq (by rw [hlen]; exact h.lt hparent)]
    · refine ⟨tree, ?_, hlen⟩
      show (if p ≠ s.2 then _ else _) = _
      rw [if_neg hne]

/-- **What `compute` returns**: a settled table, and the frontiers of the walks. -/
theorem compute_spec (hf : f.blocks ≠ []) :
    ∃ d, DomInfo.compute f (Cfg.build f) = .ok d ∧ Solved f d.idom ∧
      ∀ x, f.Reachable x → ∀ y, (y ∈ d.frontier.getD x [] ↔ Walked f d.idom x y) := by
  have hstart := atRound_start hf
  have hweight := weight_le hf _ fun b c hc => by
    obtain ⟨d, hd⟩ := hstart.round.tree.up hc
    exact Func.reachable_of_reached hf (hstart.round.tree.reached hd)
  obtain ⟨idom, hrounds, hsolved⟩ := rounds_spec hf (fun b hb => getElem?_numberRpo hf hb)
    (f.blocks.length * f.blocks.length + 1) _ hstart (Nat.lt_succ_of_le hweight)
  obtain ⟨tree, htree, -⟩ := exists_tree hsolved
  have hlen : (replicate f.blocks.length ([] : List ℕ)).length = f.blocks.length :=
    length_replicate
  obtain ⟨frontier, hfrontier, hmem⟩ := mem_addFrontiers hf hsolved (range f.blocks.length)
    (fun b hb => mem_range.1 hb) hlen
  refine ⟨⟨idom, tree, frontier.map List.eraseDups⟩, ?_, hsolved, fun x hx y => ?_⟩
  · have hlength : f.blocks.length ≠ 0 := fun h => hf (length_eq_zero_iff.1 h)
    unfold DomInfo.compute
    simp only [if_neg hlength]
    rw [hrounds]
    show (List.foldlM addChild _ _ >>= _) = _
    rw [htree]
    rw [hfrontier]
    rfl
  -- dropping duplicates leaves the members
  · have hdedup : y ∈ (frontier.map List.eraseDups).getD x [] ↔ y ∈ frontier.getD x [] := by
      simp only [getD_eq_getElem?_getD, getElem?_map]
      cases frontier[x]? with
      | none => simp
      | some l => simp
    rw [hdedup, hmem x hx y]
    have hnil : (replicate f.blocks.length ([] : List ℕ)).getD x [] = [] := by
      rw [getD_eq_getElem?_getD, getElem?_replicate]
      split_ifs with hlt
      · rfl
      · rfl
    rw [hnil]
    constructor
    · rintro (hy | ⟨-, hwalk⟩)
      · cases hy
      · exact hwalk
    · exact fun hwalk => .inr ⟨mem_range.2 hwalk.1.1, hwalk⟩

/-- **Dominators.** For every function the computation returns, and then `dominates` tells of any
two reachable blocks whether every path from the entry to the second passes through the first. -/
theorem compute_dominates (f : Func) : ∃ d, DomInfo.compute f (Cfg.build f) = .ok d ∧
      ∀ a b, f.Reachable a → f.Reachable b → ∃ r, d.dominates a b = .ok r ∧
        (r = true ↔ ∀ path, (Cfg.build f).graph.Walk path b → a ∈ path) := by
  by_cases hf : f.blocks = []
  · refine ⟨⟨[], [], []⟩, ?_, fun a b ha _ => ?_⟩
    · unfold DomInfo.compute
      simp [hf]
    · have := ha.1
      simp [hf] at this
  · obtain ⟨d, hd, hsolved, -⟩ := compute_spec hf
    refine ⟨d, hd, fun a b _ hb => ?_⟩
    have h₁ := Func.place_lt hf hb
    have h₂ := Func.rpo_length_le hf
    obtain ⟨r, hrun, hr⟩ := climbTo_spec hf hsolved a (d.idom.length + 1) hb
      (by rw [hsolved.length]; omega)
    exact ⟨r, hrun, hr.trans (hsolved.above_iff hf hb)⟩

/-! ## Frontiers -/

section

variable {f : Func} (hf : f.blocks ≠ []) {idom : List (Option ℕ)} (h : Solved f idom)

include hf h

/-- For a block that is not the entry the walks are right: when there is only one predecessor, it
is the immediate dominator. -/
theorem walked_iff {y : ℕ} (hy : y ≠ 0) : Walked f idom x y ↔ (Cfg.build f).graph.Frontier x y := by
  constructor
  · rintro ⟨hyr, -, s, hs, r, hedge, hr, hxr, hxs⟩
    refine ⟨r, hedge, hr.2, (h.above_iff hf hr).1 hxr, ?_⟩
    rintro ⟨hdom, hne⟩
    exact hxs ((h.round.tree.above_parent hs hy).2 ⟨(h.above_iff hf hyr).2 hdom, hne⟩)
  · rintro ⟨p, hedge, hp, hdom, hnot⟩
    have hpr := Func.reachable_of_reached hf hp
    have hyr := hpr.step hedge
    obtain ⟨s, hs, hjoins⟩ := h.settled hyr hy
    have hxp := (h.above_iff hf hpr).2 hdom
    have hxs : ¬ Above (parent idom) x s := by
      intro hxs
      obtain ⟨hxy, hne⟩ := (h.round.tree.above_parent hs hy).1 hxs
      exact hnot ⟨(h.above_iff hf hyr).1 hxy, hne⟩
    have hmem := (Func.mem_preds hyr.1).2 hedge
    refine ⟨hyr, ?_, s, hs, p, hedge, hpr, hxp, hxs⟩
    by_contra hshort
    obtain ⟨q, hq⟩ : ∃ q, (Cfg.build f).preds.getD y [] = [q] := by
      refine length_eq_one_iff.1 ?_
      have := length_pos_of_mem hmem
      omega
    refine hxs ((hjoins.above x).2 fun r hr => ?_)
    have hrmem := (Func.mem_preds hyr.1).2 hr.1
    rw [hq, mem_singleton] at hmem hrmem
    rwa [hrmem, ← hmem]

omit hf in
theorem not_walked_entry : ¬ Walked f idom 0 0 := by
  rintro ⟨-, -, s, hs, r, -, -, -, hnot⟩
  have hroot : parent idom 0 = some 0 := h.round.tree.root
  rw [hs] at hroot
  rw [some.inj hroot] at hnot
  exact hnot (Above.refl 0)

end

/-- The computed frontiers are the dominance frontiers. -/
def FrontiersExact (f : Func) : Prop :=
  ∃ d, DomInfo.compute f (Cfg.build f) = .ok d ∧
    ∀ x, f.Reachable x → ∀ y, y ∈ d.frontier.getD x [] ↔ (Cfg.build f).graph.Frontier x y

theorem not_frontiersExact {p : ℕ} (hp : f.Reachable p)
    (hedge : (Cfg.build f).graph.edge p 0) : ¬ FrontiersExact f := by
  have hf : f.blocks ≠ [] := by
    intro hnil
    have := hp.1
    simp [hnil] at this
  rintro ⟨d, hd, hexact⟩
  obtain ⟨d', hd', hsolved, hmem⟩ := compute_spec hf
  rw [hd] at hd'
  cases hd'
  have hentry := Func.reachable_entry hf
  refine not_walked_entry hsolved ((hmem 0 hentry 0).1 ((hexact 0 hentry 0).2 ?_))
  exact ⟨p, hedge, hp.2, FlowGraph.dominates_entry p, fun hstrict => hstrict.2 rfl⟩

/-- **Frontiers.** They are the dominance frontiers exactly if no reachable block leads back to the
entry block. -/
theorem frontier_exact_iff (f : Func) :
    FrontiersExact f ↔ ∀ p, f.Reachable p → ¬ (Cfg.build f).graph.edge p 0 := by
  constructor
  · intro hexact p hp hedge
    exact not_frontiersExact hp hedge hexact
  · intro hback
    by_cases hf : f.blocks = []
    · refine ⟨⟨[], [], []⟩, ?_, fun x hx => ?_⟩
      · unfold DomInfo.compute
        simp [hf]
      · have := hx.1
        simp [hf] at this
    · obtain ⟨d, hd, hsolved, hmem⟩ := compute_spec hf
      refine ⟨d, hd, fun x hx y => ?_⟩
      rw [hmem x hx y]
      by_cases hy : y = 0
      · -- nothing that is reachable leads to the entry
        subst hy
        constructor
        · rintro ⟨-, -, s, -, r, hedge, hr, -⟩
          exact absurd hedge (hback r hr)
        · rintro ⟨p, hedge, hp, -⟩
          exact absurd hedge (hback p (Func.reachable_of_reached hf hp))
      · exact walked_iff hf hsolved hy

/-- A function whose first block is a loop. -/
def loopAtEntry : Func where
  name := "f"
  params := [.i1]
  ret := .void
  blocks :=
    [{ name := "entry", insts := [], term := .condBr 0 0 1 },
      { name := "exit", insts := [], term := .ret none }]
  sourceFile := none

theorem loopAtEntry_frontiers : ¬ FrontiersExact loopAtEntry :=
  not_frontiersExact (p := 0) ⟨by decide, FlowGraph.Reached.entry⟩
    (show 0 ∈ edgesOf (Cfg.build loopAtEntry).succs 0 by decide)

end Arth.Ir
