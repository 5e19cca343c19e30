import Mathlib

/-!
# Dominance in a flow graph, and the tree that tells it

A node dominates another when every walk from the entry to the second passes through the first.
The tree of immediate dominators is found by rounds over the nodes in a fixed order: the parent of
a node becomes the meeting point, in the tree so far, of its predecessors that are in the tree.

* `FlowGraph.Dominates` — the definition, by walks.
* `Numbering` — an order of the nodes in which every node but the entry has a predecessor before it.
* `Joins` — a node whose ancestors are those the given nodes have in common.
* `Round` — what holds of the tree when a round reaches a position of the order; `Round.update` is
  the step, `Round.above_update` says that a parent only ever moves up.
* `above_iff_dominates` — when no parent can move, the ancestors of a node are its dominators.
-/

namespace Dominance

open Relation List Option Function

variable {α : Type*} {b x p c y d v : α}

structure FlowGraph (α : Type*) where
  entry : α
  edge : α → α → Prop

namespace FlowGraph

variable (G : FlowGraph α)

/-- A walk from the entry to a node, with its nodes from the last to the first. -/
inductive Walk : List α → α → Prop
  | start : Walk [G.entry] G.entry
  | step {w : List α} {a b : α} : Walk w a → G.edge a b → Walk (b :: w) b

def Reached (b : α) : Prop := ∃ w, G.Walk w b

def Dominates (a b : α) : Prop := ∀ w, G.Walk w b → a ∈ w

/-- The frontier of `x`: where its dominance ends. -/
def Frontier (x y : α) : Prop :=
  ∃ p, G.edge p y ∧ G.Reached p ∧ G.Dominates x p ∧ ¬ (G.Dominates x y ∧ x ≠ y)

variable {G}

theorem Reached.entry : G.Reached G.entry := ⟨_, .start⟩

theorem Reached.step {a : α} (h : G.Reached a) (hedge : G.edge a b) : G.Reached b := by
  obtain ⟨w, hw⟩ := h
  exact ⟨_, hw.step hedge⟩

theorem reached_iff : G.Reached b ↔ ReflTransGen G.edge G.entry b := by
  constructor
  · rintro ⟨w, hw⟩
    induction hw with
    | start => exact .refl
    | step _ hedge ih => exact ih.tail hedge
  · intro h
    induction h with
    | refl => exact Reached.entry
    | tail _ hedge ih => exact ih.step hedge

theorem dominates_entry (b : α) : G.Dominates G.entry b := by
  intro w hw
  induction hw with
  | start => exact mem_singleton_self _
  | step _ _ ih => exact mem_cons_of_mem _ ih

theorem Dominates.eq_entry (h : G.Dominates x G.entry) : x = G.entry :=
  mem_singleton.1 (h _ .start)

theorem Dominates.of_edge (h : G.Dominates x b) (hx : x ≠ b) (hedge : G.edge p b) :
    G.Dominates x p := by
  intro w hw
  rcases mem_cons.1 (h _ (hw.step hedge)) with h | h
  · exact absurd h hx
  · exact h

end FlowGraph

/-- Every reached node but the entry has the predecessor `fwd` before it in the order. -/
structure Numbering (G : FlowGraph α) (idx : α → ℕ) (fwd : α → α) : Prop where
  inj {a b : α} : G.Reached a → G.Reached b → idx a = idx b → a = b
  edge {b : α} : G.Reached b → b ≠ G.entry → G.edge (fwd b) b
  reached {b : α} : G.Reached b → b ≠ G.entry → G.Reached (fwd b)
  lt {b : α} : G.Reached b → b ≠ G.entry → idx (fwd b) < idx b

section Order

variable {G : FlowGraph α} {idx : α → ℕ} {fwd : α → α}

theorem Numbering.exists_walk (N : Numbering G idx fwd) (hb : G.Reached b) :
    ∃ w, G.Walk w b ∧ ∀ x ∈ w, idx x ≤ idx b := by
  induction hn : idx b using Nat.strong_induction_on generalizing b with
  | _ n ih =>
    by_cases hentry : b = G.entry
    · subst hentry
      refine ⟨_, .start, fun x hx => ?_⟩
      rw [mem_singleton.1 hx, hn]
    · have hlt := N.lt hb hentry
      obtain ⟨w, hw, hle⟩ := ih _ (hn ▸ hlt) (N.reached hb hentry) rfl
      refine ⟨b :: w, hw.step (N.edge hb hentry), fun x hx => ?_⟩
      rcases mem_cons.1 hx with rfl | hx
      · exact hn.le
      · have := hle x hx
        omega

theorem Numbering.idx_le (N : Numbering G idx fwd) (hb : G.Reached b)
    (h : G.Dominates x b) : idx x ≤ idx b := by
  obtain ⟨w, hw, hle⟩ := N.exists_walk hb
  exact hle x (h w hw)

end Order

/-! ## Ancestors in a table of parents -/

section Above

variable {par : α → Option α}

/-- `x` is `b` or an ancestor of `b`. -/
def Above (par : α → Option α) (x b : α) : Prop := ReflTransGen (fun b c => par b = some c) b x

theorem Above.refl (b : α) : Above par b b := ReflTransGen.refl

theorem Above.of_par (hpar : par b = some c) (h : Above par x c) : Above par x b :=
  ReflTransGen.head hpar h

theorem Above.trans (hx : Above par x y) (hy : Above par y b) : Above par x b :=
  ReflTransGen.trans hy hx

theorem above_iff (hpar : par b = some c) (x : α) : Above par x b ↔ x = b ∨ Above par x c := by
  constructor
  · intro h
    rcases ReflTransGen.cases_head h with rfl | ⟨d, hd, h⟩
    · exact .inl rfl
    · rw [hpar] at hd
      exact .inr (some.inj hd ▸ h)
  · rintro (rfl | h)
    · exact Above.refl x
    · exact h.of_par hpar

theorem Above.total (hx : Above par x b) (hy : Above par y b) : Above par x y ∨ Above par y x := by
  have hunique : Relator.RightUnique fun b c => par b = some c := by
    intro a b c hb hc
    exact some.inj (hb.symm.trans hc)
  exact (ReflTransGen.total_of_right_unique hunique hx hy).symm

end Above

/-- The table is a tree over reached nodes with the entry as its root, and parents come before
their children in the order. -/
structure Tree (G : FlowGraph α) (idx : α → ℕ) (par : α → Option α) : Prop where
  root : par G.entry = some G.entry
  lower {b c : α} : par b = some c → b ≠ G.entry → idx c < idx b
  up {b c : α} : par b = some c → ∃ d, par c = some d
  reached {b c : α} : par b = some c → G.Reached b

section Tree

variable {G : FlowGraph α} {idx : α → ℕ} {fwd : α → α} {par : α → Option α}

section

variable (T : Tree G idx par)
include T

theorem Tree.above_entry (h : Above par x G.entry) : x = G.entry := by
  induction h with
  | refl => rfl
  | tail _ hlast ih =>
    rw [ih, T.root] at hlast
    exact (some.inj hlast).symm

theorem Tree.idx_le (h : Above par x b) : idx x ≤ idx b := by
  induction h with
  | refl => exact le_refl _
  | @tail y z _ hlast ih =>
    by_cases hentry : y = G.entry
    · rw [hentry, T.root] at hlast
      rwa [← some.inj hlast, ← hentry]
    · have := T.lower hlast hentry
      omega

theorem Tree.inTree (hpar : par b = some c) (h : Above par x b) : ∃ d, par x = some d := by
  induction h with
  | refl => exact ⟨c, hpar⟩
  | tail _ hlast ih => exact T.up hlast

theorem Tree.antisymm (hxy : Above par x y) (hyx : Above par y x) : x = y := by
  rcases ReflTransGen.cases_head hxy with rfl | ⟨z, hz, hxz⟩
  · rfl
  · by_cases hentry : y = G.entry
    · subst hentry
      exact T.above_entry hxy
    · have h₁ := T.lower hz hentry
      have h₂ := T.idx_le hxz
      have h₃ := T.idx_le hyx
      omega

theorem Tree.above_parent (hpar : par b = some c)
    (hb : b ≠ G.entry) : Above par x c ↔ Above par x b ∧ x ≠ b := by
  constructor
  · intro h
    refine ⟨h.of_par hpar, ?_⟩
    rintro rfl
    have h₁ := T.lower hpar hb
    have h₂ := T.idx_le h
    omega
  · rintro ⟨h, hx⟩
    exact ((above_iff hpar x).1 h).resolve_left hx

theorem Tree.idx_lt (hpar : par b = some c) (h : Above par x b) (hx : x ≠ b) : idx x < idx b := by
  have hb : b ≠ G.entry := by
    rintro rfl
    exact hx (T.above_entry h)
  have h₁ := T.idx_le ((T.above_parent hpar hb).2 ⟨h, hx⟩)
  have h₂ := T.lower hpar hb
  omega

end

/-- The parent of a node is dominated by every dominator of the node but the node. -/
def Sound (G : FlowGraph α) (par : α → Option α) : Prop :=
  ∀ b c, par b = some c → ∀ x, G.Dominates x b → x ≠ b → G.Dominates x c

theorem Sound.above (T : Tree G idx par) (hsound : Sound G par)
    (hpar : par b = some c) (h : G.Dominates x b) : Above par x b := by
  induction hn : idx b using Nat.strong_induction_on generalizing b c with
  | _ n ih =>
    by_cases hx : x = b
    · rw [hx]
      exact Above.refl b
    · have hentry : b ≠ G.entry := by
        rintro rfl
        exact hx h.eq_entry
      obtain ⟨d, hd⟩ := T.up hpar
      have hlt := T.lower hpar hentry
      exact (ih _ (hn ▸ hlt) hd (hsound b c hpar x h hx) rfl).of_par hpar

/-- The ancestors of `c` are the common ancestors of the nodes of `P`, and `c` is dominated by all
that dominates them all. -/
structure Joins (G : FlowGraph α) (par : α → Option α) (P : α → Prop) (c : α) : Prop where
  above (x : α) : Above par x c ↔ ∀ p, P p → Above par x p
  dominated (x : α) : (∀ p, P p → G.Dominates x p) → G.Dominates x c
  inTree : ∃ d, par c = some d

theorem Joins.single (hp : par p = some d) : Joins G par (· = p) p where
  above x := by simp
  dominated x h := h p rfl
  inTree := ⟨d, hp⟩

theorem Joins.pair {P : α → Prop} {q : α} (hq : Joins G par P q)
    (hc : Joins G par (fun x => x = p ∨ x = q) c) : Joins G par (fun x => P x ∨ x = p) c where
  above x := by
    rw [hc.above]
    constructor
    · rintro h y (hy | rfl)
      · exact (hq.above x).1 (h q (.inr rfl)) y hy
      · exact h y (.inl rfl)
    · rintro h y (rfl | rfl)
      · exact h y (.inr rfl)
      · exact (hq.above x).2 fun z hz => h z (.inl hz)
  dominated x h := by
    refine hc.dominated x ?_
    rintro y (rfl | rfl)
    · exact h y (.inr rfl)
    · exact hq.dominated x fun z hz => h z (.inl hz)
  inTree := hc.inTree

theorem Joins.congr {P Q : α → Prop} (h : Joins G par P c) (hPQ : ∀ x, P x ↔ Q x) :
    Joins G par Q c := by
  have : P = Q := funext fun x => propext (hPQ x)
  rwa [← this]

/-- **One climb**: the later of two nodes may be replaced by its parent. -/
theorem Joins.climb (N : Numbering G idx fwd) (T : Tree G idx par) (hsound : Sound G par)
    {b₁ b₂ d₂ r : α} (h₁ : par b₁ = some c) (h₂ : par b₂ = some d₂) (hlt : idx b₂ < idx b₁)
    (hr : Joins G par (fun x => x = c ∨ x = b₂) r) : Joins G par (fun x => x = b₁ ∨ x = b₂) r where
  above x := by
    rw [hr.above]
    constructor
    · rintro h y (rfl | rfl)
      · exact (h c (.inl rfl)).of_par h₁
      · exact h y (.inr rfl)
    · have hne (hx₂ : Above par x b₂) : x ≠ b₁ := by
        rintro rfl
        have := T.idx_le hx₂
        omega
      rintro h y (rfl | rfl)
      · rcases (above_iff h₁ x).1 (h b₁ (.inl rfl)) with hx | hx
        · exact absurd hx (hne (h b₂ (.inr rfl)))
        · exact hx
      · exact h y (.inr rfl)
  dominated x h := by
    have hx₁ := h b₁ (.inl rfl)
    have hx₂ := h b₂ (.inr rfl)
    have hne : x ≠ b₁ := by
      rintro rfl
      have := N.idx_le (T.reached h₂) hx₂
      omega
    refine hr.dominated x ?_
    rintro y (rfl | rfl)
    · exact hsound b₁ y h₁ x hx₁ hne
    · exact hx₂
  inTree := hr.inTree

end Tree

/-! ## The rounds -/

section Update

variable {G : FlowGraph α} {idx : α → ℕ} {fwd : α → α} {par : α → Option α}

/-- The predecessors of a node that are in the tree. -/
def Entered (G : FlowGraph α) (par : α → Option α) (b p : α) : Prop :=
  G.edge p b ∧ ∃ d, par p = some d

/-- **What holds when a round reaches position `j`.** The common ancestors of the entered
predecessors of a node are ancestors of its parent; the parent is an ancestor of the predecessor
`fwd` if the round is past the node or has not reached the parent. -/
structure Round (G : FlowGraph α) (idx : α → ℕ) (fwd : α → α) (par : α → Option α) (j : ℕ) :
    Prop where
  tree : Tree G idx par
  sound : Sound G par
  upper {b d : α} : par b = some d → b ≠ G.entry →
    ∀ x, (∀ p, Entered G par b p → Above par x p) → Above par x d
  settled {b d : α} : par b = some d → b ≠ G.entry → idx b < j ∨ j ≤ idx d →
    Above par d (fwd b)
  entered {a : α} : G.Reached a → idx a < j → ∃ d, par a = some d

namespace Round

variable {j : ℕ} {b c : α}

section

variable (h : Round G idx fwd par j)
include h

theorem fwd_entered (N : Numbering G idx fwd) (hb : G.Reached b)
    (hentry : b ≠ G.entry) (hj : idx b = j) : Entered G par b (fwd b) :=
  ⟨N.edge hb hentry, h.entered (N.reached hb hentry) (hj ▸ N.lt hb hentry)⟩

theorem idx_lt (N : Numbering G idx fwd) (hb : G.Reached b)
    (hentry : b ≠ G.entry) (hj : idx b = j) (hc : Joins G par (Entered G par b) c) :
    idx c < idx b := by
  have habove := (hc.above c).1 (Above.refl c) _ (h.fwd_entered N hb hentry hj)
  have h₁ := h.tree.idx_le habove
  have h₂ := N.lt hb hentry
  omega

/-- **A parent only moves up.** -/
theorem above_old (hentry : b ≠ G.entry)
    (hc : Joins G par (Entered G par b) c) (hd : par b = some d) : Above par c d :=
  h.upper hd hentry c ((hc.above c).1 (Above.refl c))

theorem restart (hj : ∀ a, G.Reached a → idx a < j) (hone : 1 ≤ j) : Round G idx fwd par 1 where
  tree := h.tree
  sound := h.sound
  upper := h.upper
  settled {b d} hd hb _ := h.settled hd hb (.inl (hj b (h.tree.reached hd)))
  entered {a} ha hlt := h.entered ha (by omega)

end

end Round

variable [DecidableEq α]

theorem above_update_of_not (h : ¬ Above par b v) (c : Option α) (x : α) :
    Above (update par b c) x v ↔ Above par x v := by
  constructor
  · intro hx
    induction hx with
    | refl => exact Above.refl v
    | @tail y z _ hlast ih =>
      have hy : y ≠ b := by
        rintro rfl
        exact h ih
      rw [update_of_ne hy] at hlast
      exact ih.tail hlast
  · intro hx
    induction hx with
    | refl => exact Above.refl v
    | @tail y z hyv hlast ih =>
      have hy : y ≠ b := by
        rintro rfl
        exact h hyv
      refine ih.tail ?_
      rw [update_of_ne hy]
      exact hlast

theorem Tree.above_update_of_le (T : Tree G idx par) (hb : b ≠ G.entry)
    (hy : idx b ≤ idx y) (h : Above par y v) (c : Option α) :
    Above (update par b c) y v := by
  induction h using ReflTransGen.head_induction_on with
  | refl => exact Above.refl y
  | @head u w huw hwy ih =>
    have hu : u ≠ b := by
      rintro rfl
      have h₁ := T.lower huw hb
      have h₂ := T.idx_le hwy
      omega
    refine ReflTransGen.head ?_ ih
    rw [update_of_ne hu]
    exact huw

theorem above_of_update (hd : par b = some d) (hcd : Above par c d)
    (h : Above (update par b (some c)) x v) : Above par x v := by
  induction h with
  | refl => exact Above.refl v
  | @tail y z _ hlast ih =>
    by_cases hy : y = b
    · subst hy
      rw [update_self] at hlast
      rw [← some.inj hlast]
      exact (hcd.of_par hd).trans ih
    · rw [update_of_ne hy] at hlast
      exact ih.tail hlast

theorem Entered.update (hp : Entered G par v p) : Entered G (update par b (some c)) v p := by
  obtain ⟨hedge, d, hd⟩ := hp
  refine ⟨hedge, ?_⟩
  by_cases hpb : p = b
  · exact ⟨c, by rw [hpb, update_self]⟩
  · exact ⟨d, by rw [update_of_ne hpb, hd]⟩

namespace Round

variable {j : ℕ} {b c : α}

section

variable (h : Round G idx fwd par j)
include h

theorem tree_update (N : Numbering G idx fwd) (hb : G.Reached b)
    (hentry : b ≠ G.entry) (hj : idx b = j) (hc : Joins G par (Entered G par b) c) :
    Tree G idx (update par b (some c)) where
  root := by
    rw [update_of_ne (Ne.symm hentry)]
    exact h.tree.root
  lower {v d} hd hv := by
    by_cases hvb : v = b
    · subst hvb
      rw [update_self] at hd
      rw [← some.inj hd]
      exact h.idx_lt N hb hentry hj hc
    · rw [update_of_ne hvb] at hd
      exact h.tree.lower hd hv
  up {v d} hd := by
    have hup : ∃ e, par d = some e := by
      by_cases hvb : v = b
      · subst hvb
        rw [update_self] at hd
        rw [← some.inj hd]
        exact hc.inTree
      · rw [update_of_ne hvb] at hd
        exact h.tree.up hd
    by_cases hdb : d = b
    · exact ⟨c, by rw [hdb, update_self]⟩
    · rw [update_of_ne hdb]
      exact hup
  reached {v d} hd := by
    by_cases hvb : v = b
    · exact hvb ▸ hb
    · rw [update_of_ne hvb] at hd
      exact h.tree.reached hd

theorem sound_update (hc : Joins G par (Entered G par b) c) : Sound G (update par b (some c)) := by
  intro v d hd x hx hxv
  by_cases hvb : v = b
  · subst hvb
    rw [update_self] at hd
    rw [← some.inj hd]
    exact hc.dominated x fun p hp => hx.of_edge hxv hp.1
  · rw [update_of_ne hvb] at hd
    exact h.sound v d hd x hx hxv

theorem above_update_of_lt (hv : idx v < idx b)
    (e : Option α) (x : α) : Above (update par b e) x v ↔ Above par x v := by
  refine above_update_of_not (fun habove => ?_) e x
  have := h.tree.idx_le habove
  omega

theorem above_of_update (hentry : b ≠ G.entry)
    (hc : Joins G par (Entered G par b) c) {e : α} (hv : par v = some e)
    (hx : Above (update par b (some c)) x v) : Above par x v := by
  cases hb : par b with
  | some d => exact Dominance.above_of_update hb (h.above_old hentry hc hb) hx
  | none =>
    refine (above_update_of_not (fun habove => ?_) _ x).1 hx
    obtain ⟨d, hd⟩ := h.tree.inTree hv habove
    rw [hb] at hd
    cases hd

theorem upper_update (N : Numbering G idx fwd) (hb : G.Reached b)
    (hentry : b ≠ G.entry) (hj : idx b = j) (hc : Joins G par (Entered G par b) c)
    (hd : update par b (some c) v = some d) (hv : v ≠ G.entry) (x : α)
    (hx : ∀ p, Entered G (update par b (some c)) v p →
      Above (update par b (some c)) x p) : Above (update par b (some c)) x d := by
  have hold : ∀ p, Entered G par v p → Above par x p := by
    intro p hp
    obtain ⟨e, he⟩ := hp.2
    exact h.above_of_update hentry hc he (hx p hp.update)
  by_cases hvb : v = b
  · subst hvb
    rw [update_self] at hd
    rw [← some.inj hd, h.above_update_of_lt (h.idx_lt N hb hentry hj hc)]
    exact (hc.above x).2 hold
  · rw [update_of_ne hvb] at hd
    have hxd := h.upper hd hv x hold
    by_cases hbd : Above par b d
    · -- `b` is an ancestor of the parent, which the round has then not reached
      have hle := h.tree.idx_le hbd
      have hsettled := h.settled hd hv (.inr (hj ▸ hle))
      have hreached := h.tree.reached hd
      have hentered : Entered G par v (fwd v) := by
        refine ⟨N.edge hreached hv, ?_⟩
        rcases ReflTransGen.cases_head hsettled with heq | ⟨e, he, -⟩
        · rw [heq]
          exact h.tree.up hd
        · exact ⟨e, he⟩
      have hline := (hx _ hentered.update).total (h.tree.above_update_of_le hentry hle hsettled _)
      rcases hline with hline | hline
      · exact hline
      · obtain ⟨e, he⟩ := h.tree.up hd
        obtain ⟨e', he'⟩ := h.tree.inTree he hxd
        have hback := h.above_of_update hentry hc he' hline
        rw [h.tree.antisymm hxd hback]
        exact Above.refl d
    · rw [above_update_of_not hbd]
      exact hxd

theorem settled_update (N : Numbering G idx fwd) (hb : G.Reached b)
    (hentry : b ≠ G.entry) (hj : idx b = j) (hc : Joins G par (Entered G par b) c)
    (hd : update par b (some c) v = some d) (hv : v ≠ G.entry)
    (hpos : idx v < j + 1 ∨ j + 1 ≤ idx d) : Above (update par b (some c)) d (fwd v) := by
  by_cases hvb : v = b
  · subst hvb
    rw [update_self] at hd
    rw [← some.inj hd, h.above_update_of_lt (N.lt hb hentry)]
    exact (hc.above c).1 (Above.refl c) _ (h.fwd_entered N hb hentry hj)
  · rw [update_of_ne hvb] at hd
    have hreached := h.tree.reached hd
    rcases hpos with hpos | hpos
    · have hne : idx v ≠ idx b := fun heq => hvb (N.inj hreached hb heq)
      have hlt : idx (fwd v) < idx b := by
        have := N.lt hreached hv
        omega
      rw [h.above_update_of_lt hlt]
      exact h.settled hd hv (.inl (by omega))
    · refine h.tree.above_update_of_le hentry (by omega) ?_ _
      exact h.settled hd hv (.inr (by omega))

/-- **One position**: the node there takes the meeting point of its entered predecessors. -/
theorem update (N : Numbering G idx fwd) (hb : G.Reached b)
    (hentry : b ≠ G.entry) (hj : idx b = j) (hc : Joins G par (Entered G par b) c) :
    Round G idx fwd (update par b (some c)) (j + 1) where
  tree := h.tree_update N hb hentry hj hc
  sound := h.sound_update hc
  upper := h.upper_update N hb hentry hj hc
  settled := h.settled_update N hb hentry hj hc
  entered {a} ha hlt := by
    by_cases hab : a = b
    · exact ⟨c, by rw [hab, update_self]⟩
    · have hne : idx a ≠ idx b := fun heq => hab (N.inj ha hb heq)
      rw [update_of_ne hab]
      exact h.entered ha (by omega)

end

theorem start (hone : ∀ a, G.Reached a → idx a < 1 → a = G.entry) :
    Round G idx fwd (fun v => if v = G.entry then some G.entry else none) 1 where
  tree :=
    { root := if_pos rfl
      lower := by
        intro b c hc hb
        rw [if_neg hb] at hc
        cases hc
      up := by
        intro b c hc
        by_cases hb : b = G.entry
        · rw [if_pos hb] at hc
          exact ⟨G.entry, by rw [← some.inj hc, if_pos rfl]⟩
        · rw [if_neg hb] at hc
          cases hc
      reached := by
        intro b c hc
        by_cases hb : b = G.entry
        · rw [hb]
          exact FlowGraph.Reached.entry
        · rw [if_neg hb] at hc
          cases hc }
  sound := by
    intro b c hc x hx hxb
    by_cases hb : b = G.entry
    · subst hb
      exact absurd hx.eq_entry hxb
    · simp [hb] at hc
  upper := by
    intro b d hd hb
    rw [if_neg hb] at hd
    cases hd
  settled := by
    intro b d hd hb
    rw [if_neg hb] at hd
    cases hd
  entered {a} ha hlt := ⟨G.entry, by rw [if_pos (hone a ha hlt)]⟩

end Round

/-- **The ancestors are the dominators**, when every node but the entry has the meeting point of
its predecessors as its parent. -/
theorem above_iff_dominates (h : Round G idx fwd par 1)
    (hentered : ∀ a, G.Reached a → ∃ d, par a = some d)
    (hjoins : ∀ b c, par b = some c → b ≠ G.entry → Joins G par (Entered G par b) c)
    (hb : G.Reached b) : Above par x b ↔ G.Dominates x b := by
  constructor
  · intro hx w hw
    induction hw with
    | start =>
      rw [h.tree.above_entry hx]
      exact mem_singleton_self _
    | @step w a b hw hedge ih =>
      by_cases hentry : b = G.entry
      · rw [hentry] at hx ⊢
        rw [h.tree.above_entry hx]
        exact mem_cons_self
      · obtain ⟨c, hc⟩ := hentered b hb
        rcases (above_iff hc x).1 hx with rfl | hx
        · exact mem_cons_self
        · have ha : G.Reached a := ⟨w, hw⟩
          have hxa := ((hjoins b c hc hentry).above x).1 hx a ⟨hedge, hentered a ha⟩
          exact mem_cons_of_mem b (ih ha hxa)
  · intro hx
    obtain ⟨c, hc⟩ := hentered b hb
    exact h.sound.above h.tree hc hx

end Update

end Dominance
