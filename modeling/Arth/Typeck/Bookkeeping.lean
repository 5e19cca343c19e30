import Arth.Typeck.Lifetime

/-!
# The mirrors of the borrow tables

* `Booked` — what the four tables have to say of each other.
* `Meets`, `Joins` — when an operation, or the meeting of two paths, keeps them in step.
* `booked_of_careful` — in a run whose operations all do, the tables agree throughout.
-/

namespace Arth.Typeck

open KeyTable LifetimeEnv List Option

/-- The tables of an environment agree: an active borrow of a local is on the list of that
local and the list holds nothing else, no two regions share a number, a local that is borrowed
exclusively is borrowed once, and what a holder names is active. -/
structure Booked (e : LifetimeEnv) : Prop where
  listed : ∀ r b x, e.active r = some b → b.origin = .local x →
    ∃ lt, e.known x = some lt ∧ r ∈ lt.borrowedBy
  listsActive : ∀ x lt r, e.known x = some lt → r ∈ lt.borrowedBy →
    ∃ b, e.active r = some b ∧ b.origin = .local x
  region : ∀ r b, e.active r = some b → b.region = r
  storageActive : ∀ x lt, e.known x = some lt → e.active lt.storageRegion = none
  storageUnique : ∀ x y lt lt', e.known x = some lt → e.known y = some lt' →
    lt.storageRegion = lt'.storageRegion → x = y
  exclusive : ∀ r r' b b' x, e.active r = some b → e.active r' = some b' →
    b.origin = .local x → b'.origin = .local x → r ≠ r' → b.mode = .shared
  held : ∀ h lt r, e.known h = some lt → lt.holdsBorrow = some r → ∃ b, e.active r = some b

/-- The number that the generator gives next is not in use. -/
def Fresh (e : LifetimeEnv) : Prop :=
  e.active e.nextId = none ∧ ∀ p ∈ e.localLifetimes.entries, p.2.storageRegion ≠ e.nextId

/-- When an operation keeps the tables in step: a region gets a number that is not in use, a
name is declared again only when nothing borrows from it, and a scope ends only when no local
holds a borrow that was made in it. -/
def Meets (e : LifetimeEnv) : Op → Prop
  | .declareLocal name => Fresh e ∧ e.listed name = []
  | .declareParam name => Fresh e ∧ e.listed name = []
  | .pushScope => True
  | .popScope => ∀ r ∈ e.scopeRegions.head?.getD [], ∀ p ∈ e.localLifetimes.entries,
      p.2.holdsBorrow ≠ some r
  | .borrowShared _ _ _ => Fresh e
  | .borrowExclusive _ _ _ => Fresh e
  | .borrowFromProvider _ _ _ _ => Fresh e
  | .releaseBorrow _ => True

/-- When two paths can meet: no number stands for two things, and no local is borrowed
exclusively on one path and otherwise on the other. -/
structure Joins (a b : LifetimeEnv) : Prop where
  sameBorrow : ∀ p ∈ a.activeBorrows.entries, ∀ q ∈ b.activeBorrows.entries,
    p.1 = q.1 → p.2 = q.2
  storageActive : ∀ p ∈ a.localLifetimes.entries, b.active p.2.storageRegion = none
  storageNew : ∀ q ∈ b.localLifetimes.entries, a.known q.1 = none →
    a.active q.2.storageRegion = none ∧
      ∀ p ∈ a.localLifetimes.entries, p.2.storageRegion ≠ q.2.storageRegion
  exclusive : ∀ p ∈ a.activeBorrows.entries, ∀ q ∈ b.activeBorrows.entries,
    p.1 ≠ q.1 → p.2.origin = q.2.origin → p.2.origin.source.isSome = true →
      p.2.mode = .shared ∧ q.2.mode = .shared

/-- A run: from the new environment, one operation at a time, and the meeting of two runs. -/
inductive Script where
  | new
  | step (s : Script) (op : Op)
  | join (a b : Script)

namespace Script

def env : Script → LifetimeEnv
  | new => LifetimeEnv.new
  | step s op => s.env.step op
  | join a b => a.env.join b.env

/-- Every operation of the run keeps the tables in step. -/
def Careful : Script → Prop
  | new => True
  | step s op => s.Careful ∧ Meets s.env op
  | join a b => a.Careful ∧ b.Careful ∧ Joins a.env b.env

end Script

/-! ## Deciding it -/

instance (e : LifetimeEnv) : Decidable (Fresh e) := inferInstanceAs (Decidable (_ ∧ _))

instance (e : LifetimeEnv) : (op : Op) → Decidable (Meets e op)
  | .declareLocal _ => inferInstanceAs (Decidable (_ ∧ _))
  | .declareParam _ => inferInstanceAs (Decidable (_ ∧ _))
  | .pushScope => inferInstanceAs (Decidable True)
  | .popScope => List.decidableBAll (fun r => ∀ p ∈ e.localLifetimes.entries,
      p.2.holdsBorrow ≠ some r) _
  | .borrowShared _ _ _ => inferInstanceAs (Decidable (Fresh e))
  | .borrowExclusive _ _ _ => inferInstanceAs (Decidable (Fresh e))
  | .borrowFromProvider _ _ _ _ => inferInstanceAs (Decidable (Fresh e))
  | .releaseBorrow _ => inferInstanceAs (Decidable True)

theorem joins_iff (a b : LifetimeEnv) : Joins a b ↔
    (∀ p ∈ a.activeBorrows.entries, ∀ q ∈ b.activeBorrows.entries, p.1 = q.1 → p.2 = q.2) ∧
    (∀ p ∈ a.localLifetimes.entries, b.active p.2.storageRegion = none) ∧
    (∀ q ∈ b.localLifetimes.entries, a.known q.1 = none → a.active q.2.storageRegion = none ∧
        ∀ p ∈ a.localLifetimes.entries, p.2.storageRegion ≠ q.2.storageRegion) ∧
    (∀ p ∈ a.activeBorrows.entries, ∀ q ∈ b.activeBorrows.entries,
      p.1 ≠ q.1 → p.2.origin = q.2.origin → p.2.origin.source.isSome = true →
        p.2.mode = .shared ∧ q.2.mode = .shared) :=
  ⟨fun ⟨h₁, h₂, h₃, h₄⟩ => ⟨h₁, h₂, h₃, h₄⟩, fun ⟨h₁, h₂, h₃, h₄⟩ => ⟨h₁, h₂, h₃, h₄⟩⟩

instance (a b : LifetimeEnv) : Decidable (Joins a b) := decidable_of_iff _ (joins_iff a b).symm

instance : (s : Script) → Decidable s.Careful
  | .new => inferInstanceAs (Decidable True)
  | .step s op =>
    have := instDecidableCareful s
    inferInstanceAs (Decidable (s.Careful ∧ Meets s.env op))
  | .join a b =>
    have := instDecidableCareful a
    have := instDecidableCareful b
    inferInstanceAs (Decidable (a.Careful ∧ b.Careful ∧ Joins a.env b.env))

/-- The tables agree, and a borrow that a local names has that local for its holder. -/
structure Kept (e : LifetimeEnv) : Prop extends Booked e where
  holder : ∀ h lt r b, e.known h = some lt → lt.holdsBorrow = some r → e.active r = some b →
    b.holder = some h

variable {e : LifetimeEnv}

theorem kept_new : Kept LifetimeEnv.new := by
  refine ⟨⟨?_, ?_, ?_, ?_, ?_, ?_, ?_⟩, ?_⟩ <;> intros <;> simp_all [known, active, LifetimeEnv.new]

variable {x : String} {lt : LocalLifetime}

theorem Fresh.storage (h : Fresh e) (hx : e.known x = some lt) : lt.storageRegion ≠ e.nextId :=
  (forall_entries e.localLifetimes fun _ lt => lt.storageRegion ≠ e.nextId).1 h.2 x lt hx

variable {r : RegionId}

theorem mem_listed : r ∈ e.listed x ↔ ∃ lt, e.known x = some lt ∧ r ∈ lt.borrowedBy := by
  unfold listed
  cases e.known x <;> simp

theorem kept_declare (h : Kept e) (hfresh : Fresh e) {e' : LifetimeEnv}
    {lt₀ : LocalLifetime} (hlist : e.listed x = [])
    (hknown : ∀ y, e'.known y = if y = x then some lt₀ else e.known y)
    (hactive : ∀ r, e'.active r = e.active r) (hstorage : lt₀.storageRegion = e.nextId)
    (hempty : lt₀.borrowedBy = []) (hholds : lt₀.holdsBorrow = none) : Kept e' := by
  have hcases : ∀ {y lt}, e'.known y = some lt →
      (y = x ∧ lt = lt₀) ∨ (y ≠ x ∧ e.known y = some lt) := by
    intro y lt hy
    rw [hknown] at hy
    split_ifs at hy with heq
    · exact .inl ⟨heq, (some.inj hy).symm⟩
    · exact .inr ⟨heq, hy⟩
  refine ⟨⟨?_, ?_, ?_, ?_, ?_, ?_, ?_⟩, ?_⟩
  · intro r b y hr horigin
    rw [hactive] at hr
    obtain ⟨lt, hlt, hmem⟩ := h.listed r b y hr horigin
    have hne : y ≠ x := by
      rintro rfl
      have : r ∈ e.listed y := mem_listed.2 ⟨lt, hlt, hmem⟩
      rw [hlist] at this
      cases this
    exact ⟨lt, by rw [hknown, if_neg hne, hlt], hmem⟩
  · intro y lt r hy hr
    rw [hactive]
    rcases hcases hy with ⟨-, rfl⟩ | ⟨-, hlt⟩
    · rw [hempty] at hr
      cases hr
    · exact h.listsActive y lt r hlt hr
  · intro r b hr
    rw [hactive] at hr
    exact h.region r b hr
  · intro y lt hy
    rw [hactive]
    rcases hcases hy with ⟨-, rfl⟩ | ⟨-, hlt⟩
    · rw [hstorage]
      exact hfresh.1
    · exact h.storageActive y lt hlt
  · intro y z lt lt' hy hz heq
    rcases hcases hy with ⟨rfl, rfl⟩ | ⟨-, hlt⟩ <;> rcases hcases hz with ⟨rfl, rfl⟩ | ⟨-, hlt'⟩
    · rfl
    · exact absurd (heq.symm.trans hstorage) (hfresh.storage hlt')
    · exact absurd (heq.trans hstorage) (hfresh.storage hlt)
    · exact h.storageUnique y z lt lt' hlt hlt' heq
  · intro r r' b b' y hr hr'
    rw [hactive] at hr hr'
    exact h.exclusive r r' b b' y hr hr'
  · intro y lt r hy hr
    rw [hactive]
    rcases hcases hy with ⟨-, rfl⟩ | ⟨-, hlt⟩
    · rw [hholds] at hr
      cases hr
    · exact h.held y lt r hlt hr
  · intro y lt r b hy hr hb
    rw [hactive] at hb
    rcases hcases hy with ⟨-, rfl⟩ | ⟨-, hlt⟩
    · rw [hholds] at hr
      cases hr
    · exact h.holder y lt r b hlt hr hb

theorem kept_createBorrow (h : Kept e) (hfresh : Fresh e) {origin : BorrowOrigin}
    {mode : BorrowMode} (holder : Option String) (span : Option Span)
    (hsource : ∀ x, origin = .local x → ∃ lt, e.known x = some lt)
    (hmode : ∀ x r b, origin = .local x → e.active r = some b → b.origin = .local x →
      b.mode = .shared ∧ mode = .shared) : Kept (e.createBorrow origin mode holder span) := by
  have hold : ∀ {r b}, e.active r = some b → r ≠ e.nextId := by
    rintro r b hr rfl
    rw [hfresh.1] at hr
    cases hr
  refine ⟨⟨?_, ?_, ?_, ?_, ?_, ?_, ?_⟩, ?_⟩
  · intro r b x hr horigin
    rw [active_createBorrow] at hr
    split_ifs at hr with heq
    · cases hr
      obtain ⟨lt, hlt⟩ := hsource x horigin
      rw [known_createBorrow, hlt]
      refine ⟨_, rfl, ?_⟩
      simp only at horigin
      simp [horigin, heq, mem_insert_iff]
    · obtain ⟨lt, hlt, hmem⟩ := h.listed r b x hr horigin
      rw [known_createBorrow, hlt]
      refine ⟨_, rfl, ?_⟩
      split
      · exact mem_insert_of_mem hmem
      · exact hmem
  · intro x lt' r hx hr
    rw [known_createBorrow] at hx
    obtain ⟨lt, hlt, rfl⟩ := map_eq_some_iff.1 hx
    rw [active_createBorrow]
    -- What the list of `x` holds now is the new number, or was there before.
    have hcases : (r = e.nextId ∧ origin = .local x) ∨ r ∈ lt.borrowedBy := by
      split at hr
      · rename_i horigin
        exact (mem_insert_iff.1 hr).imp (fun heq => ⟨heq, horigin⟩) id
      · exact .inr hr
    rcases hcases with ⟨rfl, horigin⟩ | hmem
    · exact ⟨_, if_pos rfl, horigin⟩
    · obtain ⟨b, hb, horigin⟩ := h.listsActive x lt r hlt hmem
      exact ⟨b, by rw [if_neg (hold hb), hb], horigin⟩
  · intro r b hr
    rw [active_createBorrow] at hr
    split_ifs at hr with heq
    · cases hr
      exact heq.symm
    · exact h.region r b hr
  · intro x lt' hx
    rw [known_createBorrow] at hx
    obtain ⟨lt, hlt, rfl⟩ := map_eq_some_iff.1 hx
    rw [active_createBorrow, if_neg (hfresh.storage hlt)]
    exact h.storageActive x lt hlt
  · intro x y lt lt' hx hy heq
    rw [known_createBorrow] at hx hy
    obtain ⟨lt₁, hlt₁, rfl⟩ := map_eq_some_iff.1 hx
    obtain ⟨lt₂, hlt₂, rfl⟩ := map_eq_some_iff.1 hy
    exact h.storageUnique x y lt₁ lt₂ hlt₁ hlt₂ heq
  · intro r r' b b' x hr hr' horigin horigin' hne
    rw [active_createBorrow] at hr hr'
    -- Two borrows of one source, at most one of them new.
    split at hr <;> split at hr'
    · rename_i heq heq'
      exact absurd (heq.trans heq'.symm) hne
    · cases hr
      exact (hmode x r' b' horigin hr' horigin').2
    · cases hr'
      exact (hmode x r b horigin' hr horigin).1
    · exact h.exclusive r r' b b' x hr hr' horigin horigin' hne
  · intro y lt' r hy hr
    rw [known_createBorrow] at hy
    obtain ⟨lt, hlt, rfl⟩ := map_eq_some_iff.1 hy
    rw [active_createBorrow]
    -- The holder's own list has the new number in front.
    by_cases hnew : r = e.nextId
    · exact ⟨_, if_pos hnew⟩
    · rw [if_neg hnew]
      simp only at hr
      split at hr
      · exact absurd (some.inj hr).symm hnew
      · exact h.held y lt r hlt hr
  · intro y lt' r b hy hr hb
    rw [known_createBorrow] at hy
    obtain ⟨lt, hlt, rfl⟩ := map_eq_some_iff.1 hy
    rw [active_createBorrow] at hb
    simp only at hr
    split_ifs at hr with hholder
    · rw [if_pos (some.inj hr).symm] at hb
      cases hb
      exact hholder
    · obtain ⟨b', hb'⟩ := h.held y lt r hlt hr
      rw [if_neg (hold hb')] at hb
      exact h.holder y lt r b hlt hr hb

theorem kept_borrowLocal (h : Kept e) (hfresh : Fresh e) (mode : BorrowMode)
    (blocks : BorrowMode → Bool) (source : String) (holder : Option String) (span : Option Span)
    (hblocks : ∀ m, blocks m = false → m = .shared ∧ mode = .shared) :
    Kept (e.borrowLocal mode blocks source holder span).1 := by
  rcases borrowLocal_cases (e := e) mode blocks source holder span with
    heq | ⟨hlive, hconflict, heq⟩
  · rw [heq]
    exact h
  · rw [heq]
    have hknown : ∃ lt, e.known source = some lt := by
      unfold isLive at hlive
      cases hk : e.localLifetimes.lookup source with
      | none => exact absurd hlive (by simp [hk])
      | some lt => exact ⟨lt, hk⟩
    refine kept_createBorrow h hfresh holder span ?_ ?_
    · rintro x ⟨⟩
      exact hknown
    · rintro x r b ⟨⟩ hr horigin
      obtain ⟨lt, hlt, hmem⟩ := h.listed r b source hr horigin
      have hlook : e.localLifetimes.lookup source = some lt := hlt
      rw [conflict, hlook, bind_some, findSome?_eq_none_iff] at hconflict
      have := hconflict r hmem
      change (e.active r).filter _ = none at this
      rw [hr] at this
      exact hblocks b.mode (by simpa using this)

theorem kept_releaseBorrow (h : Kept e) (x : String) : Kept (e.releaseBorrow x) := by
  have hactive : ∀ {r b}, (e.releaseBorrow x).active r = some b →
      r ∉ e.listed x ∧ e.active r = some b := by
    intro r b hr
    rw [active_releaseBorrow] at hr
    split at hr
    · cases hr
    · rename_i hnot
      exact ⟨hnot, hr⟩
  refine ⟨⟨?_, ?_, ?_, ?_, ?_, ?_, ?_⟩, ?_⟩
  · intro r b y hr horigin
    obtain ⟨hnot, hr⟩ := hactive hr
    obtain ⟨lt, hlt, hmem⟩ := h.listed r b y hr horigin
    have hne : y ≠ x := by
      rintro rfl
      exact hnot (mem_listed.2 ⟨lt, hlt, hmem⟩)
    rw [known_releaseBorrow, hlt]
    exact ⟨_, rfl, by simpa [hne] using hmem⟩
  · intro y lt' r hy hr
    rw [known_releaseBorrow] at hy
    obtain ⟨lt, hlt, rfl⟩ := map_eq_some_iff.1 hy
    by_cases hyx : y = x
    · simp [hyx] at hr
    · simp only [hyx, if_false] at hr
      obtain ⟨b, hb, horigin⟩ := h.listsActive y lt r hlt hr
      have hnot : r ∉ e.listed x := by
        intro hmem
        obtain ⟨lt', hlt', hr'⟩ := mem_listed.1 hmem
        obtain ⟨b', hb', horigin'⟩ := h.listsActive x lt' r hlt' hr'
        rw [hb] at hb'
        cases hb'
        exact hyx (BorrowOrigin.local.inj (horigin.symm.trans horigin'))
      exact ⟨b, by rw [active_releaseBorrow, if_neg hnot, hb], horigin⟩
  · intro r b hr
    exact h.region r b (hactive hr).2
  · intro y lt' hy
    rw [known_releaseBorrow] at hy
    obtain ⟨lt, hlt, rfl⟩ := map_eq_some_iff.1 hy
    rw [active_releaseBorrow]
    by_cases hmem : lt.storageRegion ∈ e.listed x
    · exact if_pos hmem
    · exact (if_neg hmem).trans (h.storageActive y lt hlt)
  · intro y z lt lt' hy hz heq
    rw [known_releaseBorrow] at hy hz
    obtain ⟨lt₁, hlt₁, rfl⟩ := map_eq_some_iff.1 hy
    obtain ⟨lt₂, hlt₂, rfl⟩ := map_eq_some_iff.1 hz
    exact h.storageUnique y z lt₁ lt₂ hlt₁ hlt₂ heq
  · intro r r' b b' y hr hr'
    exact h.exclusive r r' b b' y (hactive hr).2 (hactive hr').2
  · intro y lt' r hy hr
    rw [known_releaseBorrow] at hy
    obtain ⟨lt, hlt, rfl⟩ := map_eq_some_iff.1 hy
    simp only at hr
    split at hr
    · cases hr
    · rename_i hnone
      obtain ⟨b, hb⟩ := h.held y lt r hlt hr
      have hnot : r ∉ e.listed x := fun hmem =>
        hnone ⟨r, hmem, b, hb, h.holder y lt r b hlt hr hb⟩
      exact ⟨b, by rw [active_releaseBorrow, if_neg hnot, hb]⟩
  · intro y lt' r b hy hr hb
    rw [known_releaseBorrow] at hy
    obtain ⟨lt, hlt, rfl⟩ := map_eq_some_iff.1 hy
    simp only at hr
    split at hr
    · cases hr
    · exact h.holder y lt r b hlt hr (hactive hb).2

theorem kept_popScope (h : Kept e) (hmeets : Meets e .popScope) : Kept e.popScope.1 := by
  cases hsc : e.scopeRegions with
  | nil =>
    have hactive : ∀ r, e.popScope.1.active r = e.active r := by simp [popScope, hsc, active]
    have hknown : ∀ x, e.popScope.1.known x = e.known x := by simp [popScope, hsc, known]
    constructor
    · constructor <;> simp only [hactive, hknown]
      exacts [h.listed, h.listsActive, h.region, h.storageActive, h.storageUnique, h.exclusive,
        h.held]
    · simp only [hactive, hknown]
      exact h.holder
  | cons regions outer =>
    have hactive : ∀ {r b}, e.popScope.1.active r = some b → r ∉ regions ∧ e.active r = some b := by
      intro r b hr
      rw [active_popScope hsc] at hr
      split at hr
      · cases hr
      · rename_i hnot
        exact ⟨hnot, hr⟩
    have hkeep : ∀ {r}, r ∉ regions → e.popScope.1.active r = e.active r := by
      intro r hnot
      rw [active_popScope hsc, if_neg hnot]
    refine ⟨⟨?_, ?_, ?_, ?_, ?_, ?_, ?_⟩, ?_⟩
    · intro r b y hr horigin
      obtain ⟨hnot, hr⟩ := hactive hr
      obtain ⟨lt, hlt, hmem⟩ := h.listed r b y hr horigin
      rw [known_popScope hsc, hlt]
      refine ⟨_, rfl, ?_⟩
      simp [hmem, hnot]
    · intro y lt' r hy hr
      rw [known_popScope hsc] at hy
      obtain ⟨lt, hlt, rfl⟩ := map_eq_some_iff.1 hy
      simp only [mem_filter, decide_eq_true_eq] at hr
      obtain ⟨b, hb, horigin⟩ := h.listsActive y lt r hlt hr.1
      have hnot : r ∉ regions := fun hmem =>
        hr.2 ⟨hmem, by simp [hb, horigin, BorrowOrigin.source]⟩
      exact ⟨b, by rw [hkeep hnot, hb], horigin⟩
    · intro r b hr
      exact h.region r b (hactive hr).2
    · intro y lt' hy
      rw [known_popScope hsc] at hy
      obtain ⟨lt, hlt, rfl⟩ := map_eq_some_iff.1 hy
      rw [active_popScope hsc]
      have := h.storageActive y lt hlt
      by_cases hmem : lt.storageRegion ∈ regions
      · exact if_pos hmem
      · exact (if_neg hmem).trans this
    · intro y z lt lt' hy hz heq
      rw [known_popScope hsc] at hy hz
      obtain ⟨lt₁, hlt₁, rfl⟩ := map_eq_some_iff.1 hy
      obtain ⟨lt₂, hlt₂, rfl⟩ := map_eq_some_iff.1 hz
      exact h.storageUnique y z lt₁ lt₂ hlt₁ hlt₂ heq
    · intro r r' b b' y hr hr'
      exact h.exclusive r r' b b' y (hactive hr).2 (hactive hr').2
    · intro y lt' r hy hr
      rw [known_popScope hsc] at hy
      obtain ⟨lt, hlt, rfl⟩ := map_eq_some_iff.1 hy
      obtain ⟨b, hb⟩ := h.held y lt r hlt hr
      have hnot : r ∉ regions := by
        intro hmem
        have hall : ∀ p ∈ e.localLifetimes.entries, p.2.holdsBorrow ≠ some r :=
          hmeets r (by simpa [hsc] using hmem)
        have hfree := (forall_entries e.localLifetimes fun _ lt => lt.holdsBorrow ≠ some r).1 hall
        exact hfree y lt hlt hr
      exact ⟨b, by rw [hkeep hnot, hb]⟩
    · intro y lt' r b hy hr hb
      rw [known_popScope hsc] at hy
      obtain ⟨lt, hlt, rfl⟩ := map_eq_some_iff.1 hy
      exact h.holder y lt r b hlt hr (hactive hb).2

/-- **One operation that meets its condition keeps the tables in step.** -/
theorem kept_step (h : Kept e) (op : Op) (hmeets : Meets e op) : Kept (e.step op) := by
  cases op with
  | declareLocal x =>
    exact kept_declare h hmeets.1 hmeets.2 (known_declareLocal x) (fun _ => rfl) rfl rfl rfl
  | declareParam x =>
    exact kept_declare h hmeets.1 hmeets.2 (known_declareParam x) (fun _ => rfl) rfl rfl rfl
  | pushScope => exact ⟨⟨h.listed, h.listsActive, h.region, h.storageActive, h.storageUnique,
      h.exclusive, h.held⟩, h.holder⟩
  | popScope => exact kept_popScope h hmeets
  | borrowShared source holder span =>
    refine kept_borrowLocal h hmeets _ _ _ _ _ ?_
    intro m hm
    cases m with
    | shared => exact ⟨rfl, rfl⟩
    | exclusive => cases hm
  | borrowExclusive source holder span =>
    exact kept_borrowLocal h hmeets _ _ _ _ _ fun m hm => absurd hm (by simp)
  | borrowFromProvider provider holder mode span =>
    refine kept_createBorrow h hmeets holder span ?_ ?_
    · rintro x ⟨⟩
    · rintro x r b ⟨⟩
  | releaseBorrow source => exact kept_releaseBorrow h source

/-! ## Where two paths meet -/

theorem mem_active {b : BorrowInfo} (h : e.active r = some b) :
    (⟨r, b⟩ : Sigma fun _ : RegionId => BorrowInfo) ∈ e.activeBorrows.entries :=
  (mem_entries_iff _ _ _).2 h

theorem mem_known (h : e.known x = some lt) :
    (⟨x, lt⟩ : Sigma fun _ : String => LocalLifetime) ∈ e.localLifetimes.entries :=
  (mem_entries_iff _ _ _).2 h

variable {a b : LifetimeEnv}

theorem Joins.active_eq (h : Joins a b) {bb : BorrowInfo}
    (hb : b.active r = some bb) : (a.join b).active r = some bb := by
  rw [active_join]
  cases ha : a.active r with
  | none => exact hb
  | some ba =>
    have heq : ba = bb := h.sameBorrow _ (mem_active ha) _ (mem_active hb) rfl
    rw [heq]
    rfl

theorem active_join_left {ba : BorrowInfo}
    (ha : a.active r = some ba) : (a.join b).active r = some ba := by
  rw [active_join, ha]
  rfl

theorem active_join_cases {c : BorrowInfo}
    (h : (a.join b).active r = some c) : a.active r = some c ∨ b.active r = some c := by
  rw [active_join] at h
  cases ha : a.active r with
  | none => exact .inr (by simpa [ha] using h)
  | some ba => exact .inl (by simpa [ha] using h)

/-- A name after the meeting is one of the first path, with the lists of both, or one that only
the second path knows. -/
theorem known_join_cases (h : (a.join b).known x = some lt) :
    (∃ la, a.known x = some la ∧ lt = { la with borrowedBy := lt.borrowedBy } ∧
      ∀ r, r ∈ lt.borrowedBy ↔ r ∈ la.borrowedBy ∨ r ∈ b.listed x) ∨
    (a.known x = none ∧ b.known x = some lt) := by
  cases ha : a.known x with
  | none =>
    rw [known_join_none ha] at h
    exact .inr ⟨rfl, h⟩
  | some la =>
    obtain ⟨bs, hbs, hmem⟩ := known_join_some b ha
    rw [hbs] at h
    cases h
    exact .inl ⟨la, rfl, rfl, hmem⟩

theorem kept_join (ha : Kept a) (hb : Kept b) (h : Joins a b) : Kept (a.join b) := by
  have hstorageB : ∀ {x la}, a.known x = some la → b.active la.storageRegion = none :=
    fun hx => h.storageActive _ (mem_known hx)
  refine ⟨⟨?_, ?_, ?_, ?_, ?_, ?_, ?_⟩, ?_⟩
  · intro r c x hr horigin
    rcases active_join_cases hr with har | hbr
    · obtain ⟨la, hla, hmem⟩ := ha.listed r c x har horigin
      obtain ⟨bs, hbs, hiff⟩ := known_join_some b hla
      exact ⟨_, hbs, (hiff r).2 (.inl hmem)⟩
    · obtain ⟨lb, hlb, hmem⟩ := hb.listed r c x hbr horigin
      cases hax : a.known x with
      | none => exact ⟨lb, by rw [known_join_none hax, hlb], hmem⟩
      | some la =>
        obtain ⟨bs, hbs, hiff⟩ := known_join_some b hax
        exact ⟨_, hbs, (hiff r).2 (.inr (mem_listed.2 ⟨lb, hlb, hmem⟩))⟩
  · intro x lt r hx hr
    rcases known_join_cases hx with ⟨la, hla, -, hiff⟩ | ⟨-, hlb⟩
    · rcases (hiff r).1 hr with hmem | hmem
      · obtain ⟨c, hc, horigin⟩ := ha.listsActive x la r hla hmem
        exact ⟨c, active_join_left hc, horigin⟩
      · obtain ⟨lb, hlb, hmem⟩ := mem_listed.1 hmem
        obtain ⟨c, hc, horigin⟩ := hb.listsActive x lb r hlb hmem
        exact ⟨c, h.active_eq hc, horigin⟩
    · obtain ⟨c, hc, horigin⟩ := hb.listsActive x lt r hlb hr
      exact ⟨c, h.active_eq hc, horigin⟩
  · intro r c hr
    rcases active_join_cases hr with har | hbr
    · exact ha.region r c har
    · exact hb.region r c hbr
  · intro x lt hx
    rw [active_join]
    rcases known_join_cases hx with ⟨la, hla, heq, -⟩ | ⟨hax, hlb⟩
    · rw [heq]
      simp only [ha.storageActive x la hla, hstorageB hla, or_none]
    · rw [(h.storageNew _ (mem_known hlb) hax).1, hb.storageActive x lt hlb]
      rfl
  · intro x y lt lt' hx hy heq
    rcases known_join_cases hx with ⟨la, hla, hxa, -⟩ | ⟨hax, hlb⟩ <;>
      rcases known_join_cases hy with ⟨la', hla', hya, -⟩ | ⟨hay, hlb'⟩
    · rw [hxa, hya] at heq
      exact ha.storageUnique x y la la' hla hla' heq
    · rw [hxa] at heq
      exact absurd heq ((h.storageNew _ (mem_known hlb') hay).2 _ (mem_known hla))
    · rw [hya] at heq
      exact absurd heq.symm ((h.storageNew _ (mem_known hlb) hax).2 _ (mem_known hla'))
    · exact hb.storageUnique x y lt lt' hlb hlb' heq
  · intro r r' c c' x hr hr' horigin horigin' hne
    have hsource : c.origin.source.isSome = true := by simp [horigin, BorrowOrigin.source]
    have hsource' : c'.origin.source.isSome = true := by simp [horigin', BorrowOrigin.source]
    rcases active_join_cases hr with har | hbr <;> rcases active_join_cases hr' with har' | hbr'
    · exact ha.exclusive r r' c c' x har har' horigin horigin' hne
    · exact (h.exclusive _ (mem_active har) _ (mem_active hbr') hne
        (horigin.trans horigin'.symm) hsource).1
    · exact (h.exclusive _ (mem_active har') _ (mem_active hbr) hne.symm
        (horigin'.trans horigin.symm) hsource').2
    · exact hb.exclusive r r' c c' x hbr hbr' horigin horigin' hne
  · intro y lt r hy hr
    rcases known_join_cases hy with ⟨la, hla, heq, -⟩ | ⟨-, hlb⟩
    · rw [heq] at hr
      obtain ⟨c, hc⟩ := ha.held y la r hla hr
      exact ⟨c, active_join_left hc⟩
    · obtain ⟨c, hc⟩ := hb.held y lt r hlb hr
      exact ⟨c, h.active_eq hc⟩
  · intro y lt r c hy hr hc
    rcases known_join_cases hy with ⟨la, hla, heq, -⟩ | ⟨-, hlb⟩
    · rw [heq] at hr
      obtain ⟨c', hc'⟩ := ha.held y la r hla hr
      rw [active_join_left hc'] at hc
      obtain rfl := some.inj hc
      exact ha.holder y la r c' hla hr hc'
    · obtain ⟨c', hc'⟩ := hb.held y lt r hlb hr
      rw [h.active_eq hc'] at hc
      obtain rfl := some.inj hc
      exact hb.holder y lt r c' hlb hr hc'

/-! ## Runs -/

theorem Script.kept (s : Script) (h : s.Careful) : Kept s.env := by
  induction s with
  | new => exact kept_new
  | step s op ih => exact kept_step (ih h.1) op h.2
  | join a b iha ihb => exact kept_join (iha h.1) (ihb h.2.1) h.2.2

/-- **In a careful run the tables agree in every environment it reaches.** -/
theorem booked_of_careful (s : Script) (h : s.Careful) : Booked s.env := (s.kept h).toBooked

namespace Script

def steps (s : Script) (ops : List Op) : Script := ops.foldl step s

/-- `h` and `x` in the function; a block in which `h` takes a borrow of `x`. -/
def blockBorrow : Script :=
  new.steps [.declareLocal "h", .declareLocal "x", .pushScope, .borrowShared "x" (some "h") none,
    .popScope]

/-- **The holder of a borrow whose scope has ended** names a region that is not active. -/
theorem blockBorrow_unbooked : ¬ Booked blockBorrow.env := by
  intro h
  have hholds : ∃ lt, blockBorrow.env.known "h" = some lt ∧ lt.holdsBorrow = some 2 :=
    ⟨_, rfl, rfl⟩
  obtain ⟨lt, hlt, hr⟩ := hholds
  obtain ⟨b, hb⟩ := h.held "h" lt 2 hlt hr
  have hnone : blockBorrow.env.active 2 = none := rfl
  rw [hnone] at hb
  cases hb

/-- Both paths borrow from `x`, the second one under a number that the first does not use. -/
def branches : Script :=
  let before := new.steps [.declareLocal "x", .declareLocal "h"]
  (before.steps [.borrowShared "x" (some "h") none]).join
    (before.steps [.borrowExclusive "x" (some "h") none, .releaseBorrow "x",
      .borrowShared "x" (some "h") none])

theorem branches_booked : Booked branches.env := booked_of_careful branches (by decide)

end Script

end Arth.Typeck
