import Arth.Lib.KeyTable

/-!
# Borrow liveness

`typeck/nll.rs`: the control-flow graph of a function, the regions of its locals and borrows,
and the constraints between them, as the type checker builds them call by call. Blocks,
statements and regions are counted in `Nat`.

* `Call` — the calls that build a context; `Built` — the contexts they build.
* `Between` — the points on the paths from a borrow to a use of it.
* `sound_iff` — the recorded regions cover these paths if and only if the points on them are
  recorded one by one.
-/

namespace Arth.Nll

open KeyTable List Option

abbrev RegionId := Nat

structure ProgramPoint where
  block : Nat
  stmt : Nat
  deriving DecidableEq

/-- A region is the set of its points. -/
abbrev Region := Finset ProgramPoint

structure OutlivesConstraint where
  source : RegionId
  borrow : RegionId
  origin : ProgramPoint
  reason : String
  deriving DecidableEq

structure HirBlock where
  id : Nat
  stmtCount : Nat
  successors : List Nat
  predecessors : List Nat
  deriving DecidableEq

structure HirCfg where
  blocks : List HirBlock
  entry : Nat
  exits : List Nat
  deriving DecidableEq

namespace HirCfg

def new : HirCfg := ⟨[⟨0, 0, [], []⟩], 0, []⟩

def currentBlock (g : HirCfg) : Nat := g.blocks.length - 1

def addBlock (g : HirCfg) : HirCfg × Nat :=
  ({ g with blocks := g.blocks ++ [⟨g.blocks.length, 0, [], []⟩] }, g.blocks.length)

def addStmt (g : HirCfg) : HirCfg × ProgramPoint :=
  let block := g.currentBlock
  let count := ((g.blocks[block]?).map (·.stmtCount)).getD 0
  ({ g with blocks := g.blocks.modify block fun b => { b with stmtCount := b.stmtCount + 1 } },
    ⟨block, count⟩)

/-- Append what is not there yet. -/
def pushNew (l : List Nat) (n : Nat) : List Nat := if n ∈ l then l else l ++ [n]

def addEdge (g : HirCfg) (source target : Nat) : HirCfg :=
  { g with
    blocks := (g.blocks.modify source fun b =>
      { b with successors := pushNew b.successors target }).modify target fun b =>
        { b with predecessors := pushNew b.predecessors source } }

def markExit (g : HirCfg) (block : Nat) : HirCfg := { g with exits := pushNew g.exits block }

end HirCfg

/-- Later in the order of blocks and statements. -/
def ProgramPoint.before (p q : ProgramPoint) : Prop :=
  p.block < q.block ∨ p.block = q.block ∧ p.stmt < q.stmt

instance (p q : ProgramPoint) : Decidable (p.before q) := inferInstanceAs (Decidable (_ ∨ _))

structure BorrowLiveness where
  region : RegionId
  creation : ProgramPoint
  uses : List ProgramPoint
  lastUse : Option ProgramPoint
  liveRegion : Region

namespace BorrowLiveness

def new (region : RegionId) (creation : ProgramPoint) : BorrowLiveness :=
  ⟨region, creation, [], none, {creation}⟩

def addUse (l : BorrowLiveness) (point : ProgramPoint) : BorrowLiveness :=
  { l with
    uses := l.uses ++ [point]
    liveRegion := insert point l.liveRegion
    lastUse :=
      match l.lastUse with
      | none => some point
      | some prev => if prev.before point then some point else some prev }

end BorrowLiveness

structure NllContext where
  cfg : HirCfg
  currentPoint : ProgramPoint
  regions : Table RegionId Region
  borrowLiveness : Table RegionId BorrowLiveness
  constraints : List OutlivesConstraint
  localRegions : Table String RegionId
  nextRegion : RegionId

structure BorrowOutlivesSource where
  sourceRegion : RegionId
  borrowRegion : RegionId
  atPoint : ProgramPoint
  missingPoints : Region
  reason : String

namespace NllContext

def new : NllContext where
  cfg := .new
  currentPoint := ⟨0, 0⟩
  regions := ∅
  borrowLiveness := ∅
  constraints := []
  localRegions := ∅
  nextRegion := 0

def advance (c : NllContext) : NllContext :=
  { c with cfg := c.cfg.addStmt.1, currentPoint := c.cfg.addStmt.2 }

def createLocalRegion (c : NllContext) (name : String) : NllContext :=
  { c with
    nextRegion := c.nextRegion + 1
    regions := c.regions.insert c.nextRegion ∅
    localRegions := c.localRegions.insert name c.nextRegion }

def createBorrowRegion (c : NllContext) : NllContext :=
  { c with
    nextRegion := c.nextRegion + 1
    borrowLiveness := c.borrowLiveness.insert c.nextRegion (.new c.nextRegion c.currentPoint)
    regions := c.regions.insert c.nextRegion {c.currentPoint} }

def recordBorrowUse (c : NllContext) (region : RegionId) : NllContext :=
  { c with
    borrowLiveness := modifyAt region (·.addUse c.currentPoint) c.borrowLiveness
    regions := modifyAt region (insert c.currentPoint) c.regions }

/-- `nll_record_local_use` of the lifetime environment. -/
def recordLocalUse (c : NllContext) (name : String) : NllContext :=
  match c.localRegions.lookup name with
  | none => c
  | some region =>
    { c with
      regions := c.regions.insert region
        (insert c.currentPoint ((c.regions.lookup region).getD ∅)) }

def addConstraint (c : NllContext) (source borrow : RegionId) (reason : String) : NllContext :=
  { c with constraints := c.constraints ++ [⟨source, borrow, c.currentPoint, reason⟩] }

/-- `current_block` is asked after the new block was added, so no edge ever is. -/
def enterBlock (c : NllContext) : NllContext :=
  let (cfg, newBlock) := c.cfg.addBlock
  let current := cfg.currentBlock
  { c with
    cfg := if current ≠ newBlock then cfg.addEdge (current - 1) newBlock else cfg
    currentPoint := ⟨newBlock, 0⟩ }

def createJoinBlock (c : NllContext) (predecessors : List Nat) : NllContext :=
  let (cfg, join) := c.cfg.addBlock
  { c with
    cfg := predecessors.foldl (fun g pred => g.addEdge pred join) cfg
    currentPoint := ⟨join, 0⟩ }

/-- The error of one constraint, if it is not met. -/
def checkConstraint (c : NllContext) (k : OutlivesConstraint) : Option BorrowOutlivesSource :=
  match c.regions.lookup k.source, c.regions.lookup k.borrow with
  | some source, some borrow =>
    if borrow ⊆ source then none
    else some ⟨k.source, k.borrow, k.origin, borrow \ source, k.reason⟩
  | _, _ => none

def solveConstraints (c : NllContext) : List BorrowOutlivesSource :=
  c.constraints.filterMap c.checkConstraint

def isBorrowLive (c : NllContext) (region : RegionId) : Bool :=
  match c.borrowLiveness.lookup region with
  | none => false
  | some l =>
    match l.lastUse with
    | some last =>
      c.currentPoint.block < last.block ||
        c.currentPoint.block == last.block && c.currentPoint.stmt ≤ last.stmt
    | none => l.creation.block ≤ c.currentPoint.block

end NllContext

inductive Call where
  | advance
  | createLocalRegion (name : String)
  | createBorrowRegion
  | recordBorrowUse (region : RegionId)
  | recordLocalUse (name : String)
  | addConstraint (source borrow : RegionId) (reason : String)
  | enterBlock
  | createJoinBlock (predecessors : List Nat)
  | addEdge (source target : Nat)
  | markExit (block : Nat)

def NllContext.call (c : NllContext) : Call → NllContext
  | .advance => c.advance
  | .createLocalRegion name => c.createLocalRegion name
  | .createBorrowRegion => c.createBorrowRegion
  | .recordBorrowUse region => c.recordBorrowUse region
  | .recordLocalUse name => c.recordLocalUse name
  | .addConstraint source borrow reason => c.addConstraint source borrow reason
  | .enterBlock => c.enterBlock
  | .createJoinBlock predecessors => c.createJoinBlock predecessors
  | .addEdge source target => { c with cfg := c.cfg.addEdge source target }
  | .markExit block => { c with cfg := c.cfg.markExit block }

/-- The context after these calls. -/
def run (calls : List Call) : NllContext := calls.foldl NllContext.call .new

/-- One step of a path: to the next statement, or from the last one of a block to the start of
a successor. A block without a statement has one point. -/
def HirCfg.Flows (g : HirCfg) (p q : ProgramPoint) : Prop :=
  ∃ b, g.blocks[p.block]? = some b ∧
    (p.stmt + 1 < b.stmtCount ∧ q = ⟨p.block, p.stmt + 1⟩ ∨
      b.stmtCount ≤ p.stmt + 1 ∧ ∃ next ∈ b.successors, q = ⟨next, 0⟩)

/-- The point is on a path from `creation` to `use` that does not pass `creation` again. -/
def Between (g : HirCfg) (creation use p : ProgramPoint) : Prop :=
  let step p q := g.Flows p q ∧ q ≠ creation
  Relation.ReflTransGen step creation p ∧ Relation.ReflTransGen step p use

/-- The borrow is on the way to a recorded use at this point. -/
def Needed (c : NllContext) (region : RegionId) (p : ProgramPoint) : Prop :=
  ∃ l, c.borrowLiveness.lookup region = some l ∧ ∃ use ∈ l.uses, Between c.cfg l.creation use p

/-- Liveness covers every point at which a borrow is needed. -/
structure Sound (c : NllContext) : Prop where
  region : ∀ r p, Needed c r p → ∀ l, c.borrowLiveness.lookup r = some l → p ∈ l.liveRegion
  live : ∀ r p, Needed c r p → { c with currentPoint := p }.isBorrowLive r
  reported : ∀ k ∈ c.constraints, ∀ p, Needed c k.borrow p →
    ∀ source, c.regions.lookup k.source = some source → p ∉ source →
      ∃ e ∈ c.solveConstraints, e.sourceRegion = k.source ∧ e.borrowRegion = k.borrow ∧
        e.atPoint = k.origin ∧ e.reason = k.reason

/-- Every point at which a borrow is needed is its creation or a use of it, and the creation is
not numbered after every use. -/
def Recorded (c : NllContext) : Prop :=
  ∀ r p, Needed c r p → ∀ l, c.borrowLiveness.lookup r = some l →
    (p = l.creation ∨ p ∈ l.uses) ∧ ∃ use ∈ l.uses, ¬ use.before l.creation

/-! ## What is recorded -/

theorem BorrowLiveness.mem_liveRegion_addUse (l : BorrowLiveness) (p q : ProgramPoint) :
    p ∈ (l.addUse q).liveRegion ↔ p = q ∨ p ∈ l.liveRegion := Finset.mem_insert

/-- The points of a borrow are its creation and its uses, and the last use is the latest. -/
structure BorrowLiveness.Exact (l : BorrowLiveness) : Prop where
  points : ∀ p, p ∈ l.liveRegion ↔ p = l.creation ∨ p ∈ l.uses
  lastUse : ∀ last, l.lastUse = some last → last ∈ l.uses ∧ ∀ use ∈ l.uses, ¬ last.before use
  unused : l.lastUse = none → l.uses = []

theorem ProgramPoint.not_before_trans {p q r : ProgramPoint} (hpq : ¬ q.before p)
    (hqr : ¬ r.before q) : ¬ r.before p := by
  unfold ProgramPoint.before at *
  omega

theorem ProgramPoint.not_before_of_before {p q : ProgramPoint} (h : p.before q) : ¬ q.before p := by
  unfold ProgramPoint.before at *
  omega

theorem ProgramPoint.before_irrefl (p : ProgramPoint) : ¬ p.before p := by
  unfold ProgramPoint.before
  omega

theorem BorrowLiveness.exact_new (r : RegionId) (p : ProgramPoint) :
    (BorrowLiveness.new r p).Exact where
  points q := by simp [BorrowLiveness.new]
  lastUse := nofun
  unused _ := rfl

variable {l : BorrowLiveness} {c c' : NllContext}

theorem BorrowLiveness.Exact.addUse (h : l.Exact) (point : ProgramPoint) :
    (l.addUse point).Exact where
  points p := by
    rw [l.mem_liveRegion_addUse, h.points]
    simp only [BorrowLiveness.addUse, mem_append, mem_singleton]
    tauto
  lastUse last hlast := by
    simp only [BorrowLiveness.addUse] at hlast ⊢
    cases hprev : l.lastUse with
    | none =>
      rw [hprev] at hlast
      cases hlast
      rw [h.unused hprev]
      simp [ProgramPoint.before_irrefl]
    | some prev =>
      obtain ⟨hmem, hmax⟩ := h.lastUse prev hprev
      rw [hprev] at hlast
      dsimp only at hlast
      -- a later use becomes the last one, an earlier one leaves it
      split_ifs at hlast with hbefore
      · cases hlast
        refine ⟨by simp, fun use huse => ?_⟩
        rcases mem_append.1 huse with huse | huse
        · exact ProgramPoint.not_before_trans (hmax use huse)
            (ProgramPoint.not_before_of_before hbefore)
        · rw [mem_singleton.1 huse]
          exact point.before_irrefl
      · cases hlast
        refine ⟨mem_append_left _ hmem, fun use huse => ?_⟩
        rcases mem_append.1 huse with huse | huse
        · exact hmax use huse
        · rw [mem_singleton.1 huse]
          exact hbefore
  unused hlast := by
    simp only [BorrowLiveness.addUse] at hlast
    cases hprev : l.lastUse with
    | none =>
      rw [hprev] at hlast
      cases hlast
    | some prev =>
      rw [hprev] at hlast
      dsimp only at hlast
      split_ifs at hlast

/-- What holds of every context the type checker builds: the records are exact, and the region
of a borrow has its points. -/
structure Inv (c : NllContext) : Prop where
  exact : ∀ r l, c.borrowLiveness.lookup r = some l → l.Exact
  region : ∀ r l, c.borrowLiveness.lookup r = some l →
    ∃ s, c.regions.lookup r = some s ∧ l.liveRegion ⊆ s
  fresh : ∀ r l, c.borrowLiveness.lookup r = some l → r < c.nextRegion

theorem inv_new : Inv .new := ⟨nofun, nofun, nofun⟩

theorem Inv.of_regions (h : Inv c)
    (hlive : c'.borrowLiveness = c.borrowLiveness) (hnext : c.nextRegion ≤ c'.nextRegion)
    (hregions : ∀ r, r < c.nextRegion → ∀ s, c.regions.lookup r = some s →
      ∃ s', c'.regions.lookup r = some s' ∧ s ⊆ s') : Inv c' where
  exact r l hl := h.exact r l (hlive ▸ hl)
  region r l hl := by
    rw [hlive] at hl
    obtain ⟨s, hs, hsub⟩ := h.region r l hl
    obtain ⟨s', hs', hsub'⟩ := hregions r (h.fresh r l hl) s hs
    exact ⟨s', hs', hsub.trans hsub'⟩
  fresh r l hl := (h.fresh r l (hlive ▸ hl)).trans_le hnext

theorem Inv.of_eq (h : Inv c) (hlive : c'.borrowLiveness = c.borrowLiveness)
    (hregions : c'.regions = c.regions) (hnext : c'.nextRegion = c.nextRegion) : Inv c' :=
  h.of_regions hlive hnext.ge fun r _ s hs => ⟨s, hregions ▸ hs, subset_rfl⟩

variable {c : NllContext}

theorem Inv.createLocalRegion (h : Inv c) (name : String) : Inv (c.createLocalRegion name) := by
  refine h.of_regions rfl (Nat.le_succ _) fun r hr s hs => ⟨s, ?_, subset_rfl⟩
  simp only [NllContext.createLocalRegion]
  rw [lookup_insert_eq, if_neg hr.ne, hs]

theorem Inv.createBorrowRegion (h : Inv c) : Inv c.createBorrowRegion := by
  simp only [NllContext.createBorrowRegion]
  constructor
  · intro r l hl
    -- the new region has no use yet, and its number was free
    rw [lookup_insert_eq] at hl
    split_ifs at hl
    · cases hl
      exact BorrowLiveness.exact_new _ _
    · exact h.exact r l hl
  · intro r l hl
    rw [lookup_insert_eq] at hl ⊢
    split_ifs at hl ⊢
    · cases hl
      exact ⟨_, rfl, subset_rfl⟩
    · exact h.region r l hl
  · intro r l hl
    rw [lookup_insert_eq] at hl
    split_ifs at hl with hr
    · rw [hr]
      exact Nat.lt_succ_self _
    · exact (h.fresh r l hl).trans (Nat.lt_succ_self _)

theorem Inv.recordBorrowUse (h : Inv c) (region : RegionId) : Inv (c.recordBorrowUse region) := by
  simp only [NllContext.recordBorrowUse]
  constructor
  · intro r l hl
    -- only the entry of the region used changes
    rw [lookup_modifyAt] at hl
    split_ifs at hl
    · obtain ⟨l, hl', rfl⟩ := map_eq_some_iff.1 hl
      exact (h.exact _ l hl').addUse _
    · exact h.exact r l hl
  · intro r l hl
    rw [lookup_modifyAt] at hl ⊢
    split_ifs at hl ⊢
    · obtain ⟨l, hl', rfl⟩ := map_eq_some_iff.1 hl
      obtain ⟨s, hs, hsub⟩ := h.region _ l hl'
      exact ⟨_, by rw [hs]; rfl, Finset.insert_subset_insert _ hsub⟩
    · exact h.region r l hl
  · intro r l hl
    rw [lookup_modifyAt] at hl
    split_ifs at hl
    · obtain ⟨l, hl', rfl⟩ := map_eq_some_iff.1 hl
      exact h.fresh _ l hl'
    · exact h.fresh r l hl

theorem Inv.recordLocalUse (h : Inv c) (name : String) : Inv (c.recordLocalUse name) := by
  unfold NllContext.recordLocalUse
  split
  · exact h
  · refine h.of_regions rfl le_rfl fun r _ s hs => ?_
    rw [lookup_insert_eq]
    split_ifs with hr
    · subst hr
      exact ⟨_, rfl, by rw [hs]; exact Finset.subset_insert _ _⟩
    · exact ⟨s, hs, subset_rfl⟩

theorem Inv.call (h : Inv c) (k : Call) : Inv (c.call k) := by
  cases k with
  | createLocalRegion name => exact h.createLocalRegion name
  | createBorrowRegion => exact h.createBorrowRegion
  | recordBorrowUse region => exact h.recordBorrowUse region
  | recordLocalUse name => exact h.recordLocalUse name
  | _ => exact h.of_eq rfl rfl rfl

theorem inv_run (calls : List Call) : Inv (run calls) := by
  suffices h : ∀ c, Inv c → Inv (calls.foldl NllContext.call c) from h _ inv_new
  induction calls with
  | nil => exact fun c h => h
  | cons k calls ih => exact fun c h => ih _ (h.call k)

/-! ## Soundness -/

variable {p : ProgramPoint} {r : RegionId}

theorem Needed.lookup (h : Needed c r p)
    (hl : c.borrowLiveness.lookup r = some l) : ∃ use, use ∈ l.uses := by
  obtain ⟨l', hl', use, huse, -⟩ := h
  cases hl.symm.trans hl'
  exact ⟨use, huse⟩

theorem isBorrowLive_iff (hc : Inv c)
    (hl : c.borrowLiveness.lookup r = some l) (hused : ∃ use, use ∈ l.uses) (p : ProgramPoint) :
    { c with currentPoint := p }.isBorrowLive r ↔ ∃ use ∈ l.uses, ¬ use.before p := by
  have hexact := hc.exact r l hl
  obtain ⟨use, huse⟩ := hused
  cases hlast : l.lastUse with
  | none =>
    rw [hexact.unused hlast] at huse
    cases huse
  | some last =>
    obtain ⟨hmem, hmax⟩ := hexact.lastUse last hlast
    -- no use is after the last one, so it decides for all of them
    have hlive : { c with currentPoint := p }.isBorrowLive r ↔ ¬ last.before p := by
      simp only [NllContext.isBorrowLive, hl, hlast, Bool.or_eq_true, Bool.and_eq_true,
        decide_eq_true_eq, beq_iff_eq, ProgramPoint.before]
      omega
    rw [hlive]
    constructor
    · exact fun h => ⟨last, hmem, h⟩
    · rintro ⟨use, huse, h⟩
      exact ProgramPoint.not_before_trans h (hmax use huse)

theorem reported_of_mem (hc : Inv c) {k : OutlivesConstraint}
    (hk : k ∈ c.constraints) (hl : c.borrowLiveness.lookup k.borrow = some l)
    (hp : p ∈ l.liveRegion) {source : Region}
    (hs : c.regions.lookup k.source = some source) (hmiss : p ∉ source) :
    ∃ e ∈ c.solveConstraints, e.sourceRegion = k.source ∧ e.borrowRegion = k.borrow ∧
      e.atPoint = k.origin ∧ e.reason = k.reason := by
  obtain ⟨s, hs', hsub⟩ := hc.region _ l hl
  have hcheck : c.checkConstraint k =
      some ⟨k.source, k.borrow, k.origin, s \ source, k.reason⟩ := by
    rw [NllContext.checkConstraint, hs, hs']
    exact if_neg fun h => hmiss (h (hsub hp))
  exact ⟨_, mem_filterMap.2 ⟨k, hk, hcheck⟩, rfl, rfl, rfl, rfl⟩

theorem sound_of_recorded (hc : Inv c) (h : Recorded c) : Sound c where
  region r p hp l hl := ((hc.exact r l hl).points p).2 (h r p hp l hl).1
  live r p hp := by
    obtain ⟨l, hl, -⟩ := id hp
    rw [isBorrowLive_iff hc hl (hp.lookup hl)]
    obtain ⟨hmem, hlate⟩ := h r p hp l hl
    rcases hmem with rfl | huse
    · exact hlate
    · exact ⟨p, huse, p.before_irrefl⟩
  reported k hk p hp source hs hmiss := by
    obtain ⟨l, hl, -⟩ := id hp
    exact reported_of_mem hc hk hl (((hc.exact _ l hl).points p).2 (h _ p hp l hl).1) hs hmiss

theorem Needed.creation (h : Needed c r p)
    (hl : c.borrowLiveness.lookup r = some l) : Needed c r l.creation := by
  obtain ⟨l', hl', use, huse, hto, hfrom⟩ := h
  cases hl.symm.trans hl'
  exact ⟨l, hl, use, huse, .refl, hto.trans hfrom⟩

theorem recorded_of_sound (hc : Inv c) (h : Sound c) : Recorded c := by
  intro r p hp l hl
  refine ⟨((hc.exact r l hl).points p).1 (h.region r p hp l hl), ?_⟩
  have hlive := h.live r _ (hp.creation hl)
  exact (isBorrowLive_iff hc hl (hp.lookup hl) _).1 hlive

/-- **Borrow liveness covers the paths of the graph** if and only if every point on them is
recorded one by one and the numbers do not run against them. -/
theorem sound_iff (calls : List Call) : Sound (run calls) ↔ Recorded (run calls) :=
  ⟨recorded_of_sound (inv_run calls), sound_of_recorded (inv_run calls)⟩

/-- A borrow, a statement, and a use of the borrow. -/
def borrowThenUse : List Call :=
  [.advance, .createBorrowRegion, .advance, .advance, .recordBorrowUse 0]

theorem between_missed : ¬ Sound (run borrowThenUse) := by
  intro h
  have hflows : ∀ n, n + 1 < 3 → (run borrowThenUse).cfg.Flows ⟨0, n⟩ ⟨0, n + 1⟩ :=
    fun n hn => ⟨⟨0, 3, [], []⟩, rfl, .inl ⟨hn, rfl⟩⟩
  have hneeded : Needed (run borrowThenUse) 0 ⟨0, 1⟩ :=
    ⟨_, rfl, ⟨0, 2⟩, by decide, .single ⟨hflows 0 (by omega), by decide⟩,
      .single ⟨hflows 1 (by omega), by decide⟩⟩
  exact absurd (h.region 0 ⟨0, 1⟩ hneeded _ rfl) (by decide)

end Arth.Nll
