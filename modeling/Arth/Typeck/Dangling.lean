import Arth.Typeck.Lifetime

/-!
# Borrows of a local whose scope ends

The end of a scope looks for active borrows of the locals that die, after it has ended every
borrow that was made in the scope. A borrow of such a local was made in that scope or in one
inside it, so there is never anything left to find.

* `Covered` — the borrows that a live local lists were made while it was in scope.
* `popScope_silent` — the end of a scope reports nothing.
* `reported_iff` — a dangling borrow is missed whenever there is one.
-/

namespace Arth.Typeck

open KeyTable LifetimeEnv List Option

/-- The region is in the set of the scope at depth `d` or of one inside it. With fewer sets
than depths, the locals at depth zero outlive every scope. -/
def Tracked (e : LifetimeEnv) (d : Nat) (r : RegionId) : Prop :=
  (d = 0 ∧ e.scopeRegions.length = e.scopeDepth) ∨
    ∃ s ∈ e.scopeRegions.take (e.scopeDepth - d + 1), r ∈ s

structure Covered (e : LifetimeEnv) : Prop where
  stack : e.scopeRegions.length = e.scopeDepth + 1 ∨ e.scopeRegions.length = e.scopeDepth
  depth : ∀ x lt, e.known x = some lt → lt.isLive = true → lt.declaredAtDepth ≤ e.scopeDepth
  tracked : ∀ x lt, e.known x = some lt → lt.isLive = true → ∀ r ∈ lt.borrowedBy,
    (e.active r).isSome = true → Tracked e lt.declaredAtDepth r

variable {e : LifetimeEnv}

theorem covered_new : Covered LifetimeEnv.new where
  stack := .inl rfl
  depth := fun x lt h => absurd h (by simp [known, LifetimeEnv.new])
  tracked := fun x lt h => absurd h (by simp [known, LifetimeEnv.new])

variable {e' : LifetimeEnv} {r : RegionId} {d : Nat}

theorem Tracked.track (h : Tracked e d r)
    {r' : RegionId} (hscopes : e'.scopeRegions = trackInScope r' e.scopeRegions)
    (hdepth : e'.scopeDepth = e.scopeDepth) : Tracked e' d r := by
  rcases h with ⟨hd, hlen⟩ | ⟨s, hs, hr⟩
  · exact .inl ⟨hd, by rw [hscopes, hdepth, length_trackInScope, hlen]⟩
  · refine .inr ?_
    rw [hscopes, hdepth]
    exact mem_trackInScope hs hr

/-- **A region made now is in the innermost scope**, which is inside that of every live
local. -/
theorem Covered.tracked_new (h : Covered e) (hd : d ≤ e.scopeDepth)
    (hscopes : e'.scopeRegions = trackInScope r e.scopeRegions)
    (hdepth : e'.scopeDepth = e.scopeDepth) : Tracked e' d r := by
  cases hsc : e.scopeRegions with
  | nil =>
    have hlen : e.scopeDepth = 0 := by
      rcases h.stack with hs | hs <;> rw [hsc, length_nil] at hs <;> omega
    refine .inl ⟨by omega, ?_⟩
    rw [hscopes, hsc, hdepth, hlen]
    rfl
  | cons scope outer =>
    refine .inr ⟨scope.insert r, ?_, mem_insert_self⟩
    rw [hscopes, hsc]
    simp [trackInScope]

theorem covered_pushScope (h : Covered e) : Covered e.pushScope where
  stack := by
    rcases h.stack with hs | hs
    · exact .inl (by simp [pushScope, hs])
    · exact .inr (by simp [pushScope, hs])
  depth := fun x lt hx hl => Nat.le_succ_of_le (h.depth x lt hx hl)
  tracked := by
    intro x lt hx hl r hr hact
    have hd := h.depth x lt hx hl
    rcases h.tracked x lt hx hl r hr hact with ⟨hzero, hlen⟩ | ⟨s, hs, hrs⟩
    · exact .inl ⟨hzero, by simp [pushScope, hlen]⟩
    · refine .inr ⟨s, ?_, hrs⟩
      have hk : e.scopeDepth + 1 - lt.declaredAtDepth + 1 =
          (e.scopeDepth - lt.declaredAtDepth + 1) + 1 := by omega
      simp only [pushScope, hk, take_succ_cons]
      exact mem_cons_of_mem _ hs

/-- **The end of a scope**, when there is one to end. -/
theorem covered_popScope (h : Covered e) : Covered e.popScope.1 := by
  cases hsc : e.scopeRegions with
  | nil =>
    have hlen : e.scopeDepth = 0 := by
      rcases h.stack with hs | hs <;> rw [hsc, length_nil] at hs <;> omega
    have hpop : e.popScope.1 = e := by
      simp only [popScope, hsc]
      cases e
      simp only at hlen hsc
      simp [hlen, hsc]
    rw [hpop]
    exact h
  | cons regions outer =>
    have hscopes : e.popScope.1.scopeRegions = outer := by simp [popScope, hsc]
    have hdepth : e.popScope.1.scopeDepth = e.scopeDepth - 1 := by
      simp [popScope, hsc, (scopes_endRegions regions).2.1]
    have hlen : outer.length + 1 = e.scopeRegions.length := by rw [hsc, length_cons]
    -- a local that survives was declared further out
    have hsurvivor : ∀ x lt', e.popScope.1.known x = some lt' → lt'.isLive = true →
        ∃ lt, e.known x = some lt ∧ lt.isLive = true ∧ lt.declaredAtDepth < e.scopeDepth ∧
          lt'.declaredAtDepth = lt.declaredAtDepth ∧ ∀ r ∈ lt'.borrowedBy, r ∈ lt.borrowedBy := by
      intro x lt' hx hl
      rw [known_popScope hsc] at hx
      obtain ⟨lt, hlt, rfl⟩ := map_eq_some_iff.1 hx
      simp only [Bool.and_eq_true, bne_iff_ne] at hl
      have hle := h.depth x lt hlt hl.1
      exact ⟨lt, hlt, hl.1, by omega, rfl, fun r hr => mem_of_mem_filter hr⟩
    refine ⟨?_, ?_, ?_⟩
    · rw [hscopes, hdepth]
      rcases h.stack with hs | hs <;> omega
    · intro x lt' hx hl
      obtain ⟨lt, -, -, hlt, hd, -⟩ := hsurvivor x lt' hx hl
      omega
    · intro x lt' hx hl r hr hact
      obtain ⟨lt, hknown, hlive, hlt, hd, hsub⟩ := hsurvivor x lt' hx hl
      rw [active_popScope hsc] at hact
      split_ifs at hact with hnot
      · cases hact
      · rw [hd]
        rcases h.tracked x lt hknown hlive r (hsub r hr) hact with ⟨hzero, hstack⟩ | ⟨s, hs, hrs⟩
        · exact .inl ⟨hzero, by rw [hscopes, hdepth]; omega⟩
        · refine .inr ⟨s, ?_, hrs⟩
          have hk : e.scopeDepth - lt.declaredAtDepth + 1 =
              (e.scopeDepth - 1 - lt.declaredAtDepth + 1) + 1 := by omega
          rw [hsc, hk, take_succ_cons, mem_cons] at hs
          rw [hscopes, hdepth]
          rcases hs with rfl | hs
          · exact absurd hrs hnot
          · exact hs

theorem covered_declare (h : Covered e) {x : String} {lt : LocalLifetime}
    (hknown : ∀ y, e'.known y = if y = x then some lt else e.known y)
    (hactive : ∀ r, e'.active r = e.active r) (hempty : lt.borrowedBy = [])
    (hd : lt.declaredAtDepth ≤ e.scopeDepth) (hdepth : e'.scopeDepth = e.scopeDepth)
    (hlen : e'.scopeRegions.length = e.scopeRegions.length)
    (htrack : ∀ d r, Tracked e d r → Tracked e' d r) : Covered e' where
  stack := by rw [hlen, hdepth]; exact h.stack
  depth := by
    intro y lt' hy hl
    rw [hknown] at hy
    rw [hdepth]
    split at hy
    · cases hy
      exact hd
    · exact h.depth y lt' hy hl
  tracked := by
    intro y lt' hy hl r hr hact
    rw [hknown] at hy
    rw [hactive] at hact
    split at hy
    · cases hy
      rw [hempty] at hr
      cases hr
    · exact htrack _ _ (h.tracked y lt' hy hl r hr hact)

theorem covered_createBorrow (h : Covered e) (origin : BorrowOrigin) (mode : BorrowMode)
    (holder : Option String) (span : Option Span) :
    Covered (e.createBorrow origin mode holder span) where
  stack := by
    simp only [createBorrow, length_trackInScope]
    exact h.stack
  depth := by
    intro x lt' hx hl
    rw [known_createBorrow] at hx
    obtain ⟨lt, hlt, rfl⟩ := map_eq_some_iff.1 hx
    exact h.depth x lt hlt hl
  tracked := by
    intro x lt' hx hl r hr hact
    rw [known_createBorrow] at hx
    obtain ⟨lt, hlt, rfl⟩ := map_eq_some_iff.1 hx
    by_cases hnew : r = e.nextId
    · subst hnew
      exact h.tracked_new (h.depth x lt hlt hl) rfl rfl
    · rw [active_createBorrow, if_neg hnew] at hact
      have hold : r ∈ lt.borrowedBy := by
        split at hr
        · exact (mem_insert_iff.1 hr).resolve_left hnew
        · exact hr
      exact (h.tracked x lt hlt hl r hold hact).track rfl rfl

theorem covered_borrowLocal (h : Covered e) (mode : BorrowMode) (blocks : BorrowMode → Bool)
    (source : String) (holder : Option String) (span : Option Span) :
    Covered (e.borrowLocal mode blocks source holder span).1 := by
  rcases borrowLocal_cases mode blocks source holder span with heq | ⟨-, -, heq⟩
  · rw [heq]
    exact h
  · rw [heq]
    exact covered_createBorrow h _ _ _ _

theorem covered_releaseBorrow (h : Covered e) (x : String) : Covered (e.releaseBorrow x) where
  stack := h.stack
  depth := by
    intro y lt' hy hl
    rw [known_releaseBorrow] at hy
    obtain ⟨lt, hlt, rfl⟩ := map_eq_some_iff.1 hy
    exact h.depth y lt hlt hl
  tracked := by
    intro y lt' hy hl r hr hact
    rw [known_releaseBorrow] at hy
    obtain ⟨lt, hlt, rfl⟩ := map_eq_some_iff.1 hy
    rw [active_releaseBorrow] at hact
    split at hact
    · cases hact
    · split at hr
      · cases hr
      · exact h.tracked y lt hlt hl r hr hact

/-- **One operation keeps the borrows covered.** -/
theorem covered_step (h : Covered e) (op : Op) : Covered (e.step op) := by
  cases op with
  | declareLocal x =>
    exact covered_declare h (known_declareLocal x) (fun _ => rfl) rfl le_rfl rfl
      (length_trackInScope _ _) fun _ _ ht => ht.track rfl rfl
  | declareParam x =>
    exact covered_declare h (known_declareParam x) (fun _ => rfl) rfl (Nat.zero_le _) rfl rfl
      fun _ _ ht => ht
  | pushScope => exact covered_pushScope h
  | popScope => exact covered_popScope h
  | borrowShared | borrowExclusive => exact covered_borrowLocal h _ _ _ _ _
  | borrowFromProvider provider holder mode span => exact covered_createBorrow h _ _ _ _
  | releaseBorrow source => exact covered_releaseBorrow h source

/-- **The end of a scope reports nothing**: what a dying local lists was made in that scope,
and is over. -/
theorem popScope_silent (h : Covered e) : e.popScope.2 = [] := by
  cases hsc : e.scopeRegions with
  | nil => simp [popScope, hsc]
  | cons regions outer =>
    refine eq_nil_iff_forall_not_mem.2 fun err herr => ?_
    obtain ⟨y, lt, r, b, hy, hlive, hd, hr, hnot, hb, -⟩ := mem_errors hsc herr
    rcases h.tracked y lt hy hlive r hr (by rw [hb]; rfl) with ⟨hzero, hlen⟩ | ⟨s, hs, hrs⟩
    · rw [hsc, length_cons] at hlen
      omega
    · rw [hd, Nat.sub_self, hsc, take_succ_cons, take_zero, mem_singleton] at hs
      rw [hs] at hrs
      exact hnot hrs

/-- A borrow that was made and not released: its region, and the declaration it was taken
from. -/
structure Loan where
  region : RegionId
  source : String
  storage : RegionId
  deriving DecidableEq

/-- The environment, and the loans that its operations have left open. -/
structure History where
  env : LifetimeEnv
  loans : List Loan

namespace History

def start : History where
  env := LifetimeEnv.new
  loans := []

/-- A borrow that was granted is a loan from the current declaration of its source. -/
def lend (g : History) (source : String) : Except LifetimeError RegionId → List Loan
  | .ok region =>
    match g.env.known source with
    | some lt => ⟨region, source, lt.storageRegion⟩ :: g.loans
    | none => g.loans
  | .error _ => g.loans

/-- The loans after an operation: a borrow adds one, a release takes those of the current
declaration of its source, and a scope that ends takes none. -/
def lends (g : History) : Op → List Loan
  | .borrowShared source holder span => g.lend source (g.env.borrowShared source holder span).2
  | .borrowExclusive source holder span =>
    g.lend source (g.env.borrowExclusive source holder span).2
  | .releaseBorrow source =>
    match g.env.known source with
    | some lt => g.loans.filter fun loan =>
        ¬ (loan.source = source ∧ loan.storage = lt.storageRegion)
    | none => g.loans
  | _ => g.loans

def step (g : History) (op : Op) : History := ⟨g.env.step op, g.lends op⟩

def run (ops : List Op) : History := ops.foldl step start

/-- The innermost scope is about to take the local `x`, of which a local `h` of an enclosing
scope holds a borrow that was not released. -/
structure Dangles (g : History) (h x : String) : Prop where
  dies : ∃ lt, g.env.known x = some lt ∧ lt.isLive = true ∧ lt.declaredAtDepth = g.env.scopeDepth
  outlives : ∃ lt, g.env.known h = some lt ∧ lt.isLive = true ∧
    lt.declaredAtDepth < g.env.scopeDepth
  holds : ∃ loan ∈ g.loans, loan.source = x ∧
    (g.env.known x).map (·.storageRegion) = some loan.storage ∧
    (g.env.known h).bind (·.holdsBorrow) = some loan.region

/-- The end of the innermost scope reports a borrow that outlives `x`. -/
def Reported (g : History) (x : String) : Prop :=
  ∃ region span, .borrowOutlivesSource region x span ∈ g.env.popScope.2

theorem covered_run (ops : List Op) : Covered (run ops).env := by
  have hfold : ∀ (ops : List Op) (g : History), Covered g.env → Covered (ops.foldl step g).env := by
    intro ops
    induction ops with
    | nil => exact fun g h => h
    | cons op ops ih => exact fun g h => ih (g.step op) (covered_step h op)
  exact hfold ops start covered_new

/-- **Every dangling borrow is reported exactly when there is none.** -/
theorem reported_iff (ops : List Op) :
    (∀ h x, (run ops).Dangles h x → (run ops).Reported x) ↔ ¬ ∃ h x, (run ops).Dangles h x := by
  constructor
  · rintro hall ⟨h, x, hd⟩
    obtain ⟨region, span, hmem⟩ := hall h x hd
    rw [popScope_silent (covered_run ops)] at hmem
    cases hmem
  · intro hnone h x hd
    exact absurd ⟨h, x, hd⟩ hnone

/-- `h` in the function, `x` in a block; `h` takes a borrow of `x`, and the block ends. -/
def escaping : List Op :=
  [.declareLocal "h", .pushScope, .declareLocal "x", .borrowShared "x" (some "h") none]

/-- **A borrow that outlives its source, unreported.** -/
theorem escaping_unreported : (run escaping).Dangles "h" "x" ∧ ¬ (run escaping).Reported "x" := by
  refine ⟨⟨⟨_, rfl, rfl, rfl⟩, ⟨_, rfl, rfl, by decide⟩, ⟨2, "x", 1⟩, by decide, rfl, rfl, rfl⟩, ?_⟩
  rintro ⟨region, span, hmem⟩
  have hsilent : (run escaping).env.popScope.2 = [] := rfl
  rw [hsilent] at hmem
  cases hmem

end History

end Arth.Typeck
