import Arth.Lib.KeyTable

/-!
# The lifetime environment

The borrow checker keeps four mirrors of one fact: a borrow is active under its region, its
source lists that region, its holder names it, and the scope it was made in will end it.
Regions are numbered by a generator, which also numbers the storage of each local.

* `active_popScope`, `known_popScope`, `mem_errors` — the end of a scope.
* `active_createBorrow`, `known_releaseBorrow` and the like — the tables after the other
  operations, for one region or one name.
-/

namespace Arth.Typeck

open KeyTable List Option

/-- A region, by its number; the generator wraps around. -/
abbrev RegionId := UInt32

structure Span where
  file : String
  start : UInt32
  stop : UInt32
  deriving DecidableEq

inductive BorrowOrigin where
  | local (name : String)
  | field (base : String) (path : List String)
  | provider (name : String)
  | param (name : String)
  | unknown
  deriving DecidableEq

/-- The local a borrow was taken from, as the end of a scope looks it up. -/
def BorrowOrigin.source : BorrowOrigin → Option String
  | .local name => some name
  | .param name => some name
  | _ => none

inductive BorrowMode where
  | shared | exclusive
  deriving DecidableEq

structure BorrowInfo where
  region : RegionId
  origin : BorrowOrigin
  mode : BorrowMode
  holder : Option String
  span : Option Span
  scopeDepth : Nat
  deriving DecidableEq

structure LocalLifetime where
  storageRegion : RegionId
  borrowedBy : List RegionId
  holdsBorrow : Option RegionId
  declaredAtDepth : Nat
  isParam : Bool
  isLive : Bool
  deriving DecidableEq

inductive LifetimeError where
  | unknownSource (name : String)
  | conflictingBorrow (sourceName : String) (existingMode : BorrowMode) (existingSpan : Option Span)
      (newMode : BorrowMode) (newSpan : Option Span)
  | borrowOutlivesSource (borrowRegion : RegionId) (sourceName : String) (borrowSpan : Option Span)
  deriving DecidableEq

/-- The environment; `scopeRegions` has the innermost scope first. -/
structure LifetimeEnv where
  nextId : RegionId
  activeBorrows : Table RegionId BorrowInfo
  localLifetimes : Table String LocalLifetime
  scopeDepth : Nat
  scopeRegions : List (List RegionId)

namespace LifetimeEnv

def new : LifetimeEnv where
  nextId := 0
  activeBorrows := ∅
  localLifetimes := ∅
  scopeDepth := 0
  scopeRegions := [[]]

/-- The borrow under a region. -/
def active (e : LifetimeEnv) (r : RegionId) : Option BorrowInfo := e.activeBorrows.lookup r

/-- What is known of a name. -/
def known (e : LifetimeEnv) (x : String) : Option LocalLifetime := e.localLifetimes.lookup x

/-- The regions that borrow from a local; none for a name that is unknown. -/
def listed (e : LifetimeEnv) (source : String) : List RegionId :=
  ((e.known source).map (·.borrowedBy)).getD []

/-! ## Scopes -/

def pushScope (e : LifetimeEnv) : LifetimeEnv :=
  { e with scopeDepth := e.scopeDepth + 1, scopeRegions := [] :: e.scopeRegions }

/-- The borrow under `region` is over, and its source lists it no more. -/
def endRegion (e : LifetimeEnv) (region : RegionId) : LifetimeEnv :=
  match e.activeBorrows.lookup region with
  | none => e
  | some borrow =>
    { e with
      activeBorrows := e.activeBorrows.erase region
      localLifetimes :=
        match borrow.origin.source with
        | none => e.localLifetimes
        | some name => modifyAt name
            (fun lt => { lt with borrowedBy := lt.borrowedBy.filter (· ≠ region) })
            e.localLifetimes }

def endRegions (e : LifetimeEnv) (regions : List RegionId) : LifetimeEnv :=
  regions.foldl endRegion e

/-- The locals whose storage ends with the innermost scope. -/
def dying (e : LifetimeEnv) (lt : LocalLifetime) : Bool :=
  lt.isLive && lt.declaredAtDepth == e.scopeDepth

/-- What a dying local reports: its borrows that are still active. -/
def outliving (e : LifetimeEnv) (name : String) (lt : LocalLifetime) : List LifetimeError :=
  lt.borrowedBy.filterMap fun region => (e.activeBorrows.lookup region).map fun borrow =>
    .borrowOutlivesSource region name borrow.span

/-- The end of the innermost scope: its borrows end first, then its locals. -/
def popScope (e : LifetimeEnv) : LifetimeEnv × List LifetimeError :=
  match e.scopeRegions with
  | [] => ({ e with scopeDepth := e.scopeDepth - 1 }, [])
  | regions :: outer =>
    let e := { endRegions e regions with scopeRegions := outer }
    let errors := e.localLifetimes.entries.flatMap fun entry =>
      if e.dying entry.2 then e.outliving entry.1 entry.2 else []
    ({ e with
        localLifetimes := update
          (fun _ lt => if e.dying lt then { lt with isLive := false } else lt) e.localLifetimes
        scopeDepth := e.scopeDepth - 1 }, errors)

/-- The region into the set of the innermost scope, if there is one. -/
def trackInScope (region : RegionId) : List (List RegionId) → List (List RegionId)
  | [] => []
  | scope :: outer => scope.insert region :: outer

def declareLocal (e : LifetimeEnv) (name : String) : LifetimeEnv :=
  { e with
    nextId := e.nextId + 1
    localLifetimes := e.localLifetimes.insert name
      { storageRegion := e.nextId, borrowedBy := [], holdsBorrow := none
        declaredAtDepth := e.scopeDepth, isParam := false, isLive := true }
    scopeRegions := trackInScope e.nextId e.scopeRegions }

def declareParam (e : LifetimeEnv) (name : String) : LifetimeEnv :=
  { e with
    nextId := e.nextId + 1
    localLifetimes := e.localLifetimes.insert name
      { storageRegion := e.nextId, borrowedBy := [], holdsBorrow := none
        declaredAtDepth := 0, isParam := true, isLive := true } }

/-- The first listed borrow of `source` in a mode that `blocks` the new one. -/
def conflict (e : LifetimeEnv) (source : String) (blocks : BorrowMode → Bool) :
    Option BorrowInfo :=
  (e.localLifetimes.lookup source).bind fun lt =>
    lt.borrowedBy.findSome? fun region =>
      (e.activeBorrows.lookup region).filter fun borrow => blocks borrow.mode

/-- The holder, if it is a local, names the region. -/
def hold (holder : Option String) (region : RegionId) (locals : Table String LocalLifetime) :
    Table String LocalLifetime :=
  match holder with
  | none => locals
  | some name => modifyAt name (fun lt => { lt with holdsBorrow := some region }) locals

/-- The source, for a borrow of a local, lists the region. -/
def list (origin : BorrowOrigin) (region : RegionId) (locals : Table String LocalLifetime) :
    Table String LocalLifetime :=
  match origin with
  | .local name => modifyAt name (fun lt => { lt with borrowedBy := lt.borrowedBy.insert region })
      locals
  | _ => locals

/-- What the three kinds of borrow do once they are allowed. -/
def createBorrow (e : LifetimeEnv) (origin : BorrowOrigin) (mode : BorrowMode)
    (holder : Option String) (span : Option Span) : LifetimeEnv :=
  { e with
    nextId := e.nextId + 1
    activeBorrows := e.activeBorrows.insert e.nextId
      { region := e.nextId, origin, mode, holder, span, scopeDepth := e.scopeDepth }
    localLifetimes := hold holder e.nextId (list origin e.nextId e.localLifetimes)
    scopeRegions := trackInScope e.nextId e.scopeRegions }

def isLive (e : LifetimeEnv) (name : String) : Bool :=
  (e.localLifetimes.lookup name).any (·.isLive)

/-- A borrow of a local, in a mode that the modes in `blocks` exclude. -/
def borrowLocal (e : LifetimeEnv) (mode : BorrowMode) (blocks : BorrowMode → Bool)
    (source : String) (holder : Option String) (span : Option Span) :
    LifetimeEnv × Except LifetimeError RegionId :=
  if e.isLive source then
    match e.conflict source blocks with
    | some borrow =>
      (e, .error (.conflictingBorrow source borrow.mode borrow.span mode span))
    | none => (e.createBorrow (.local source) mode holder span, .ok e.nextId)
  else (e, .error (.unknownSource source))

def borrowShared (e : LifetimeEnv) (source : String) (holder : Option String)
    (span : Option Span) : LifetimeEnv × Except LifetimeError RegionId :=
  e.borrowLocal .shared (· == .exclusive) source holder span

def borrowExclusive (e : LifetimeEnv) (source : String) (holder : Option String)
    (span : Option Span) : LifetimeEnv × Except LifetimeError RegionId :=
  e.borrowLocal .exclusive (fun _ => true) source holder span

def borrowFromProvider (e : LifetimeEnv) (providerName : String) (holder : Option String)
    (mode : BorrowMode) (span : Option Span) : LifetimeEnv × RegionId :=
  (e.createBorrow (.provider providerName) mode holder span, e.nextId)

def clearHolder (locals : Table String LocalLifetime) (holder : String) :
    Table String LocalLifetime :=
  modifyAt holder (fun lt => { lt with holdsBorrow := none }) locals

def releaseBorrow (e : LifetimeEnv) (source : String) : LifetimeEnv :=
  let regionsToRemove := e.listed source
  let holdersToClear := regionsToRemove.filterMap fun region =>
    (e.activeBorrows.lookup region).bind (·.holder)
  let emptied := modifyAt source
    (fun lt => { lt with borrowedBy := lt.borrowedBy.filter fun r => r ∉ regionsToRemove })
    e.localLifetimes
  { e with
    activeBorrows := regionsToRemove.foldl (fun active region => active.erase region)
      e.activeBorrows
    localLifetimes := holdersToClear.foldl clearHolder emptied }

/-- Where two paths meet. What the first path has under a region or a name stays as it is,
but for the regions that the second one lists there. -/
def join (e other : LifetimeEnv) : LifetimeEnv :=
  { e with
    activeBorrows := e.activeBorrows ∪ other.activeBorrows
    localLifetimes := merge
      (fun existing lt => { existing with borrowedBy := existing.borrowedBy ∪ lt.borrowedBy })
      e.localLifetimes other.localLifetimes }

/-- The operations that a checker makes along one path. -/
inductive Op where
  | declareLocal (name : String)
  | declareParam (name : String)
  | pushScope
  | popScope
  | borrowShared (source : String) (holder : Option String) (span : Option Span)
  | borrowExclusive (source : String) (holder : Option String) (span : Option Span)
  | borrowFromProvider (provider : String) (holder : Option String) (mode : BorrowMode)
      (span : Option Span)
  | releaseBorrow (source : String)

def step (e : LifetimeEnv) : Op → LifetimeEnv
  | .declareLocal name => e.declareLocal name
  | .declareParam name => e.declareParam name
  | .pushScope => e.pushScope
  | .popScope => e.popScope.1
  | .borrowShared source holder span => (e.borrowShared source holder span).1
  | .borrowExclusive source holder span => (e.borrowExclusive source holder span).1
  | .borrowFromProvider provider holder mode span =>
    (e.borrowFromProvider provider holder mode span).1
  | .releaseBorrow source => e.releaseBorrow source

/-! ## The tables after each operation -/

variable {e : LifetimeEnv}

theorem mem_trackInScope {r r' : RegionId} {n : Nat} {scopes : List (List RegionId)}
    {s : List RegionId} (hs : s ∈ scopes.take n) (hr : r ∈ s) :
    ∃ s' ∈ (trackInScope r' scopes).take n, r ∈ s' := by
  cases scopes with
  | nil => exact absurd hs (by simp)
  | cons scope outer =>
    cases n with
    | zero => cases hs
    | succ n =>
      rw [take_succ_cons, mem_cons] at hs
      rcases hs with rfl | hs
      · exact ⟨s.insert r', by simp [trackInScope], mem_insert_of_mem hr⟩
      · exact ⟨s, by simp [trackInScope, hs], hr⟩

theorem length_trackInScope (r : RegionId) (scopes : List (List RegionId)) :
    (trackInScope r scopes).length = scopes.length := by
  cases scopes <;> rfl

theorem active_endRegion (r r' : RegionId) :
    (e.endRegion r).active r' = if r' = r then none else e.active r' := by
  cases hr : e.activeBorrows.lookup r with
  | none =>
    simp only [endRegion, hr]
    split_ifs with heq
    · rw [heq]
      exact hr
    · rfl
  | some borrow =>
    simp only [endRegion, hr]
    exact lookup_erase_eq _ _ _

theorem known_endRegion (r : RegionId) (y : String) :
    (e.endRegion r).known y = (e.known y).map fun lt =>
      { lt with
        borrowedBy := lt.borrowedBy.filter fun r' =>
          ¬ (r' = r ∧ (e.active r).bind (·.origin.source) = some y) } := by
  cases hr : e.activeBorrows.lookup r with
  | none => simp [endRegion, active, hr, known]
  | some borrow =>
    cases hsource : borrow.origin.source with
    | none => simp [endRegion, active, hr, known, hsource]
    | some name =>
      simp only [endRegion, known, active, hr, hsource, lookup_modifyAt, bind_some, some.injEq]
      by_cases hy : y = name
      · subst hy
        simp
      · have hne : ¬ name = y := fun h => hy h.symm
        simp [hy, hne]

theorem active_endRegions (rs : List RegionId) (r : RegionId) :
    (e.endRegions rs).active r = if r ∈ rs then none else e.active r := by
  induction rs generalizing e with
  | nil => simp [endRegions]
  | cons r₀ rs ih =>
    change ((e.endRegion r₀).endRegions rs).active r = _
    rw [ih, active_endRegion]
    by_cases h : r ∈ rs <;> by_cases h₀ : r = r₀ <;> simp [h, h₀]

/-- **The end of a scope takes its borrows off the lists of their sources**, and nothing
else. -/
theorem known_endRegions (rs : List RegionId) (y : String) :
    (e.endRegions rs).known y = (e.known y).map fun lt =>
      { lt with
        borrowedBy := lt.borrowedBy.filter fun r =>
          ¬ (r ∈ rs ∧ (e.active r).bind (·.origin.source) = some y) } := by
  induction rs generalizing e with
  | nil => simp [endRegions]
  | cons r₀ rs ih =>
    change ((e.endRegion r₀).endRegions rs).known y = _
    rw [ih, known_endRegion, Option.map_map]
    refine congrArg (Option.map · (e.known y)) (funext fun lt => ?_)
    simp only [Function.comp_apply, List.filter_filter, LocalLifetime.mk.injEq, and_true, true_and]
    refine filter_congr fun r _ => ?_
    rw [active_endRegion]
    by_cases h₀ : r = r₀
    · subst h₀
      simp
    · simp [h₀]

theorem scopes_endRegions (rs : List RegionId) : (e.endRegions rs).scopeRegions = e.scopeRegions ∧
      (e.endRegions rs).scopeDepth = e.scopeDepth ∧ (e.endRegions rs).nextId = e.nextId := by
  induction rs generalizing e with
  | nil => exact ⟨rfl, rfl, rfl⟩
  | cons r₀ rs ih =>
    have hstep : (e.endRegion r₀).scopeRegions = e.scopeRegions ∧
        (e.endRegion r₀).scopeDepth = e.scopeDepth ∧ (e.endRegion r₀).nextId = e.nextId := by
      unfold endRegion
      cases e.activeBorrows.lookup r₀ <;> exact ⟨rfl, rfl, rfl⟩
    have := ih (e := e.endRegion r₀)
    rwa [hstep.1, hstep.2.1, hstep.2.2] at this

variable {outer : List (List RegionId)} {regions : List RegionId} {y : String}

theorem active_popScope (h : e.scopeRegions = regions :: outer) (r : RegionId) :
    e.popScope.1.active r = if r ∈ regions then none else e.active r := by
  simp only [popScope, h]
  exact active_endRegions regions r

theorem known_popScope (h : e.scopeRegions = regions :: outer) (y : String) :
    e.popScope.1.known y = (e.known y).map fun lt => { lt with
        borrowedBy := lt.borrowedBy.filter fun r =>
          ¬ (r ∈ regions ∧ (e.active r).bind (·.origin.source) = some y)
        isLive := lt.isLive && lt.declaredAtDepth != e.scopeDepth } := by
  have hends := known_endRegions (e := e) regions y
  simp only [popScope, h]
  simp only [known, lookup_update] at hends ⊢
  rw [hends, Option.map_map]
  refine congrArg (Option.map · (e.localLifetimes.lookup y)) (funext fun lt => ?_)
  simp only [Function.comp_apply, dying, (scopes_endRegions regions).2.1]
  cases hlive : lt.isLive <;> by_cases hd : lt.declaredAtDepth = e.scopeDepth <;> simp [hd]

/-- A report at the end of a scope is about a local that dies there, and about a borrow of it
that is still active when the borrows of the scope have ended. -/
theorem mem_errors
    (h : e.scopeRegions = regions :: outer) {err : LifetimeError} (herr : err ∈ e.popScope.2) :
    ∃ y lt r b, e.known y = some lt ∧ lt.isLive = true ∧ lt.declaredAtDepth = e.scopeDepth ∧
      r ∈ lt.borrowedBy ∧ r ∉ regions ∧ e.active r = some b ∧
      err = .borrowOutlivesSource r y b.span := by
  simp only [popScope, h, mem_flatMap] at herr
  obtain ⟨⟨y, lt'⟩, hentry, herr⟩ := herr
  have hends : (e.endRegions regions).known y = some lt' := (mem_entries_iff _ _ _).1 hentry
  have hknown := hends
  rw [known_endRegions] at hknown
  obtain ⟨lt, hlt, rfl⟩ := map_eq_some_iff.1 hknown
  split_ifs at herr with hdying
  · simp only [dying, (scopes_endRegions regions).2.1, Bool.and_eq_true, beq_iff_eq] at hdying
    simp only [outliving, mem_filterMap, map_eq_some_iff] at herr
    obtain ⟨r, hr, b, hb, rfl⟩ := herr
    change (e.endRegions regions).active r = some b at hb
    rw [active_endRegions] at hb
    split at hb
    · cases hb
    · rename_i hnot
      exact ⟨y, lt, r, b, hlt, hdying.1, hdying.2, mem_of_mem_filter hr, hnot, hb, rfl⟩
  · cases herr

theorem known_createBorrow (origin : BorrowOrigin) (mode : BorrowMode) (holder : Option String)
    (span : Option Span) (y : String) :
    (e.createBorrow origin mode holder span).known y = (e.known y).map fun lt =>
      { lt with
        borrowedBy := if origin = .local y then lt.borrowedBy.insert e.nextId else lt.borrowedBy
        holdsBorrow := if holder = some y then some e.nextId else lt.holdsBorrow } := by
  have hlist : (list origin e.nextId e.localLifetimes).lookup y = (e.known y).map fun lt =>
      { lt with
        borrowedBy := if origin = .local y then lt.borrowedBy.insert e.nextId
          else lt.borrowedBy } := by
    cases origin with
    | «local» x =>
      simp only [list, lookup_modifyAt, BorrowOrigin.local.injEq, known]
      by_cases hx : y = x
      · subst hx
        simp
      · have hne : ¬ x = y := fun h => hx h.symm
        simp [hx, hne]
    | _ => simp [list, known]
  cases holder with
  | none => simpa [known, createBorrow, hold] using hlist
  | some h =>
    simp only [known, createBorrow, hold, lookup_modifyAt, some.injEq]
    by_cases hh : y = h
    · subst hh
      simp [hlist, known, Function.comp_def]
    · have hne : ¬ h = y := fun heq => hh heq.symm
      simpa [hh, hne, known] using hlist

theorem active_createBorrow (origin : BorrowOrigin) (mode : BorrowMode) (holder : Option String)
    (span : Option Span) (r : RegionId) : (e.createBorrow origin mode holder span).active r =
      if r = e.nextId then some ⟨e.nextId, origin, mode, holder, span, e.scopeDepth⟩
      else e.active r :=
  lookup_insert_eq _ _ _ _

theorem active_releaseBorrow (x : String) (r : RegionId) :
    (e.releaseBorrow x).active r = if r ∈ e.listed x then none else e.active r := by
  have hfold : ∀ (rs : List RegionId) (t : Table RegionId BorrowInfo),
      (rs.foldl (fun active region => active.erase region) t).lookup r =
        if r ∈ rs then none else t.lookup r := by
    intro rs
    induction rs with
    | nil => simp
    | cons r₀ rs ih =>
      intro t
      rw [foldl_cons, ih, lookup_erase_eq]
      by_cases h : r ∈ rs <;> by_cases h₀ : r = r₀ <;> simp [h, h₀]
  exact hfold _ _

theorem known_releaseBorrow (x y : String) : (e.releaseBorrow x).known y = (e.known y).map fun lt =>
      { lt with
        borrowedBy := if y = x then [] else lt.borrowedBy
        holdsBorrow := if ∃ r ∈ e.listed x, ∃ b, e.active r = some b ∧ b.holder = some y then none
          else lt.holdsBorrow } := by
  have hfold : ∀ (hs : List String) (t : Table String LocalLifetime),
      (hs.foldl clearHolder t).lookup y = (t.lookup y).map fun lt =>
        { lt with holdsBorrow := if y ∈ hs then none else lt.holdsBorrow } := by
    intro hs
    induction hs with
    | nil => simp
    | cons h hs ih =>
      intro t
      rw [foldl_cons, ih, clearHolder, lookup_modifyAt]
      by_cases hm : y ∈ hs <;> by_cases heq : y = h <;> simp [hm, heq, Function.comp_def]
  have hmem : y ∈ (e.listed x).filterMap (fun region =>
      (e.activeBorrows.lookup region).bind (·.holder)) ↔
      ∃ r ∈ e.listed x, ∃ b, e.active r = some b ∧ b.holder = some y := by
    simp only [mem_filterMap, bind_eq_some_iff, active]
  have hempty : (modifyAt x (fun lt => { lt with
        borrowedBy := lt.borrowedBy.filter fun r => r ∉ e.listed x }) e.localLifetimes).lookup y =
      (e.known y).map fun lt => { lt with borrowedBy := if y = x then [] else lt.borrowedBy } := by
    rw [lookup_modifyAt]
    by_cases hy : y = x
    · subst hy
      simp only [known, if_true]
      cases hk : e.localLifetimes.lookup y with
      | none => rfl
      | some lt => simp [listed, known, hk]
    · simp [hy, known]
  change ((List.filterMap _ (e.listed x)).foldl clearHolder (modifyAt x _ e.localLifetimes)).lookup y
    = _
  rw [hfold, hempty, Option.map_map]
  simp only [hmem, Function.comp_def]

theorem known_declareLocal (x y : String) : (e.declareLocal x).known y =
      if y = x then some ⟨e.nextId, [], none, e.scopeDepth, false, true⟩ else e.known y :=
  lookup_insert_eq _ _ _ _

theorem known_declareParam (x y : String) : (e.declareParam x).known y =
      if y = x then some ⟨e.nextId, [], none, 0, true, true⟩ else e.known y :=
  lookup_insert_eq _ _ _ _

theorem borrowLocal_cases (mode : BorrowMode) (blocks : BorrowMode → Bool) (source : String)
    (holder : Option String) (span : Option Span) :
    (e.borrowLocal mode blocks source holder span).1 = e ∨
      (e.isLive source = true ∧ e.conflict source blocks = none ∧
        (e.borrowLocal mode blocks source holder span).1 =
          e.createBorrow (.local source) mode holder span) := by
  unfold borrowLocal
  split_ifs with hlive
  · cases hc : e.conflict source blocks with
    | some b => exact .inl rfl
    | none => exact .inr ⟨hlive, rfl, rfl⟩
  · exact .inl rfl

theorem active_join (other : LifetimeEnv) (r : RegionId) :
    (e.join other).active r = (e.active r).or (other.active r) := by
  cases hr : e.active r with
  | none => exact AList.lookup_union_right (AList.lookup_eq_none.1 hr)
  | some b =>
    have hmem : r ∈ e.activeBorrows := AList.lookup_isSome.1 (by
      change (e.active r).isSome = true
      rw [hr]
      rfl)
    exact (AList.lookup_union_left hmem).trans hr

theorem known_join_none {other : LifetimeEnv} (h : e.known y = none) :
    (e.join other).known y = other.known y := by
  have hy : e.localLifetimes.lookup y = none := h
  simp only [known, join, lookup_merge, hy]

theorem known_join_some (other : LifetimeEnv) {lt : LocalLifetime}
    (h : e.known y = some lt) : ∃ bs, (e.join other).known y = some { lt with borrowedBy := bs } ∧
      ∀ r, r ∈ bs ↔ r ∈ lt.borrowedBy ∨ r ∈ other.listed y := by
  have hy : e.localLifetimes.lookup y = some lt := h
  simp only [known, join, lookup_merge, hy, listed]
  cases other.localLifetimes.lookup y with
  | none => exact ⟨lt.borrowedBy, rfl, by simp⟩
  | some lt' => exact ⟨lt.borrowedBy ∪ lt'.borrowedBy, rfl, by simp⟩

end LifetimeEnv

end Arth.Typeck
