import Arth.Driver.EnumTags

/-!
# When the tags of enums are consistent

A discriminant starts a run of variants that are numbered one after another. What the driver
computes is right when the runs of an enum do not meet.

* `layout` — the runs of an enum, over the integers; `none` when a discriminant does not
  evaluate.
* `advance` — one variant more; `Laid` relates the runs to the loop of the driver, and
  `Laid.advance` keeps it.
* `computed_of_layout`, `layout_of_computed` — the loop and the layout, by induction on the
  variants.
* `WellLaid` — the condition, and `consistent_iff` the equivalence.
-/

namespace Arth.EnumTags

open ConstEval List Option
open KeyTable (Table lookup_insert_eq)

variable {F : Type} (fl : FloatOps F)

/-! ## Runs of variants -/

/-- The variants from one explicit discriminant, or from the first variant, to the next. -/
structure Run where
  start : ℤ
  names : List String

def Run.stop (r : Run) : ℤ := r.start + r.names.length

def Run.value (r : Run) (name : String) : Option ℤ :=
  if name ∈ r.names then some (r.start + r.names.idxOf name) else none

def valueIn (runs : List Run) (name : String) : Option ℤ := runs.findSome? (·.value name)

def runNames (runs : List Run) : List String := runs.flatMap (·.names)

/-- The number after the last variant. -/
def nextOf : List Run → ℤ
  | [] => 0
  | r :: _ => r.stop

/-- A variant more: at the end of the last run, or at the start of a run of its own. -/
def advance (runs : List Run) (start : Option Int64) (name : String) : List Run :=
  match start, runs with
  | some k, runs => ⟨k.toInt, [name]⟩ :: runs
  | none, [] => [⟨0, [name]⟩]
  | none, r :: rs => ⟨r.start, r.names ++ [name]⟩ :: rs

/-- What an explicit discriminant may refer to. -/
def contextOfRuns (runs : List Run) : ConstEvalContext F :=
  { constants := fun name => (valueIn runs name).map fun k => .int (Int64.ofInt k)
    evaluating := [] }

/-- The explicit discriminant of a variant, if it has one; `none` when it does not
evaluate. -/
def declared (ctx : ConstEvalContext F) : Option (HirExpr F) → Option (Option Int64)
  | none => some none
  | some disc =>
    match evalIntegralConst fl ctx disc with
    | .ok k => some (some k)
    | .error _ => none

def layoutFrom (runs : List Run) : List (HirEnumVariant F) → Option (List Run)
  | [] => some runs
  | v :: vs => (declared fl (contextOfRuns runs) v.discriminant).bind fun start =>
    layoutFrom (advance runs start v.name) vs

/-- The runs of an enum, the last one first. -/
def layout (en : HirEnum F) : Option (List Run) := layoutFrom fl [] en.variants

/-- Two runs have no number in common. -/
def Run.Apart (r s : Run) : Prop := r.stop ≤ s.start ∨ s.stop ≤ r.start

/-- The constructor of the variant is lowered as one. -/
def Spelled (enumName : String) : HirEnumVariant F → Prop
  | .unit _ _ => looksType enumName
  | .tuple name types _ => looksType enumName ∧ ¬ intercepted enumName name types.length

/-- The enum that the table has under a name. -/
def lastNamed (decls : List (HirEnum F)) (name : String) : Option (HirEnum F) :=
  decls.reverse.find? fun en => en.name = name

def valueOf (en : HirEnum F) (name : String) : Option ℤ := (layout fl en).bind (valueIn · name)

/-- **The tags of the enum come out as they should.** Its discriminants evaluate, to runs of
numbers from 0 on that do not meet and that leave room for one number more; its constructors
are taken for constructors; and where a later enum has its name, the variants have the same
numbers there. -/
structure WellLaid (decls : List (HirEnum F)) (en : HirEnum F) : Prop where
  runs : ∃ runs, layout fl en = some runs ∧
    (∀ r ∈ runs, 0 ≤ r.start ∧ r.stop < 2 ^ 63) ∧ runs.Pairwise Run.Apart
  spelled : ∀ v ∈ en.variants, Spelled en.name v
  shared : ∀ en', lastNamed decls en.name = some en' →
    ∀ v ∈ en.variants, valueOf fl en' v.name = valueOf fl en v.name

/-- The number of the next variant. -/
def numberOf (runs : List Run) (start : Option Int64) : ℤ :=
  (start.map Int64.toInt).getD (nextOf runs)

theorem nextOf_advance (runs : List Run) (start : Option Int64) (name : String) :
    nextOf (advance runs start name) = numberOf runs start + 1 := by
  cases start with
  | some k => rfl
  | none =>
    rcases runs with _ | ⟨r, rs⟩
    · rfl
    · simp only [advance, nextOf, numberOf, Run.stop, map_none, getD_none,
        length_append, length_singleton]
      omega

theorem runNames_advance (runs : List Run) (start : Option Int64) (name : String) :
    (runNames (advance runs start name)).Perm (name :: runNames runs) := by
  cases start with
  | some k => exact Perm.refl _
  | none =>
    rcases runs with _ | ⟨r, rs⟩
    · exact Perm.refl _
    · simp only [advance, runNames, flatMap_cons, append_assoc]
      exact perm_middle

variable {name : String} {runs : List Run}

theorem mem_runNames : name ∈ runNames runs ↔ ∃ r ∈ runs, name ∈ r.names := mem_flatMap

theorem valueIn_eq_none (h : name ∉ runNames runs) : valueIn runs name = none := by
  refine findSome?_eq_none_iff.2 fun r hr => ?_
  exact if_neg fun hmem => h (mem_runNames.2 ⟨r, hr, hmem⟩)

variable {start : Option Int64}

theorem valueIn_advance
    (hfresh : name ∉ runNames runs) (n : String) : valueIn (advance runs start name) n =
      if n = name then some (numberOf runs start) else valueIn runs n := by
  have hpush : ∀ k, valueIn (⟨k, [name]⟩ :: runs) n =
      if n = name then some k else valueIn runs n := by
    intro k
    unfold valueIn
    by_cases hn : n = name
    · simp [Run.value, hn]
    · simp [Run.value, hn]
  cases start with
  | some k => exact hpush k.toInt
  | none =>
    rcases runs with _ | ⟨r, rs⟩
    · exact hpush 0
    · have hr : name ∉ r.names := fun hmem =>
        hfresh (mem_runNames.2 ⟨r, mem_cons_self, hmem⟩)
      unfold valueIn advance
      by_cases hn : n = name
      · subst hn
        simp [Run.value, numberOf, nextOf, Run.stop, idxOf_append_of_notMem hr]
      · by_cases hmem : n ∈ r.names
        · simp [Run.value, hn, hmem, idxOf_append_of_mem hmem]
        · simp [Run.value, hn, hmem]

theorem mem_advance {r : Run} (h : r ∈ advance runs start name) :
    r ∈ runs ∨ (r.names ≠ [] ∧ r.stop = numberOf runs start + 1 ∧
      (r.start = numberOf runs start ∨ ∃ s ∈ runs, s.start = r.start)) := by
  have hnext := nextOf_advance runs start name
  cases start with
  | some k =>
    rcases mem_cons.1 h with rfl | h
    · exact .inr ⟨by simp, hnext, .inl rfl⟩
    · exact .inl h
  | none =>
    rcases runs with _ | ⟨s, rs⟩
    · obtain rfl := mem_singleton.1 h
      exact .inr ⟨by simp, hnext, .inl rfl⟩
    · rcases mem_cons.1 h with rfl | h
      · exact .inr ⟨by simp, hnext, .inr ⟨s, mem_cons_self, rfl⟩⟩
      · exact .inl (mem_cons_of_mem s h)

theorem advance_ne_nil (runs : List Run) (start : Option Int64) (name : String) :
    advance runs start name ≠ [] := by
  cases start <;> rcases runs with _ | ⟨r, rs⟩ <;> simp [advance]

/-! ## The loop of the driver -/

/-- The state of the loop after the variants `earlier`, and their runs. -/
structure Laid (earlier : List (HirEnumVariant F)) (runs : List Run) (ctx : ConstEvalContext F)
    (vmap : Tags) (next : Int64) : Prop where
  nodup : (runNames runs).Nodup
  mem : ∀ n, n ∈ runNames runs ↔ n ∈ earlier.map (·.name)
  lookup : ∀ n, vmap.lookup n = (valueIn runs n).map Int64.ofInt
  next : next.toInt = nextOf runs
  bounded : ∀ r ∈ runs, -2 ^ 63 ≤ r.start ∧ r.stop < 2 ^ 63
  filled : ∀ r ∈ runs, r.names ≠ []
  idle : ctx.evaluating = []
  context : ∀ n, vmap.lookup n = none → ctx.constants n = none

variable {earlier vs : List (HirEnumVariant F)} {runs runs' : List Run}
  {ctx : ConstEvalContext F} {vmap vmap' : Tags} {next : Int64} {disc : Option (HirExpr F)}

theorem laid_start : Laid [] [] (.new : ConstEvalContext F) ∅ 0 where
  nodup := nodup_nil
  mem n := by simp [runNames]
  lookup _ := rfl
  next := rfl
  bounded := by simp
  filled := by simp
  idle := rfl
  context _ _ := rfl

theorem Laid.setEnumVariants_eq (h : Laid earlier runs ctx vmap next) :
    setEnumVariants ctx vmap = contextOfRuns runs := by
  unfold setEnumVariants contextOfRuns
  congr 1
  · funext n
    have hn := h.lookup n
    cases hv : valueIn runs n with
    | none =>
      rw [hv, map_none] at hn
      simp [hn, h.context n hn]
    | some k =>
      rw [hv, map_some] at hn
      simp [hn]
  · exact h.idle

theorem variantTag_eq {ctx : ConstEvalContext F}
    (h : declared fl ctx disc = some start) (next : Int64) :
    variantTag fl ctx next disc = start.getD next := by
  cases disc with
  | none =>
    cases h
    rfl
  | some e =>
    unfold declared at h
    unfold variantTag
    cases he : evalIntegralConst fl ctx e with
    | ok k =>
      simp only [he] at h
      cases h
      simp only [he, getD_some]
    | error err => simp [he] at h

theorem Laid.numberOf_eq (h : Laid earlier runs ctx vmap next) (start : Option Int64) :
    (start.getD next).toInt = numberOf runs start := by
  cases start with
  | some k => rfl
  | none => exact h.next

variable {v : HirEnumVariant F}

/-- **One variant more**, with its tag and the number after it. -/
theorem Laid.advance (h : Laid earlier runs ctx vmap next)
    (hfresh : v.name ∉ earlier.map (·.name)) (start : Option Int64) {next' : Int64}
    (hnext : checkedAdd (start.getD next) 1 = some next') :
    Laid (earlier ++ [v]) (advance runs start v.name) (setEnumVariants ctx vmap)
      (vmap.insert v.name (start.getD next)) next' := by
  have hname : v.name ∉ runNames runs := fun hmem => hfresh ((h.mem _).1 hmem)
  have htag := h.numberOf_eq start
  have hsum := checkedAdd_eq_some.1 hnext
  have hone : (1 : Int64).toInt = 1 := by decide
  refine ⟨?_, ?_, ?_, ?_, ?_, ?_, h.idle, ?_⟩
  · exact (runNames_advance runs start v.name).nodup_iff.2 (nodup_cons.2 ⟨hname, h.nodup⟩)
  · intro n
    rw [(runNames_advance runs start v.name).mem_iff, map_append, mem_append, mem_cons, h.mem]
    simp [or_comm]
  · intro n
    rw [lookup_insert_eq, valueIn_advance hname]
    split
    · rw [map_some, ← htag, Int64.ofInt_toInt]
    · exact h.lookup n
  · rw [nextOf_advance]
    omega
  · intro r hr
    rcases mem_advance hr with hold | ⟨-, hstop, hstart⟩
    · exact h.bounded r hold
    · have hlow := (start.getD next).le_toInt
      have hhigh := next'.toInt_lt
      refine ⟨?_, by omega⟩
      rcases hstart with hstart | ⟨s, hs, hstart⟩
      · omega
      · have := (h.bounded s hs).1
        omega
  · intro r hr
    rcases mem_advance hr with hold | ⟨hne, -⟩
    · exact h.filled r hold
    · exact hne
  · intro n hn
    have hold : vmap.lookup n = none := by
      rw [lookup_insert_eq] at hn
      split at hn
      · cases hn
      · exact hn
    simp [setEnumVariants, hold, h.context n hold]

theorem nextOf_le_of_layout {fl : FloatOps F} (hne : runs ≠ [])
    (hl : layoutFrom fl runs vs = some runs') : ∃ r ∈ runs', nextOf runs ≤ r.stop := by
  have hmono : ∀ (vs : List (HirEnumVariant F)) (runs : List Run),
      layoutFrom fl runs vs = some runs' →
      ∀ k, (∃ r ∈ runs, k ≤ r.stop) → ∃ r ∈ runs', k ≤ r.stop := by
    intro vs
    induction vs with
    | nil =>
      intro runs hl k hk
      cases hl
      exact hk
    | cons v vs ih =>
      intro runs hl k hk
      obtain ⟨start, -, hl⟩ := bind_eq_some_iff.1 hl
      refine ih _ hl k ?_
      obtain ⟨r, hr, hk⟩ := hk
      cases start with
      | some j => exact ⟨r, mem_cons_of_mem _ hr, hk⟩
      | none =>
        rcases runs with _ | ⟨s, rs⟩
        · cases hr
        · rcases mem_cons.1 hr with rfl | hr
          · refine ⟨_, mem_cons_self, ?_⟩
            simp only [Run.stop, length_append, length_singleton] at hk ⊢
            omega
          · exact ⟨r, mem_cons_of_mem _ hr, hk⟩
  rcases runs with _ | ⟨s, rs⟩
  · exact absurd rfl hne
  · exact hmono vs _ hl _ ⟨s, mem_cons_self, le_refl _⟩

theorem lookup_of_computeFrom {fl : FloatOps F}
    (hc : computeFrom fl ctx vmap next vs = some vmap') {n : String}
    (hn : n ∉ vs.map (·.name)) : vmap'.lookup n = vmap.lookup n := by
  induction vs generalizing ctx vmap next with
  | nil =>
    cases hc
    rfl
  | cons v vs ih =>
    rw [map_cons, mem_cons, not_or] at hn
    obtain ⟨next', -, hc⟩ := bind_eq_some_iff.1 hc
    rw [ih hc hn.2, lookup_insert_eq, if_neg hn.1]

/-- The discriminants of the variants `vs`, which come after `earlier`, evaluate to their
tags. -/
def Explicit (vmap : Tags) (earlier vs : List (HirEnumVariant F)) : Prop :=
  ∀ before v after disc, vs = before ++ v :: after → v.discriminant = some disc →
    ∃ k, evalIntegralConst fl (contextOf vmap.lookup (earlier ++ before)) disc = .ok k ∧
      vmap.lookup v.name = some k

theorem explicit_cons {fl : FloatOps F} : Explicit fl vmap earlier (v :: vs) ↔
      (∀ disc, v.discriminant = some disc →
        ∃ k, evalIntegralConst fl (contextOf vmap.lookup earlier) disc = .ok k ∧
          vmap.lookup v.name = some k) ∧ Explicit fl vmap (earlier ++ [v]) vs := by
  constructor
  · intro h
    constructor
    · intro disc hd
      simpa using h [] v vs disc rfl hd
    · intro before w after disc hsplit hd
      have := h (v :: before) w after disc (by rw [hsplit]; rfl) hd
      simpa using this
  · rintro ⟨hhead, htail⟩ before w after disc hsplit hd
    rcases before with _ | ⟨u, before⟩
    · cases hsplit
      simpa using hhead disc hd
    · obtain ⟨rfl, htl⟩ := cons.inj hsplit
      simpa using htail before w after disc htl hd

theorem Laid.contextOf_eq (h : Laid earlier runs ctx vmap next)
    (hsame : ∀ n ∈ earlier.map (·.name), vmap'.lookup n = vmap.lookup n) :
    contextOf vmap'.lookup earlier = (contextOfRuns runs : ConstEvalContext F) := by
  unfold contextOf contextOfRuns
  congr 1
  funext n
  split_ifs with hn
  · have heq := (hsame n hn).trans (h.lookup n)
    simp only [heq, Option.map_map]
    rfl
  · rw [valueIn_eq_none fun hmem => hn ((h.mem n).1 hmem)]
    rfl

theorem declared_eq_some {ctx : ConstEvalContext F} (h : declared fl ctx disc = some start) :
    ∀ e, disc = some e → ∃ k, start = some k ∧ evalIntegralConst fl ctx e = .ok k := by
  rintro e rfl
  unfold declared at h
  cases he : evalIntegralConst fl ctx e with
  | ok k =>
    simp only [he] at h
    exact ⟨k, (some.inj h).symm, rfl⟩
  | error err => simp [he] at h

theorem fresh_of_nodup (h : ((earlier ++ v :: vs).map (·.name)).Nodup) :
    v.name ∉ earlier.map (·.name) ∧ v.name ∉ vs.map (·.name) ∧
      (∀ n ∈ (earlier ++ [v]).map (·.name), n ∉ vs.map (·.name)) := by
  rw [map_append, map_cons, nodup_append] at h
  obtain ⟨-, htail, hdis⟩ := h
  have hv := (nodup_cons.1 htail).1
  refine ⟨fun hmem => hdis _ hmem _ mem_cons_self rfl, hv, ?_⟩
  intro n hn hmem
  rw [map_append, mem_append] at hn
  rcases hn with hn | hn
  · exact hdis n hn n (mem_cons_of_mem _ hmem) rfl
  · rw [map_singleton, mem_singleton] at hn
    exact hv (hn ▸ hmem)

/-- **A layout that leaves room is what the loop computes.** -/
theorem computed_of_layout {fl : FloatOps F} (h : Laid earlier runs ctx vmap next)
    (hnodup : ((earlier ++ vs).map (·.name)).Nodup)
    (hl : layoutFrom fl runs vs = some runs') (hroom : ∀ r ∈ runs', r.stop < 2 ^ 63) :
    ∃ vmap' ctx' next', computeFrom fl ctx vmap next vs = some vmap' ∧
      Laid (earlier ++ vs) runs' ctx' vmap' next' ∧ Explicit fl vmap' earlier vs := by
  induction vs generalizing earlier runs ctx vmap next with
  | nil =>
    cases hl
    refine ⟨vmap, ctx, next, rfl, by rwa [append_nil], ?_⟩
    intro before v after disc hsplit
    simp at hsplit
  | cons v vs ih =>
    obtain ⟨start, hstart, hl⟩ := bind_eq_some_iff.1 hl
    obtain ⟨hfresh, -, hlater⟩ := fresh_of_nodup hnodup
    have hctx := h.setEnumVariants_eq
    have htag := h.numberOf_eq start
    -- the number after the tag is at most the end of some run of the layout
    obtain ⟨r, hr, hle⟩ := nextOf_le_of_layout (advance_ne_nil _ _ _) hl
    have hone : (1 : Int64).toInt = 1 := by decide
    have hlow := (start.getD next).le_toInt
    obtain ⟨next', hnext⟩ : ∃ next', checkedAdd (start.getD next) 1 = some next' := by
      have := hroom r hr
      rw [nextOf_advance] at hle
      refine ⟨Int64.ofInt ((start.getD next).toInt + 1), checkedAdd_eq_some.2 ?_⟩
      rw [hone, Int64.toInt_ofInt_of_le (by omega) (by omega)]
    have hstep := h.advance hfresh start hnext
    obtain ⟨vmap', ctx', next'', hc, hlaid, hexp⟩ :=
      ih hstep (by simpa using hnodup) hl
    refine ⟨vmap', ctx', next'', ?_, by simpa using hlaid, ?_⟩
    · simp only [computeFrom]
      rw [variantTag_eq fl (hctx ▸ hstart), hnext]
      exact hc
    · refine explicit_cons.2 ⟨?_, hexp⟩
      intro disc hd
      obtain ⟨k, rfl, he⟩ := declared_eq_some fl hstart disc hd
      have hkeep : ∀ n ∈ (earlier ++ [v]).map (·.name),
          vmap'.lookup n = (vmap.insert v.name k).lookup n :=
        fun n hn => lookup_of_computeFrom hc (hlater n hn)
      refine ⟨k, ?_, ?_⟩
      · have hsame : ∀ n ∈ earlier.map (·.name), vmap'.lookup n = vmap.lookup n := by
          intro n hn
          have hne : n ≠ v.name := fun heq => hfresh (heq ▸ hn)
          rw [hkeep n (by rw [map_append]; exact mem_append_left _ hn),
            lookup_insert_eq, if_neg hne]
        rw [h.contextOf_eq hsame, he]
      · rw [hkeep v.name (by simp), lookup_insert_eq, if_pos rfl]

/-- **What the loop computes is a layout**, if the discriminants evaluate to their tags. -/
theorem layout_of_computed {fl : FloatOps F} (h : Laid earlier runs ctx vmap next)
    (hnodup : ((earlier ++ vs).map (·.name)).Nodup)
    (hc : computeFrom fl ctx vmap next vs = some vmap') (hexp : Explicit fl vmap' earlier vs) :
    ∃ runs' ctx' next', layoutFrom fl runs vs = some runs' ∧
      Laid (earlier ++ vs) runs' ctx' vmap' next' := by
  induction vs generalizing earlier runs ctx vmap next with
  | nil =>
    cases hc
    exact ⟨runs, ctx, next, rfl, by rwa [append_nil]⟩
  | cons v vs ih =>
    obtain ⟨next', hnext, hrest⟩ := bind_eq_some_iff.1 hc
    obtain ⟨hfresh, -, hlater⟩ := fresh_of_nodup hnodup
    obtain ⟨hhead, htail⟩ := explicit_cons.1 hexp
    have hkeep : ∀ n ∈ earlier.map (·.name), vmap'.lookup n = vmap.lookup n := by
      intro n hn
      refine lookup_of_computeFrom hc fun hmem => ?_
      rcases mem_cons.1 hmem with rfl | hmem
      · exact hfresh hn
      · exact hlater n (by rw [map_append]; exact mem_append_left _ hn) hmem
    obtain ⟨start, hstart⟩ :
        ∃ start, declared fl (contextOfRuns runs) v.discriminant = some start := by
      cases hd : v.discriminant with
      | none => exact ⟨none, rfl⟩
      | some disc =>
        obtain ⟨k, he, -⟩ := hhead disc hd
        rw [h.contextOf_eq hkeep] at he
        refine ⟨some k, ?_⟩
        simp only [declared, he]
    rw [h.setEnumVariants_eq, variantTag_eq fl hstart] at hnext hrest
    have hstep := h.advance hfresh start hnext
    rw [h.setEnumVariants_eq] at hstep
    obtain ⟨runs', ctx', next'', hl, hlaid⟩ :=
      ih hstep (by simpa using hnodup) hrest htail
    refine ⟨runs', ctx', next'', ?_, by simpa using hlaid⟩
    simp only [layoutFrom]
    rw [hstart]
    exact hl

end Arth.EnumTags
