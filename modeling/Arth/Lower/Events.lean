import Arth.Lower.Quiet

/-!
# Declarations and drops on a path

* `events`: the values an instruction sequence defines and the locals it drops, in order. A
  drop drops the local whose slot its operand was loaded from.
* `marks v w`: the same for one local `v` and one part `w` of it.
* `Doubled`: between two declarations of the local the part is dropped an even number of
  times. This is closed under appending, so it passes from the blocks to the paths.
-/

namespace Arth.Lower

open List Option

open Ir (Block InstKind Inst BlockData)

/-! ## Events -/

/-- What a drop instruction drops of a local: all of it, or one field. -/
inductive DropItem where
  | whole (tyName : String)
  | field (fieldName tyName : String)
  deriving DecidableEq

inductive Event where
  | define (v : Ir.Value)
  | drop (slot : Ir.Value) (item : DropItem)
  deriving DecidableEq

def Event.slot : Event → Ir.Value
  | .define v => v
  | .drop v _ => v

/-- The slots that values were loaded from. -/
abbrev Sources := Ir.Value → Option Ir.Value

def Sources.after (src : Sources) (i : Inst) : Sources :=
  Function.update src i.result <|
    match i.kind with
    | .load p => some p
    | _ => none

/-- The locals an instruction drops. At the exit of a region these are the values that were
registered with it. -/
def dropped (src : Sources) : InstKind → List (Ir.Value × DropItem)
  | .drop v ty | .condDrop v _ ty => (src v).toList.map fun p => (p, .whole ty)
  | .fieldDrop v fieldName ty => (src v).toList.map fun p => (p, .field fieldName ty)
  | .regionExit _ deinitCalls => deinitCalls.map fun d => (d.1, .whole d.2)
  | _ => []

def events : Sources → List Inst → List Event
  | _, [] => []
  | src, i :: is =>
    .define i.result :: (dropped src i.kind).map (fun d => .drop d.1 d.2) ++
      events (src.after i) is

theorem events_append (src : Sources) (is js : List Inst) :
    events src (is ++ js) = events src is ++ events (is.foldl Sources.after src) js := by
  induction is generalizing src with
  | nil => rfl
  | cons i is ih => simp only [cons_append, events, ih, append_assoc, foldl_cons]

/-- The events of a block, whose values are loaded in it. -/
def blockEvents (blocks : List BlockData) (b : Block) : List Event :=
  events (fun _ => none) (blockInsts blocks b)

/-- The events of a path through the blocks. -/
def pathEvents (blocks : List BlockData) (path : List Block) : List Event :=
  path.flatMap (blockEvents blocks)

/-- `true` for a declaration of the local, `false` for a drop of the part. -/
def mark (v : Ir.Value) (w : DropItem) : Event → Option Bool
  | .define v' => if v' = v then some true else none
  | .drop v' w' => if v' = v ∧ w' = w then some false else none

def marks (v : Ir.Value) (w : DropItem) (es : List Event) : List Bool := es.filterMap (mark v w)

variable {v : Ir.Value} {w : DropItem} {es : List Event}

theorem marks_append (es fs : List Event) : marks v w (es ++ fs) = marks v w es ++ marks v w fs :=
  filterMap_append

theorem marks_eq_nil (h : ∀ e ∈ es, e.slot ≠ v) : marks v w es = [] := by
  apply filterMap_eq_nil_iff.2
  intro e he
  cases e with
  | define v' => exact if_neg (h _ he)
  | drop v' w' => exact if_neg fun hc => h _ he hc.1

theorem marks_quiet {is : List Inst} (src : Sources)
    (h : ∀ i ∈ is, dropsNothing i.kind = true ∧ i.result ≠ v) : marks v w (events src is) = [] := by
  induction is generalizing src with
  | nil => rfl
  | cons i is ih =>
    have hi := h i mem_cons_self
    have hdrop : dropped src i.kind = [] := by
      cases hk : i.kind <;> first | rfl | (rw [hk] at hi; cases hi.1)
    have hrest := ih (src.after i) fun j hj => h j (mem_cons_of_mem i hj)
    rw [events, hdrop]
    change marks v w (Event.define i.result :: events (src.after i) is) = []
    unfold marks
    rw [filterMap_cons_none (by exact if_neg hi.2)]
    exact hrest

/-- After each declaration, and before the first one, an even number of drops. -/
inductive Doubled : List Bool → Prop where
  | nil : Doubled []
  | declare {l : List Bool} (h : Doubled l) : Doubled (true :: l)
  | dropTwice {l : List Bool} (h : Doubled l) : Doubled (false :: false :: l)

theorem Doubled.append {l l' : List Bool} (h : Doubled l) (h' : Doubled l') :
    Doubled (l ++ l') := by
  induction h with
  | nil => exact h'
  | declare _ ih => exact .declare ih
  | dropTwice _ ih => exact .dropTwice ih

theorem Doubled.replicate (n : ℕ) : Doubled (replicate (n + n) false) := by
  induction n with
  | zero => exact .nil
  | succ n ih =>
    have hn : n + 1 + (n + 1) = n + n + 1 + 1 := by omega
    rw [hn]
    exact .dropTwice ih

/-- Each declaration is followed by exactly one drop, and each drop follows one. -/
inductive Once : List Bool → Prop where
  | nil : Once []
  | declare {l : List Bool} (h : Once l) : Once (true :: false :: l)

theorem Doubled.eq_nil {l : List Bool} (h : Doubled l) (honce : Once l) : l = [] := by
  cases h with
  | nil => rfl
  | declare h =>
    -- the drop that follows comes twice, and then the second one follows no declaration
    cases honce with
    | declare honce =>
      cases h with
      | dropTwice h => cases honce
  | dropTwice h => cases honce

/-- The locals that are declared and not dropped yet, the last one first, each with the
parts that are left. -/
abbrev Open := List (Ir.Value × List DropItem)

variable (parts : Ir.Value → List DropItem)

/-- One event is in order when a local is declared only while it is not open, and dropped
only while it is the last one that is. Values without parts are no locals to drop. -/
def Open.next (o : Open) : Event → Option Open
  | .define v =>
    if parts v = [] then some o
    else if o.any fun l => l.1 == v then none else some ((v, parts v) :: o)
  | .drop v w =>
    if parts v = [] then some o
    else
      match o with
      | (v', ws) :: rest =>
        if v' = v ∧ w ∈ ws then
          some (if ws.erase w = [] then rest else (v', ws.erase w) :: rest)
        else none
      | [] => none

/-- **Drops in order**: from the first event to the last, each local is dropped exactly once
after each of its declarations, part by part, in reverse order of declaration, and never
before. -/
def DropsInOrder (es : List Event) : Prop := es.foldlM (Open.next parts) [] = some []

instance (es : List Event) : Decidable (DropsInOrder parts es) :=
  inferInstanceAs (Decidable (_ = _))

variable {parts} {o o' : Open} {l : Ir.Value × List DropItem} {e : Event}

/-- What the open locals are: different ones, each with some of its parts. -/
structure Open.Ok (parts : Ir.Value → List DropItem) (o : Open) : Prop where
  nodup : (o.map (·.1)).Nodup
  parts : ∀ l ∈ o, l.2.Nodup ∧ l.2 ⊆ parts l.1

def Open.Pending (o : Open) (v : Ir.Value) (w : DropItem) : Prop := ∃ ws, (v, ws) ∈ o ∧ w ∈ ws

theorem Open.pending_cons : Open.Pending (l :: o) v w ↔ (l.1 = v ∧ w ∈ l.2) ∨ o.Pending v w := by
  constructor
  · rintro ⟨ws, hmem, hw⟩
    rcases mem_cons.1 hmem with heq | hmem
    · rw [← heq]
      exact .inl ⟨rfl, hw⟩
    · exact .inr ⟨ws, hmem, hw⟩
  · rintro (⟨rfl, hw⟩ | ⟨ws, hmem, hw⟩)
    · exact ⟨l.2, mem_cons_self, hw⟩
    · exact ⟨ws, mem_cons_of_mem l hmem, hw⟩

theorem Open.Ok.not_pending (h : Open.Ok parts (l :: o)) : ¬ o.Pending l.1 w := by
  rintro ⟨ws, hmem, -⟩
  have hnot := (nodup_cons.1 h.nodup).1
  exact hnot (mem_map_of_mem (f := (·.1)) hmem)

theorem Open.next_cases (h : o.next parts e = some o') : (parts e.slot = [] ∧ o' = o) ∨
    (∃ v', e = .define v' ∧ parts v' ≠ [] ∧ (∀ l ∈ o, l.1 ≠ v') ∧ o' = (v', parts v') :: o) ∨
    (∃ v' w' ws rest, e = .drop v' w' ∧ o = (v', ws) :: rest ∧ w' ∈ ws ∧
      ((ws.erase w' = [] ∧ o' = rest) ∨ (ws.erase w' ≠ [] ∧ o' = (v', ws.erase w') :: rest))) := by
  cases e with
  | define v' =>
    by_cases hp : parts v' = []
    · rw [Open.next, if_pos hp] at h
      exact .inl ⟨hp, (some.inj h).symm⟩
    · rw [Open.next, if_neg hp] at h
      split at h
      · cases h
      · rename_i hany
        refine .inr (.inl ⟨v', rfl, hp, ?_, (some.inj h).symm⟩)
        intro l hl heq
        exact hany (any_eq_true.2 ⟨l, hl, by simp [heq]⟩)
  | drop v' w' =>
    by_cases hp : parts v' = []
    · simp only [Open.next, hp, if_true] at h
      exact .inl ⟨hp, (some.inj h).symm⟩
    · simp only [Open.next, hp, if_false] at h
      cases o with
      | nil => cases h
      | cons l rest =>
        obtain ⟨v'', ws⟩ := l
        simp only at h
        split at h
        · rename_i hc
          obtain ⟨rfl, hw⟩ := hc
          refine .inr (.inr ⟨v'', w', ws, rest, rfl, rfl, hw, ?_⟩)
          split_ifs at h with he
          · exact .inl ⟨he, (some.inj h).symm⟩
          · exact .inr ⟨he, (some.inj h).symm⟩
        · cases h

theorem Open.Ok.next (hparts : ∀ v, (parts v).Nodup)
    (h : o.next parts e = some o') (ho : Open.Ok parts o) : Open.Ok parts o' := by
  rcases Open.next_cases h with ⟨-, rfl⟩ | ⟨v', -, -, hnew, rfl⟩ |
    ⟨v', w', ws, rest, -, rfl, -, hrest⟩
  · exact ho
  · constructor
    · apply nodup_cons.2 ⟨?_, ho.nodup⟩
      intro hmem
      obtain ⟨l, hl, heq⟩ := mem_map.1 hmem
      exact hnew l hl heq
    · intro l hl
      rcases mem_cons.1 hl with rfl | hl
      · exact ⟨hparts v', Subset.refl _⟩
      · exact ho.parts l hl
  · have hws := ho.parts _ mem_cons_self
    have htail : Open.Ok parts rest :=
      ⟨(nodup_cons.1 ho.nodup).2, fun l hl => ho.parts l (mem_cons_of_mem _ hl)⟩
    rcases hrest with ⟨-, rfl⟩ | ⟨-, rfl⟩
    · exact htail
    · constructor
      · exact ho.nodup
      · intro l hl
        rcases mem_cons.1 hl with rfl | hl
        · exact ⟨hws.1.erase w', fun u hu => hws.2 (erase_subset hu)⟩
        · exact htail.parts l hl

/-- In a list of events in order, those of a part that is open start with its drop, and then
declarations and drops of it alternate. -/
theorem once_of_inOrder (hparts : ∀ v, (parts v).Nodup) (hw : w ∈ parts v) (es : List Event) :
    ∀ o : Open, Open.Ok parts o → es.foldlM (Open.next parts) o = some [] →
      (o.Pending v w → ∃ l, marks v w es = false :: l ∧ Once l) ∧
      (¬ o.Pending v w → Once (marks v w es)) := by
  have hne : parts v ≠ [] := ne_nil_of_mem hw
  induction es with
  | nil =>
    intro o _ hrun
    cases hrun
    constructor
    · rintro ⟨ws, hmem, -⟩
      cases hmem
    · intro _
      exact .nil
  | cons e es ih =>
    intro o ho hrun
    obtain ⟨o', hnext, hrest⟩ := bind_eq_some_iff.1 hrun
    have ih' := ih o' (ho.next hparts hnext) hrest
    rcases Open.next_cases hnext with ⟨hnil, rfl⟩ | ⟨v', rfl, hp, hnew, rfl⟩ |
      ⟨v', w', ws, rest, rfl, rfl, hw', hrest⟩
    · -- an event of another value
      have hmark : mark v w e = none := by
        cases e with
        | define v' => exact if_neg fun hc : v' = v => hne (hc ▸ hnil)
        | drop v' w' => exact if_neg fun hc : v' = v ∧ w' = w => hne (hc.1 ▸ hnil)
      have hmarks : marks v w (e :: es) = marks v w es := filterMap_cons_none hmark
      rw [hmarks]
      exact ih'
    · by_cases hv : v' = v
      · subst hv
        have hmarks : marks v' w (.define v' :: es) = true :: marks v' w es :=
          filterMap_cons_some (if_pos rfl)
        obtain ⟨l, hl, honce⟩ := ih'.1 (Open.pending_cons.2 (.inl ⟨rfl, hw⟩))
        rw [hmarks, hl]
        constructor
        · rintro ⟨ws, hmem, -⟩
          exact absurd rfl (hnew _ hmem)
        · intro _
          exact .declare honce
      · have hmarks : marks v w (.define v' :: es) = marks v w es :=
          filterMap_cons_none (if_neg hv)
        have hpend : Open.Pending ((v', parts v') :: o) v w ↔ o.Pending v w := by
          rw [Open.pending_cons]
          exact or_iff_right fun h => hv h.1
        rw [hmarks, ← hpend]
        exact ih'
    · have hws := (ho.parts _ mem_cons_self).1
      -- what is left open of the local that was dropped
      have hpend : Open.Pending o' v w ↔ (v' = v ∧ w ∈ ws.erase w') ∨ Open.Pending rest v w := by
        rcases hrest with ⟨he, rfl⟩ | ⟨-, rfl⟩
        · rw [he]
          simp
        · exact Open.pending_cons
      by_cases hc : v' = v ∧ w' = w
      · obtain ⟨rfl, rfl⟩ := hc
        have hmarks : marks v' w' (.drop v' w' :: es) = false :: marks v' w' es :=
          filterMap_cons_some (if_pos ⟨rfl, rfl⟩)
        have hnot : ¬ Open.Pending o' v' w' := by
          rw [hpend]
          rintro (⟨-, hmem⟩ | hmem)
          · exact (Nodup.mem_erase_iff hws).1 hmem |>.1 rfl
          · exact ho.not_pending hmem
        rw [hmarks]
        constructor
        · intro _
          exact ⟨_, rfl, ih'.2 hnot⟩
        · intro hnp
          exact absurd (Open.pending_cons.2 (.inl ⟨rfl, hw'⟩)) hnp
      · have hmarks : marks v w (.drop v' w' :: es) = marks v w es :=
          filterMap_cons_none (if_neg hc)
        have hsame : Open.Pending o' v w ↔ Open.Pending ((v', ws) :: rest) v w := by
          rw [hpend, Open.pending_cons]
          apply or_congr_left
          apply and_congr_right
          intro hv
          have hww : w ≠ w' := fun h => hc ⟨hv, h.symm⟩
          exact mem_erase_of_ne hww
        rw [hmarks, ← hsame]
        exact ih'

theorem mem_parts_of_inOrder (hparts : ∀ v, (parts v).Nodup) (es : List Event) :
    ∀ o : Open, Open.Ok parts o → es.foldlM (Open.next parts) o = some [] →
      ∀ v w, .drop v w ∈ es → parts v ≠ [] → w ∈ parts v := by
  induction es with
  | nil =>
    intro o _ _ v w hmem
    cases hmem
  | cons e es ih =>
    intro o ho hrun v w hmem hne
    obtain ⟨o', hnext, hrest⟩ := bind_eq_some_iff.1 hrun
    rcases mem_cons.1 hmem with rfl | hmem
    · rcases Open.next_cases hnext with ⟨hnil, -⟩ | ⟨v', heq, -⟩ |
        ⟨v', w', ws, rest, heq, rfl, hw, -⟩
      · exact absurd hnil hne
      · cases heq
      · cases heq
        exact (ho.parts _ mem_cons_self).2 hw
    · exact ih o' (ho.next hparts hnext) hrest v w hmem hne

theorem inOrder_of_noEvent (h : ∀ e ∈ es, parts e.slot = []) (o : Open) :
    es.foldlM (Open.next parts) o = some o := by
  induction es with
  | nil => rfl
  | cons e es ih =>
    have he := h e mem_cons_self
    have hnext : o.next parts e = some o := by
      cases e with
      | define | drop => exact if_pos he
    rw [foldlM_cons, hnext]
    exact ih fun e' he' => h e' (mem_cons_of_mem e he')

/-- **What is doubled is in order only where nothing happens.** -/
theorem dropsInOrder_iff (hparts : ∀ v, (parts v).Nodup)
    (hdouble : ∀ v, parts v ≠ [] → ∀ w, Doubled (marks v w es)) :
    DropsInOrder parts es ↔ ∀ e ∈ es, parts e.slot = [] := by
  constructor
  · intro hrun e he
    by_contra hne
    have hok : Open.Ok parts [] := ⟨nodup_nil, by simp⟩
    have hnil : ∀ w ∈ parts e.slot, marks e.slot w es = [] := by
      intro w hw
      have honce := (once_of_inOrder hparts hw es [] hok hrun).2 (by rintro ⟨ws, hmem, -⟩; cases hmem)
      exact (hdouble _ hne w).eq_nil honce
    cases e with
    | define v =>
      obtain ⟨w, hw⟩ := exists_mem_of_ne_nil _ hne
      have hmem : true ∈ marks v w es := mem_filterMap.2 ⟨_, he, if_pos rfl⟩
      have hmarks : marks v w es = [] := hnil w hw
      rw [hmarks] at hmem
      cases hmem
    | drop v w =>
      have hw := mem_parts_of_inOrder hparts es [] hok hrun v w he hne
      have hmem : false ∈ marks v w es := mem_filterMap.2 ⟨_, he, if_pos ⟨rfl, rfl⟩⟩
      have hmarks : marks v w es = [] := hnil w hw
      rw [hmarks] at hmem
      cases hmem
  · intro h
    exact inOrder_of_noEvent h []

end Arth.Lower
