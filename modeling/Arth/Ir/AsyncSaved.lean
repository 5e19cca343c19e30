import Arth.Ir.AsyncLower
import Arth.Ir.Semantics

/-!
# Whether an await saves what is live across it

`DefinedBefore` and `UsedAfter` are about the paths of the control-flow graph, `liveValuesAt` goes
by the order of the blocks. They agree exactly for the functions in which every value that is live
across an await is also listed as used further on in block order (`ListedOn`). The slots of the
saved values are disjoint as long as the offsets fit.
-/

namespace Arth.Ir

open KeyTable Relation List

variable {f : Func}

/-- From one place to the next: within a block, or along an edge. -/
inductive Step (f : Func) : Place → Place → Prop
  | next {b i : ℕ} {block : BlockData} : f.blocks[b]? = some block → i < block.insts.length →
      Step f ⟨b, i⟩ ⟨b, i + 1⟩
  | jump {b s : ℕ} {block : BlockData} : f.blocks[b]? = some block →
      s ∈ edgesOf (Cfg.build f).succs b → Step f ⟨b, block.insts.length⟩ ⟨s, 0⟩

def instAt (f : Func) (p : Place) : Option Inst := f.blocks[p.block]?.bind (·.insts[p.inst]?)

/-- A path leads from the entry to the place by way of a definition of the value. -/
def DefinedBefore (f : Func) (v : Value) (p : Place) : Prop :=
  (v < f.params.length ∧ ReflTransGen (Step f) ⟨0, 0⟩ p) ∨
    ∃ d inst, ReflTransGen (Step f) ⟨0, 0⟩ d ∧ instAt f d = some inst ∧ inst.result = v ∧
      TransGen (Step f) d p

/-- The place reads the value: an instruction or a terminator does, or a phi of a successor does
on the edge from there. -/
def Reads (f : Func) (v : Value) (p : Place) : Prop :=
  (∃ inst, instAt f p = some inst ∧ inst.kind.isPhi = false ∧ v ∈ inst.kind.uses) ∨
    ∃ block, f.blocks[p.block]? = some block ∧ p.inst = block.insts.length ∧
      (v ∈ block.term.uses ∨ ∃ s ∈ edgesOf (Cfg.build f).succs p.block, ∃ target,
        f.blocks[s]? = some target ∧ ∃ inst ∈ target.insts, ∃ ops, inst.kind = .phi ops ∧
          (p.block, v) ∈ ops)

/-- A path leads from the place on to one that reads the value. -/
def UsedAfter (f : Func) (v : Value) (p : Place) : Prop :=
  ∃ u, TransGen (Step f) p u ∧ Reads f v u

/-- Every await saves what is live across it, and in whatever order the saved values are gone
through their slots are disjoint. -/
def SavesLive (f : Func) : Prop :=
  (∀ a ∈ awaitPoints f, ∀ v, DefinedBefore f v a.place → UsedAfter f v a.place →
    v ∈ a.liveValues) ∧
  ∀ order : List Value, order.Nodup → (∀ v, v ∈ order ↔ CrossAwait f v) →
    ∀ u ∈ order, ∀ v ∈ order, u ≠ v → ∃ i j,
      (buildFrame f order).valueToField.lookup u = some i ∧
      (buildFrame f order).valueToField.lookup v = some j ∧ (i + 8 ≤ j ∨ j + 8 ≤ i)

/-- The value is listed as used in a later block, or later in the block with its last definition
before the place. -/
def ListedOn (f : Func) (v : Value) (p : Place) : Prop :=
  ∃ u ∈ useSites (buildDefUseInfo f).2 v, p.block < u.block ∨
    (p.before u = true ∧ ∃ d, (buildDefUseInfo f).1.lookup v = some d ∧ d.before p = true)

/-- Every value that is live across an await is listed as used further on. -/
def ListsLive (f : Func) : Prop :=
  ∀ a ∈ awaitPoints f, ∀ v, DefinedBefore f v a.place → UsedAfter f v a.place →
    ListedOn f v a.place

/-! ## What is saved -/

theorem mem_liveValuesAt (info : DefTable × UseTable) (p : Place) (v : Value) :
    v ∈ liveValuesAt info p ↔ ∃ d, info.1.lookup v = some d ∧
      ((d.before p = true ∧ ∃ u ∈ useSites info.2 v, p.before u = true) ∨
        ∃ u ∈ useSites info.2 v, p.block < u.block) := by
  unfold liveValuesAt
  simp only [mem_map, mem_append, mem_filter, Bool.and_eq_true, any_eq_true,
    decide_eq_true_eq, Bool.not_eq_true']
  constructor
  · rintro ⟨⟨w, d⟩, (⟨he, hd, hu⟩ | ⟨he, -, hu⟩), rfl⟩
    · exact ⟨d, (mem_entries_iff info.1 w d).1 he, .inl ⟨hd, hu⟩⟩
    · exact ⟨d, (mem_entries_iff info.1 w d).1 he, .inr hu⟩
  · rintro ⟨d, hd, hlive⟩
    have he := (mem_entries_iff info.1 v d).2 hd
    by_cases hfirst : d.before p = true ∧ ∃ u ∈ useSites info.2 v, p.before u = true
    · exact ⟨⟨v, d⟩, .inl ⟨he, hfirst⟩, rfl⟩
    · refine ⟨⟨v, d⟩, .inr ⟨he, ?_, hlive.resolve_left hfirst⟩, rfl⟩
      rw [← Bool.not_eq_true, contains_iff_mem]
      intro hmem
      simp only [mem_map, mem_filter, Bool.and_eq_true, any_eq_true] at hmem
      obtain ⟨⟨w, d'⟩, ⟨he', hd', hu⟩, heq⟩ := hmem
      obtain rfl : w = v := heq
      have hsame := (mem_entries_iff info.1 w d').1 he'
      rw [hd] at hsame
      cases hsame
      exact hfirst ⟨hd', hu⟩

theorem mem_foldl_recordInst (b : ℕ) (l : List (Inst × ℕ)) (s : DefTable × UseTable)
    (v : Value) : v ∈ (l.foldl (recordInst b) s).1 ↔ v ∈ s.1 ∨ ∃ x ∈ l, x.1.result = v := by
  induction l generalizing s with
  | nil => simp
  | cons x l ih =>
    have hhead : v ∈ (recordInst b s x).1 ↔ v = x.1.result ∨ v ∈ s.1 := AList.mem_insert _
    rw [foldl_cons, ih, hhead, exists_mem_cons_iff]
    tauto

theorem mem_foldl_recordBlock (l : List (BlockData × ℕ)) (s : DefTable × UseTable) (v : Value) :
    v ∈ (l.foldl recordBlock s).1 ↔ v ∈ s.1 ∨ ∃ x ∈ l, ∃ inst ∈ x.1.insts, inst.result = v := by
  induction l generalizing s with
  | nil => simp
  | cons x l ih =>
    have hhead : v ∈ (recordBlock s x).1 ↔ v ∈ s.1 ∨ ∃ inst ∈ x.1.insts, inst.result = v := by
      refine (mem_foldl_recordInst x.2 _ s v).trans (or_congr_right ?_)
      constructor
      · rintro ⟨y, hy, heq⟩
        exact ⟨y.1, mem_of_getElem? (mem_zipIdx_iff_getElem?.1 hy), heq⟩
      · rintro ⟨inst, hinst, heq⟩
        obtain ⟨i, hi⟩ := mem_iff_getElem?.1 hinst
        exact ⟨(inst, i), mem_zipIdx_iff_getElem?.2 hi, heq⟩
    rw [foldl_cons, ih, hhead, exists_mem_cons_iff, or_assoc]

theorem mem_paramDefs (v : Value) : v ∈ paramDefs f ↔ v < f.params.length := by
  have hfold : ∀ (l : List ℕ) (defs : DefTable),
      v ∈ l.foldl (fun defs i => defs.insert i (⟨0, 0⟩ : Place)) defs ↔ v ∈ defs ∨ v ∈ l := by
    intro l
    induction l with
    | nil => simp
    | cons x l ih =>
      intro defs
      rw [foldl_cons, ih, AList.mem_insert, mem_cons]
      tauto
  rw [paramDefs, hfold, mem_range]
  exact or_iff_right (AList.notMem_empty v)

/-- The values of a function: its parameters, and the results of its instructions. -/
def definedValues (f : Func) : List Value :=
  List.range f.params.length ++ f.blocks.flatMap fun b => b.insts.map Inst.result

theorem mem_defs (v : Value) : v ∈ (buildDefUseInfo f).1 ↔ v ∈ definedValues f := by
  unfold buildDefUseInfo definedValues
  rw [mem_foldl_recordBlock, mem_paramDefs, mem_append, mem_range, mem_flatMap]
  refine or_congr_right ?_
  constructor
  · rintro ⟨x, hx, inst, hinst, heq⟩
    exact ⟨x.1, mem_of_getElem? (mem_zipIdx_iff_getElem?.1 hx), mem_map.2 ⟨inst, hinst, heq⟩⟩
  · rintro ⟨block, hblock, hv⟩
    obtain ⟨b, hb⟩ := mem_iff_getElem?.1 hblock
    obtain ⟨inst, hinst, heq⟩ := mem_map.1 hv
    exact ⟨(block, b), mem_zipIdx_iff_getElem?.2 hb, inst, hinst, heq⟩

variable {v : Value}

theorem exists_def {p : Place} (h : DefinedBefore f v p) :
    ∃ d, (buildDefUseInfo f).1.lookup v = some d := by
  rw [← mem_iff_lookup, mem_defs]
  rcases h with ⟨hv, -⟩ | ⟨d, inst, -, hinst, heq, -⟩
  · exact mem_append_left _ (mem_range.2 hv)
  · obtain ⟨block, hblock, hinst⟩ := Option.bind_eq_some_iff.1 hinst
    exact mem_append_right _ (mem_flatMap.2 ⟨block, mem_of_getElem? hblock,
      mem_map.2 ⟨inst, mem_of_getElem? hinst, heq⟩⟩)

/-- **What an await saves** of the values defined on a path to it. -/
theorem saved_iff {a : AwaitPointInfo} (ha : a ∈ awaitPoints f)
    (hdef : DefinedBefore f v a.place) : v ∈ a.liveValues ↔ ListedOn f v a.place := by
  obtain ⟨d, hd⟩ := exists_def hdef
  obtain ⟨a', -, rfl⟩ := mem_map.1 ha
  show v ∈ liveValuesAt (buildDefUseInfo f) a'.place ↔ _
  rw [mem_liveValuesAt]
  constructor
  · rintro ⟨d', hd', ⟨hbefore, u, hu, hafter⟩ | ⟨u, hu, hafter⟩⟩
    · exact ⟨u, hu, .inr ⟨hafter, d', hd', hbefore⟩⟩
    · exact ⟨u, hu, .inl hafter⟩
  · rintro ⟨u, hu, hafter | ⟨hafter, d', hd', hbefore⟩⟩
    · exact ⟨d, hd, .inr ⟨u, hu, hafter⟩⟩
    · exact ⟨d', hd', .inl ⟨hbefore, u, hu, hafter⟩⟩

/-! ## The slots -/

theorem lookup_foldl_addCrossAwait (order : List Value) (hnodup : order.Nodup) (s : FrameState)
    (hsize : s.nextFieldOffset + 8 * order.length < 2 ^ 32) (hv : v ∈ order) :
    (order.foldl addCrossAwait s).valueToField.lookup v =
      some (s.nextFieldOffset + 8 * order.idxOf v) := by
  have hrest : ∀ (l : List Value) (s : FrameState), v ∉ l →
      (l.foldl addCrossAwait s).valueToField.lookup v = s.valueToField.lookup v := by
    intro l
    induction l with
    | nil => exact fun _ _ => rfl
    | cons x l ih =>
      intro s hx
      have hne : v ≠ x := fun h => hx (h ▸ mem_cons_self)
      rw [foldl_cons, ih _ fun h => hx (mem_cons_of_mem x h)]
      exact AList.lookup_insert_ne hne
  induction order generalizing s with
  | nil => cases hv
  | cons x order ih =>
    obtain ⟨hx, hnodup⟩ := nodup_cons.1 hnodup
    rw [foldl_cons]
    by_cases hvx : v = x
    · subst hvx
      rw [hrest _ _ hx, idxOf_cons_self]
      exact AList.lookup_insert _
    · have hv := (mem_cons.1 hv).resolve_left hvx
      rw [length_cons] at hsize
      have hnext : (addCrossAwait s x).nextFieldOffset = s.nextFieldOffset + 8 := by
        exact Nat.mod_eq_of_lt (by omega)
      rw [ih hnodup _ (by rw [hnext]; omega) hv, hnext, idxOf_cons_ne _ (Ne.symm hvx)]
      congr 1
      omega

theorem nextFieldOffset_addParams (l : List ℕ) (s : FrameState)
    (hsize : s.nextFieldOffset + 8 * l.length < 2 ^ 32) :
    (l.foldl addParam s).nextFieldOffset = s.nextFieldOffset + 8 * l.length := by
  induction l generalizing s with
  | nil => rfl
  | cons x l ih =>
    rw [length_cons] at hsize
    have hnext : (addParam s x).nextFieldOffset = s.nextFieldOffset + 8 := by
      exact Nat.mod_eq_of_lt (by omega)
    rw [foldl_cons, ih _ (by rw [hnext]; omega), hnext, length_cons]
    omega

theorem mem_definedValues (h : CrossAwait f v) : v ∈ definedValues f := by
  obtain ⟨a, ha, hv⟩ := h
  obtain ⟨a', -, rfl⟩ := mem_map.1 ha
  obtain ⟨d, hd, -⟩ := (mem_liveValuesAt (buildDefUseInfo f) a'.place v).1 hv
  exact (mem_defs v).1 ((mem_iff_lookup _ v).2 ⟨d, hd⟩)

/-- **The slots of the saved values are disjoint** when the offsets fit. -/
theorem slots_disjoint (hsize : f.params.length + (definedValues f).length + 4 < 2 ^ 29)
    {order : List Value} (hnodup : order.Nodup) (horder : ∀ v, v ∈ order ↔ CrossAwait f v)
    {u v : Value} (hu : u ∈ order) (hv : v ∈ order) (hne : u ≠ v) :
    ∃ i j, (buildFrame f order).valueToField.lookup u = some i ∧
      (buildFrame f order).valueToField.lookup v = some j ∧ (i + 8 ≤ j ∨ j + 8 ≤ i) := by
  have hlength : order.length ≤ (definedValues f).length := by
    have hsub : order ⊆ definedValues f := fun w hw => mem_definedValues ((horder w).1 hw)
    exact (hnodup.subperm hsub).length_le
  have hparams : ((range f.params.length).foldl addParam
      ⟨[], ∅, userFieldsStart⟩).nextFieldOffset = 32 + 8 * f.params.length := by
    have := nextFieldOffset_addParams (range f.params.length) ⟨[], ∅, userFieldsStart⟩
      (by rw [length_range]; show 32 + 8 * f.params.length < 2 ^ 32; omega)
    rwa [length_range] at this
  have hfit : ((range f.params.length).foldl addParam
      ⟨[], ∅, userFieldsStart⟩).nextFieldOffset + 8 * order.length < 2 ^ 32 := by
    omega
  refine ⟨_, _, lookup_foldl_addCrossAwait order hnodup _ hfit hu,
    lookup_foldl_addCrossAwait order hnodup _ hfit hv, ?_⟩
  have hidx : order.idxOf u ≠ order.idxOf v := fun h => hne ((idxOf_inj hu).1 h)
  omega

/-- A loop that copies the constant 0 and then awaits. -/
def awaitInLoop : Func where
  name := "f"
  params := [.i1, .i64]
  ret := .void
  blocks :=
    [{ name := "entry", insts := [⟨2, .constI64 7⟩], term := .br 1 },
      { name := "loop"
        insts := [⟨3, .copy 2⟩, ⟨4, .call "__arth_await" [1] .i64⟩]
        term := .condBr 0 1 2 },
      { name := "exit", insts := [], term := .ret none }]
  sourceFile := none

end Arth.Ir
