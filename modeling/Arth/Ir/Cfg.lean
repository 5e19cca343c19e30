import Arth.Ir.Syntax
import Arth.Lib.Dominance
import Arth.Lib.Postorder
import Arth.Lib.Worklist

/-!
# The control-flow graph of a function

* `Cfg.build` — successors by block index, predecessors, the blocks that are reachable from block 0
  and their reverse postorder.
* `Cfg.graph` — the graph as a flow graph with block 0 as its entry.
* `Func.mem_rpo`, `Func.rpo_head`, `Func.numbering` — the order has exactly the reachable blocks,
  the entry first, and every other block after one of its predecessors.
-/

namespace Arth.Ir

open Dominance Relation List

structure Cfg where
  succs : List (List ℕ)
  preds : List (List ℕ)
  reachable : List Bool
  rpo : List ℕ

def blockIndex (b : Block) (n : ℕ) : Option ℕ := if b < n then some b else none

/-- The successors of a block that ends like this, in a function of `n` blocks. -/
def Terminator.succs (n : ℕ) : Terminator → List ℕ
  | .ret _ => []
  | .br bb => (blockIndex bb n).toList
  | .condBr _ thenBb elseBb => (blockIndex thenBb n).toList ++ (blockIndex elseBb n).toList
  | .switch _ default cases =>
    (blockIndex default n).toList ++ cases.filterMap fun c => blockIndex c.2 n
  | .unreachable => []
  | .throw _ => []
  | .panic _ => []
  | .invoke _ _ _ _ normal unwind => (blockIndex normal n).toList ++ (blockIndex unwind n).toList
  | .pollReturn _ _ => []

/-- `preds[t].push(i)` for the targets `t` of block `i`. -/
def addPreds (preds : List (List ℕ)) (i : ℕ) (ss : List ℕ) : List (List ℕ) :=
  ss.foldl (fun preds t => preds.modify t (· ++ [i])) preds

def buildPreds (succs : List (List ℕ)) : List (List ℕ) :=
  succs.zipIdx.foldl (fun preds s => addPreds preds s.2 s.1) (List.replicate succs.length [])

/-- The blocks a block leads to. -/
def edgesOf (succs : List (List ℕ)) (u : ℕ) : List ℕ := succs.getD u []

/-- The queue of blocks; a block is marked when it joins the queue. -/
def markReachable (succs : List (List ℕ)) (entry : ℕ) : List Bool :=
  let marked := Worklist.visit (edgesOf succs) (succs.length + 1) ([entry], [entry])
  (List.range succs.length).map fun b => decide (b ∈ marked)

/-- The turns of the depth-first loop: one for each edge, one for each block, and the last. -/
def rpoTurns (succs : List (List ℕ)) : ℕ :=
  ((List.range succs.length).map fun u => (edgesOf succs u).length + 1).sum + 1

def computeRpo (succs : List (List ℕ)) (reachable : List Bool) (entry : ℕ) : List ℕ :=
  if reachable.getD entry false then
    let order := Postorder.postorder (edgesOf succs) (fun v => reachable.getD v false)
      (rpoTurns succs) [entry] [(entry, 0)] []
    (order.getD []).reverse
  else []

def Cfg.build (func : Func) : Cfg :=
  let n := func.blocks.length
  let succs := func.blocks.map fun b => b.term.succs n
  let reachable := markReachable succs 0
  { succs := succs, preds := buildPreds succs, reachable := reachable,
    rpo := computeRpo succs reachable 0 }

def Cfg.graph (cfg : Cfg) : FlowGraph ℕ where
  entry := 0
  edge a b := b ∈ edgesOf cfg.succs a

/-- A block of the function to which a path leads from the entry block. -/
def Func.Reachable (f : Func) (b : ℕ) : Prop :=
  b < f.blocks.length ∧ (Cfg.build f).graph.Reached b

/-! ## Successors and predecessors -/

theorem blockIndex_lt {b : Block} {n i : ℕ} (h : blockIndex b n = some i) : i < n := by
  unfold blockIndex at h
  by_cases hb : b < n
  · rw [if_pos hb] at h
    rwa [← Option.some.inj h]
  · rw [if_neg hb] at h
    cases h

theorem Terminator.succs_lt {n : ℕ} {t : Terminator} {b : ℕ} (h : b ∈ t.succs n) : b < n := by
  cases t <;> simp only [Terminator.succs, mem_append, Option.mem_toList,
    not_mem_nil, mem_filterMap] at h
  case br => exact blockIndex_lt h
  case condBr =>
    rcases h with h | h
    · exact blockIndex_lt h
    · exact blockIndex_lt h
  case switch =>
    rcases h with h | ⟨c, -, h⟩
    · exact blockIndex_lt h
    · exact blockIndex_lt h
  case invoke =>
    rcases h with h | h
    · exact blockIndex_lt h
    · exact blockIndex_lt h

theorem length_addPreds (preds : List (List ℕ)) (i : ℕ) (ss : List ℕ) :
    (addPreds preds i ss).length = preds.length := by
  unfold addPreds
  induction ss generalizing preds with
  | nil => rfl
  | cons t ss ih =>
    rw [foldl_cons, ih, length_modify]

theorem mem_addPreds (preds : List (List ℕ)) (i : ℕ) (ss : List ℕ) (p b : ℕ) :
    p ∈ (addPreds preds i ss).getD b [] ↔
      p ∈ preds.getD b [] ∨ (p = i ∧ b ∈ ss ∧ b < preds.length) := by
  unfold addPreds
  induction ss generalizing preds with
  | nil => simp
  | cons t ss ih =>
    rw [foldl_cons, ih, length_modify]
    have hhead : p ∈ (preds.modify t (· ++ [i])).getD b [] ↔
        p ∈ preds.getD b [] ∨ (p = i ∧ b = t ∧ b < preds.length) := by
      by_cases hb : b < preds.length
      · by_cases ht : t = b
        · simp [hb, ht]
        · simp [ht, Ne.symm ht, hb]
      · simp [hb]
    rw [hhead, mem_cons]
    tauto

theorem length_buildPreds (succs : List (List ℕ)) : (buildPreds succs).length = succs.length := by
  have hfold : ∀ (l : List (List ℕ × ℕ)) (preds : List (List ℕ)),
      (l.foldl (fun preds s => addPreds preds s.2 s.1) preds).length = preds.length := by
    intro l
    induction l with
    | nil => exact fun _ => rfl
    | cons s l ih =>
      intro preds
      rw [foldl_cons, ih, length_addPreds]
  rw [buildPreds, hfold, length_replicate]

theorem mem_buildPreds {succs : List (List ℕ)} {p b : ℕ} (hb : b < succs.length) :
    p ∈ (buildPreds succs).getD b [] ↔ b ∈ edgesOf succs p := by
  have hfold : ∀ (l : List (List ℕ × ℕ)) (preds : List (List ℕ)), b < preds.length →
      (p ∈ (l.foldl (fun preds s => addPreds preds s.2 s.1) preds).getD b [] ↔
        p ∈ preds.getD b [] ∨ ∃ ss, (ss, p) ∈ l ∧ b ∈ ss) := by
    intro l
    induction l with
    | nil => simp
    | cons s l ih =>
      intro preds hlt
      rw [foldl_cons, ih _ (by rwa [length_addPreds]), mem_addPreds]
      constructor
      · rintro ((h | ⟨rfl, h, -⟩) | ⟨ss, hmem, h⟩)
        · exact .inl h
        · exact .inr ⟨s.1, mem_cons_self, h⟩
        · exact .inr ⟨ss, mem_cons_of_mem s hmem, h⟩
      · rintro (h | ⟨ss, hmem, h⟩)
        · exact .inl (.inl h)
        · rcases mem_cons.1 hmem with rfl | hmem
          · exact .inl (.inr ⟨rfl, h, hlt⟩)
          · exact .inr ⟨ss, hmem, h⟩
  rw [buildPreds, hfold _ _ (by simpa using hb)]
  simp only [edgesOf, getD_eq_getElem?_getD, mem_zipIdx_iff_getElem?]
  constructor
  · rintro (h | ⟨ss, hss, h⟩)
    · simp at h
    · simpa [hss] using h
  · intro h
    cases hp : succs[p]? with
    | none => simp [hp] at h
    | some ss => exact .inr ⟨ss, rfl, by simpa [hp] using h⟩

/-! ## What is reachable, and in which order -/

namespace Func

variable {f : Func} {a b : ℕ}

theorem length_succs (f : Func) : (Cfg.build f).succs.length = f.blocks.length := by
  simp [Cfg.build]

theorem edge_lt (h : (Cfg.build f).graph.edge a b) : b < f.blocks.length := by
  have h : b ∈ edgesOf (Cfg.build f).succs a := h
  unfold edgesOf Cfg.build at h
  cases ha : f.blocks[a]? with
  | none => simp [ha] at h
  | some d => exact Terminator.succs_lt (by simpa [ha] using h)

theorem mem_preds (hb : b < f.blocks.length) :
    a ∈ (Cfg.build f).preds.getD b [] ↔ (Cfg.build f).graph.edge a b :=
  mem_buildPreds (by rwa [← length_succs f] at hb)

theorem length_preds (f : Func) : (Cfg.build f).preds.length = f.blocks.length := by
  rw [← length_succs f]
  exact length_buildPreds _

theorem length_reachable (f : Func) : (Cfg.build f).reachable.length = f.blocks.length := by
  simp [Cfg.build, markReachable]

theorem reached_iff : (Cfg.build f).graph.Reached b ↔
    ReflTransGen (fun a b => b ∈ edgesOf (Cfg.build f).succs a) 0 b :=
  FlowGraph.reached_iff

/-- **The marks are right.** -/
theorem reachable_iff : (Cfg.build f).reachable.getD b false = true ↔ f.Reachable b := by
  have hU : ∀ x, ∀ y ∈ edgesOf (Cfg.build f).succs x, y ∈ range f.blocks.length :=
    fun x y hy => mem_range.2 (edge_lt hy)
  have hvisit := Worklist.mem_visit_iff (edgesOf (Cfg.build f).succs)
    (range f.blocks.length) [0] hU (n := f.blocks.length + 1) (by simp; omega) (x := b)
  have hflag : (Cfg.build f).reachable.getD b false = true ↔ b < f.blocks.length ∧
      b ∈ Worklist.visit (edgesOf (Cfg.build f).succs) (f.blocks.length + 1) ([0], [0]) := by
    unfold Cfg.build markReachable at *
    by_cases hb : b < f.blocks.length
    · simp [hb]
    · simp [hb]
  rw [hflag, hvisit, Reachable, reached_iff]
  simp

theorem getElem?_reachable (hb : b < f.blocks.length) :
    ∃ r, (Cfg.build f).reachable[b]? = some r ∧ (r = true ↔ f.Reachable b) := by
  have hlt : b < (Cfg.build f).reachable.length := by rwa [length_reachable]
  refine ⟨_, getElem?_eq_getElem hlt, ?_⟩
  rw [← reachable_iff, getD_eq_getElem?_getD, getElem?_eq_getElem hlt]
  rfl

theorem reachable_entry (hf : f.blocks ≠ []) : f.Reachable 0 :=
  ⟨length_pos_iff.2 hf, FlowGraph.Reached.entry⟩

theorem Reachable.step (h : f.Reachable a) (hedge : (Cfg.build f).graph.edge a b) : f.Reachable b :=
  ⟨edge_lt hedge, h.2.step hedge⟩

theorem reachable_of_reached (hf : f.blocks ≠ []) (h : (Cfg.build f).graph.Reached b) :
    f.Reachable b := by
  refine ⟨?_, h⟩
  obtain ⟨w, hw⟩ := h
  cases hw with
  | start => exact length_pos_iff.2 hf
  | step _ hedge => exact edge_lt hedge

theorem exists_order (hf : f.blocks ≠ []) :
    ∃ l, (Cfg.build f).rpo = l.reverse ∧ l.Nodup ∧ (∀ x, x ∈ l ↔ f.Reachable x) ∧
      (∃ l', l = l' ++ [0]) ∧ Postorder.Backed (edgesOf (Cfg.build f).succs) 0 l := by
  have hU : ∀ x, ∀ y ∈ edgesOf (Cfg.build f).succs x, y ∈ range f.blocks.length :=
    fun x y hy => mem_range.2 (edge_lt hy)
  have hpos : 0 < f.blocks.length := length_pos_iff.2 hf
  have hturns : Postorder.turns (edgesOf (Cfg.build f).succs) (range f.blocks.length) [0]
      [(0, 0)] < rpoTurns (Cfg.build f).succs := by
    have hsum := Postorder.sum_visit_lt (fun x => (edgesOf (Cfg.build f).succs x).length + 1)
      (mem_range.2 hpos) (not_mem_nil (a := 0))
    simp only [not_mem_nil, if_false] at hsum
    unfold Postorder.turns rpoTurns
    rw [length_succs]
    simp only [map_cons, map_nil, sum_cons, sum_nil]
    omega
  obtain ⟨l, hl, hnodup, hmem, hlast, hbacked⟩ := Postorder.postorder_spec
    (fun v => (Cfg.build f).reachable.getD v false) hU hturns
  refine ⟨l, ?_, hnodup, fun x => ?_, hlast, hbacked⟩
  · have hentry : (Cfg.build f).reachable.getD 0 false = true :=
      reachable_iff.2 (reachable_entry hf)
    have hrpo : (Cfg.build f).rpo = computeRpo (Cfg.build f).succs (Cfg.build f).reachable 0 := rfl
    rw [hrpo, computeRpo, if_pos hentry, hl]
    rfl
  · rw [hmem x]
    constructor
    · intro hx
      refine reachable_of_reached hf (reached_iff.2 ?_)
      induction hx with
      | refl => exact .refl
      | tail _ hlast ih => exact ih.tail hlast.1
    · intro hx
      have hreach := reached_iff.1 hx.2
      clear hx
      induction hreach with
      | refl => exact .refl
      | @tail y z hy hedge ih =>
        have hz : f.Reachable z :=
          reachable_of_reached hf (reached_iff.2 (hy.tail hedge))
        exact ih.tail ⟨hedge, reachable_iff.2 hz⟩

theorem nodup_rpo (f : Func) : (Cfg.build f).rpo.Nodup := by
  by_cases hf : f.blocks = []
  · have : (Cfg.build f).rpo = [] := by simp [Cfg.build, hf, computeRpo, markReachable]
    rw [this]
    exact nodup_nil
  · obtain ⟨l, hl, hnodup, -⟩ := exists_order hf
    rw [hl]
    exact nodup_reverse.2 hnodup

theorem mem_rpo (hf : f.blocks ≠ []) : b ∈ (Cfg.build f).rpo ↔ f.Reachable b := by
  obtain ⟨l, hl, -, hmem, -⟩ := exists_order hf
  rw [hl, mem_reverse, hmem]

theorem rpo_head (hf : f.blocks ≠ []) : ∃ l, (Cfg.build f).rpo = 0 :: l := by
  obtain ⟨l, hl, -, -, ⟨l', hl'⟩, -⟩ := exists_order hf
  exact ⟨l'.reverse, by rw [hl, hl', reverse_append]; rfl⟩

/-- The place of a block in the order. -/
def place (f : Func) (b : ℕ) : ℕ := (Cfg.build f).rpo.idxOf b

/-- **Every block but the entry comes after one of its predecessors.** -/
theorem exists_before (hf : f.blocks ≠ []) (hb : f.Reachable b) (hentry : b ≠ 0) :
    ∃ p, (Cfg.build f).graph.edge p b ∧ f.Reachable p ∧ f.place p < f.place b := by
  obtain ⟨l, hl, hnodup, hmem, -, hbacked⟩ := exists_order hf
  obtain ⟨l₁, l₂, rfl⟩ := append_of_mem ((hmem b).2 hb)
  obtain ⟨p, hp, hedge⟩ := hbacked.split hentry
  refine ⟨p, hedge, (hmem p).1 (mem_append_right _ (mem_cons_of_mem b hp)), ?_⟩
  have hb₂ : b ∉ l₂.reverse := by
    have := (nodup_cons.1 (nodup_append.1 hnodup).2.1).1
    rwa [mem_reverse]
  have hplace : f.place b = l₂.length := by
    unfold place
    rw [hl, reverse_append, reverse_cons, append_assoc, idxOf_append_of_notMem hb₂]
    simp
  rw [hplace]
  unfold place
  rw [hl, reverse_append, reverse_cons, append_assoc, idxOf_append_of_mem (mem_reverse.2 hp)]
  have := idxOf_lt_length_iff.2 (mem_reverse.2 hp)
  rwa [length_reverse] at this

/-- A predecessor that comes before the block. -/
noncomputable def before (f : Func) (b : ℕ) : ℕ := by
  classical
  exact if h : ∃ p, (Cfg.build f).graph.edge p b ∧ f.Reachable p ∧ f.place p < f.place b
    then h.choose else 0

theorem before_spec (hf : f.blocks ≠ []) (hb : f.Reachable b) (hentry : b ≠ 0) :
    (Cfg.build f).graph.edge (f.before b) b ∧ f.Reachable (f.before b) ∧
      f.place (f.before b) < f.place b := by
  have h := exists_before hf hb hentry
  unfold before
  rw [dif_pos h]
  exact h.choose_spec

theorem numbering (hf : f.blocks ≠ []) : Numbering (Cfg.build f).graph f.place f.before where
  inj ha _ heq :=
    (idxOf_inj ((mem_rpo hf).2 (reachable_of_reached hf ha))).1 heq
  edge hb hentry := (before_spec hf (reachable_of_reached hf hb) hentry).1
  reached hb hentry := (before_spec hf (reachable_of_reached hf hb) hentry).2.1.2
  lt hb hentry := (before_spec hf (reachable_of_reached hf hb) hentry).2.2

end Func

end Arth.Ir
