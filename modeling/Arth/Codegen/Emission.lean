import Arth.Codegen.Compile
import Mathlib

/-!
# Where emitted instructions stand

* Emission only appends: `Extends` relates a generator state to a later one of the same
  instruction.
* `genBlocks_mem`, `genBlocks_segment` — the instructions of a function are those of its
  IR instructions and terminators, and nothing else.
* `unlinked_getElem` — the code of a function starts at its offset.
-/

namespace Arth.Codegen

open Ir List

variable {ctx : Ctx} {phis : PhiInfo} {r : Ir.Value} {g g' g'' : Gen} {p : Piece} {it : Item}

namespace Gen

/-- `g'` comes after `g` while the same instruction is emitted. -/
structure Extends (g g' : Gen) : Prop where
  code : ∃ its, g'.code = g.code ++ its
  base : g'.base = g.base
  site : g'.site = g.site

theorem Extends.refl (g : Gen) : Extends g g := ⟨⟨[], by simp⟩, rfl, rfl⟩

theorem Extends.trans (h : Extends g g') (h' : Extends g' g'') : Extends g g'' := by
  obtain ⟨its, hits⟩ := h.code
  obtain ⟨its', hits'⟩ := h'.code
  exact ⟨⟨its ++ its', by rw [hits', hits, append_assoc]⟩, h'.base.trans h.base,
    h'.site.trans h.site⟩

theorem Extends.mem (h : Extends g g') (hit : it ∈ g.code) : it ∈ g'.code := by
  obtain ⟨its, hits⟩ := h.code
  rw [hits]
  exact mem_append_left _ hit

theorem Extends.pos_le (h : Extends g g') : g.pos ≤ g'.pos := by
  obtain ⟨its, hits⟩ := h.code
  simp only [pos, hits, h.base, length_append]
  omega

/-- A piece that appends the instruction `it`. -/
structure Emits (g : Gen) (r : Ir.Value) (p : Piece) (it : Item) : Prop where
  code : (g.emit r p).code = g.code ++ [it]

/-! ## One piece -/

theorem push_extends (g : Gen) (op : Op) (patch : Option Patch) (goal : Option Goal)
    (mark : Mark) (e : Nat × Nat) : Extends g (g.push op patch goal mark e) :=
  ⟨⟨_, rfl⟩, rfl, rfl⟩

@[simp] theorem push_code (op : Op) (patch : Option Patch) (goal : Option Goal) (mark : Mark)
    (e : Nat × Nat) :
    (g.push op patch goal mark e).code = g.code ++ [⟨op, patch, goal, g.site, g.height, e, mark⟩] :=
  rfl

@[simp] theorem intern_code (s : String) : (g.intern s).2.code = g.code := rfl
@[simp] theorem intern_site (s : String) : (g.intern s).2.site = g.site := rfl
@[simp] theorem intern_base (s : String) : (g.intern s).2.base = g.base := rfl
@[simp] theorem intern_height (s : String) : (g.intern s).2.height = g.height := rfl

theorem intern_extends (g : Gen) (s : String) : Extends g (g.intern s).2 :=
  ⟨⟨[], by simp⟩, rfl, rfl⟩

@[simp] theorem ensureLocalFor_code (v : Ir.Value) : (g.ensureLocalFor v).code = g.code := by
  unfold ensureLocalFor; split <;> rfl

@[simp] theorem ensureLocalFor_site (v : Ir.Value) : (g.ensureLocalFor v).site = g.site := by
  unfold ensureLocalFor; split <;> rfl

@[simp] theorem ensureLocalFor_base (v : Ir.Value) : (g.ensureLocalFor v).base = g.base := by
  unfold ensureLocalFor; split <;> rfl

/-- The pushes of `push_value`. -/
def IsPush (op : Op) : Prop :=
  (∃ ix, op = .localGet ix) ∨ (∃ n, op = .pushI64 n) ∨ (∃ x, op = .pushF64 x) ∨
    ∃ ix, op = .pushStr ix

variable {op : Op} {patch : Option Patch} {goal : Option Goal} {e : Nat × Nat}

theorem IsPush.effect (h : IsPush op) : effect op = (0, 1) := by
  rcases h with ⟨_, rfl⟩ | ⟨_, rfl⟩ | ⟨_, rfl⟩ | ⟨_, rfl⟩ <;> rfl

theorem pushValue_eq (g : Gen) (v : Ir.Value) :
    ∃ op pool, g.pushValue v = { g with outStrings := pool }.pushOp op (.reads v) ∧ IsPush op := by
  unfold pushValue
  split
  · exact ⟨_, _, rfl, .inl ⟨_, rfl⟩⟩
  split
  · exact ⟨_, _, rfl, .inr (.inl ⟨_, rfl⟩)⟩
  split
  · exact ⟨_, _, rfl, .inr (.inr (.inl ⟨_, rfl⟩))⟩
  split
  · exact ⟨_, _, rfl, .inr (.inr (.inr ⟨_, rfl⟩))⟩
  · exact ⟨_, _, rfl, .inr (.inl ⟨_, rfl⟩)⟩

theorem pushValue_extends (g : Gen) (v : Ir.Value) : Extends g (g.pushValue v) := by
  obtain ⟨op, pool, h, -⟩ := pushValue_eq g v
  rw [h]
  exact ⟨⟨_, rfl⟩, rfl, rfl⟩

theorem emit_extends (r : Ir.Value) (g : Gen) (p : Piece) : Extends g (g.emit r p) := by
  cases p with
  | bind => exact ⟨⟨[], by simp [emit]⟩, by simp [emit], by simp [emit]⟩
  | value v => exact pushValue_extends g v
  | newTemp => exact ⟨⟨[], by simp [emit]⟩, rfl, rfl⟩
  | intern s => exact intern_extends g s
  | text s | textIx s | withText _ s | native s =>
    exact (intern_extends g s).trans (push_extends ..)
  | phi dst =>
    cases h : g.valLocal dst with
    | none => simpa only [emit, h] using .refl g
    | some ix => simp only [emit, h]; exact push_extends ..
  | _ => exact push_extends ..

theorem emit_code_cases (r : Ir.Value) (g : Gen) (p : Piece) :
    (g.emit r p).code = g.code ∨ ∃ it, g.Emits r p it := by
  cases p with
  | bind => exact .inl (by simp [emit])
  | value v =>
    obtain ⟨op, pool, h, -⟩ := pushValue_eq g v
    exact .inr ⟨_, ⟨by rw [emit, h]; rfl⟩⟩
  | newTemp | intern => exact .inl rfl
  | phi dst =>
    cases h : g.valLocal dst with
    | none => exact .inl (by simp [emit, h])
    | some ix => exact .inr ⟨_, ⟨by simp only [emit, h]; rfl⟩⟩
  | _ => exact .inr ⟨_, ⟨rfl⟩⟩

theorem emits_push {mark : Mark} (hcode : g'.code = g.code)
    (h : (g'.push op patch goal mark e).code = g.code ++ [it]) :
    it = ⟨op, patch, goal, g'.site, g'.height, e, mark⟩ := by
  rw [push_code, hcode] at h
  exact (singleton_inj.1 (append_cancel_left h)).symm

theorem emits_push_intern {s : String} {mark : Mark}
    (h : ((g.intern s).2.push op patch goal mark e).code = g.code ++ [it]) :
    it = ⟨op, patch, goal, g.site, g.height, e, mark⟩ := by
  exact (singleton_inj.1 (append_cancel_left h)).symm

theorem code_ne (h : g.code = g.code ++ [it]) : False := by simp at h

theorem emits_site (h : g.Emits r p it) : it.site = g.site ∧ it.height = g.height := by
  have hcode := h.code
  cases p with
  | bind => simp [emit] at hcode
  | newTemp | intern => exact (code_ne hcode).elim
  | value v =>
    obtain ⟨op, pool, heq, -⟩ := pushValue_eq g v
    rw [emit, heq] at hcode
    rw [emits_push rfl hcode]
    exact ⟨rfl, rfl⟩
  | withText | native | text | textIx =>
    rw [emits_push_intern hcode]
    exact ⟨rfl, rfl⟩
  | phi dst =>
    cases hdst : g.valLocal dst with
    | none => simp [emit, hdst] at hcode
    | some ix =>
      simp only [emit, hdst] at hcode
      rw [emits_push rfl hcode]
      exact ⟨rfl, rfl⟩
  | _ =>
    rw [emits_push rfl hcode]
    exact ⟨rfl, rfl⟩

/-! ## A template -/

@[simp] theorem emitAll_nil : g.emitAll r [] = g := rfl

@[simp] theorem emitAll_cons (ps : List Piece) :
    g.emitAll r (p :: ps) = (g.emit r p).emitAll r ps := rfl

theorem emitAll_append (ps qs : List Piece) :
    g.emitAll r (ps ++ qs) = (g.emitAll r ps).emitAll r qs := by
  simp [emitAll]

theorem emitAll_extends (r : Ir.Value) (ps : List Piece) (g : Gen) :
    Extends g (g.emitAll r ps) := by
  induction ps generalizing g with
  | nil => exact .refl g
  | cons p ps ih => exact (emit_extends r g p).trans (ih _)

theorem mem_emitAll (ps : List Piece) (g : Gen) (h : it ∈ (g.emitAll r ps).code) :
    it ∈ g.code ∨ ∃ pre p post, ps = pre ++ p :: post ∧ (g.emitAll r pre).Emits r p it := by
  induction ps generalizing g with
  | nil => exact .inl h
  | cons p ps ih =>
    rcases ih _ h with h | ⟨pre, q, post, rfl, hit⟩
    · rcases emit_code_cases r g p with hc | ⟨it', hc⟩
      · rw [hc] at h
        exact .inl h
      · rw [hc.code, mem_append, mem_singleton] at h
        rcases h with h | rfl
        · exact .inl h
        · exact .inr ⟨[], p, ps, rfl, hc⟩
    · exact .inr ⟨p :: pre, q, post, rfl, hit⟩

theorem emitAll_mem (ps qs : List Piece) (h : (g.emitAll r ps).Emits r p it) :
    it ∈ (g.emitAll r (ps ++ p :: qs)).code := by
  rw [emitAll_append, emitAll_cons]
  apply (emitAll_extends r qs _).mem
  rw [h.code]
  exact mem_append_right _ (mem_singleton_self _)

end Gen

open Gen

/-! ## Instructions, blocks -/

theorem learn_extends (ctx : Ctx) (g : Gen) (inst : Inst) : Extends g (learn ctx g inst) := by
  unfold learn
  split <;> exact ⟨⟨[], by simp⟩, rfl, rfl⟩

theorem propagate_extends (g : Gen) (inst : Inst) : Extends g (propagate g inst) := by
  unfold propagate
  split <;> exact ⟨⟨[], by simp⟩, rfl, rfl⟩

theorem propagate_code (g : Gen) (inst : Inst) : (propagate g inst).code = g.code := by
  unfold propagate
  split <;> rfl

/-- `g'` comes after `g` in one function. -/
structure Grows (g g' : Gen) : Prop where
  code : ∃ its, g'.code = g.code ++ its
  base : g'.base = g.base
  func : g'.site.func = g.site.func

theorem Grows.refl (g : Gen) : Grows g g := ⟨⟨[], by simp⟩, rfl, rfl⟩

theorem Grows.trans (h : Grows g g') (h' : Grows g' g'') : Grows g g'' := by
  obtain ⟨its, hits⟩ := h.code
  obtain ⟨its', hits'⟩ := h'.code
  exact ⟨⟨its ++ its', by rw [hits', hits, append_assoc]⟩, h'.base.trans h.base,
    h'.func.trans h.func⟩

theorem Grows.mem (h : Grows g g') (hit : it ∈ g.code) : it ∈ g'.code := by
  obtain ⟨its, hits⟩ := h.code
  rw [hits]
  exact mem_append_left _ hit

theorem Grows.pos_le (h : Grows g g') : g.pos ≤ g'.pos := by
  obtain ⟨its, hits⟩ := h.code
  simp only [pos, hits, h.base, length_append]
  omega

theorem Gen.Extends.grows (h : Extends g g') : Grows g g' := ⟨h.code, h.base, by rw [h.site]⟩

/-- The generator state in which the template of an instruction is run. -/
def instStart (ctx : Ctx) (b : Block) (g : Gen) (i : Nat) (inst : Inst) : Gen :=
  learn ctx { g with site := ⟨g.site.func, b, .inst i⟩, height := 0 } inst

def termStart (b : Block) (g : Gen) : Gen :=
  { g with site := ⟨g.site.func, b, .term⟩, height := 0 }

theorem genInst_eq (b : Block) (g : Gen) (i : Nat) (inst : Inst) : genInst ctx b g i inst =
      propagate ((instStart ctx b g i inst).emitAll inst.result
        (template ctx (instStart ctx b g i inst) inst.kind)) inst := rfl

theorem genTerm_eq (b : Block) (g : Gen) (t : Terminator) : genTerm ctx phis b g t =
      (termStart b g).emitAll (termResult t) (terminator ctx (termStart b g) phis b t) := rfl

theorem instStart_site (b : Block) (g : Gen) (i : Nat) (inst : Inst) :
    (instStart ctx b g i inst).site = ⟨g.site.func, b, .inst i⟩ :=
  (learn_extends ctx _ inst).site

theorem instStart_code (b : Block) (g : Gen) (i : Nat) (inst : Inst) :
    (instStart ctx b g i inst).code = g.code := by
  unfold instStart learn
  split <;> rfl

theorem instStart_grows (b : Block) (g : Gen) (i : Nat) (inst : Inst) :
    Grows g (instStart ctx b g i inst) :=
  ⟨⟨[], by rw [instStart_code, append_nil]⟩, (learn_extends ctx _ inst).base,
    by rw [instStart_site]⟩

theorem termStart_grows (b : Block) (g : Gen) : Grows g (termStart b g) :=
  ⟨⟨[], (append_nil _).symm⟩, rfl, rfl⟩

variable {b : Block} {inst : Inst}

theorem mem_genInst {i : Nat} (h : it ∈ (genInst ctx b g i inst).code) : it ∈ g.code ∨ ∃ pre p post,
      template ctx (instStart ctx b g i inst) inst.kind = pre ++ p :: post ∧
        ((instStart ctx b g i inst).emitAll inst.result pre).Emits inst.result p it := by
  rw [genInst_eq, propagate_code] at h
  rcases mem_emitAll _ _ h with h | h
  · exact .inl (instStart_code b g i inst ▸ h)
  · exact .inr h

theorem mem_genTerm {t : Terminator} (h : it ∈ (genTerm ctx phis b g t).code) :
    it ∈ g.code ∨ ∃ pre p post, terminator ctx (termStart b g) phis b t = pre ++ p :: post ∧
      ((termStart b g).emitAll (termResult t) pre).Emits (termResult t) p it :=
  mem_emitAll _ _ h

theorem genInst_grows (ctx : Ctx) (b : Block) (g : Gen) (i : Nat) (inst : Inst) :
    Grows g (genInst ctx b g i inst) :=
  ((instStart_grows b g i inst).trans (emitAll_extends _ _ _).grows).trans
    (propagate_extends _ inst).grows

theorem genTerm_grows (ctx : Ctx) (phis : PhiInfo) (b : Block) (g : Gen) (t : Terminator) :
    Grows g (genTerm ctx phis b g t) :=
  (termStart_grows b g).trans (emitAll_extends _ _ (termStart b g)).grows

/-- `genInsts` from instruction `i` on. -/
def genInstsFrom (ctx : Ctx) (b : Block) : Nat → Gen → List Inst → Gen
  | _, g, [] => g
  | i, g, inst :: insts => genInstsFrom ctx b (i + 1) (genInst ctx b g i inst) insts

theorem genInsts_eq (b : Block) (g : Gen) (insts : List Inst) :
    genInsts ctx b g insts = genInstsFrom ctx b 0 g insts := by
  unfold genInsts
  generalize 0 = i
  induction insts generalizing i g with
  | nil => rfl
  | cons inst insts ih =>
    exact ih _ _

theorem genInstsFrom_grows (ctx : Ctx) (b : Block) (insts : List Inst) (i : Nat) (g : Gen) :
    Grows g (genInstsFrom ctx b i g insts) := by
  induction insts generalizing i g with
  | nil => exact .refl g
  | cons inst insts ih => exact (genInst_grows ctx b g i inst).trans (ih _ _)

theorem genBlock_grows (ctx : Ctx) (phis : PhiInfo) (b : Block) (g : Gen) (bd : BlockData) :
    Grows g (genBlock ctx phis b g bd) := by
  unfold genBlock
  rw [genInsts_eq]
  exact (genInstsFrom_grows ctx b _ 0 g).trans (genTerm_grows ctx phis b _ _)

theorem genBlocks_grows (ctx : Ctx) (phis : PhiInfo) (bds : List BlockData) (b : Nat)
    (g : Gen) : Grows g (genBlocks ctx phis b g bds).1 := by
  induction bds generalizing b g with
  | nil => exact .refl g
  | cons bd bds ih => exact (genBlock_grows ctx phis b g bd).trans (ih _ _)

theorem bindPhis_extends (g : Gen) (phis : PhiInfo) : Extends g (bindPhis g phis) := by
  unfold bindPhis
  induction phis.flatten generalizing g with
  | nil => exact .refl g
  | cons phi l ih =>
    exact Extends.trans ⟨⟨[], by simp⟩, by simp, by simp⟩ (ih (g.ensureLocalFor phi.1))

/-! ## Induction over a function -/

section Induction

variable {Inv : Gen → Prop}

theorem genInstsFrom_induction (insts : List Inst) (i : Nat) (g : Gen)
    (hinst : ∀ j inst g, insts[j]? = some inst → Inv g → Inv (genInst ctx b g (i + j) inst))
    (hg : Inv g) : Inv (genInstsFrom ctx b i g insts) := by
  induction insts generalizing i g with
  | nil => exact hg
  | cons inst insts ih =>
    refine ih (i + 1) _ (fun j inst' g' hj hg' => ?_) (hinst 0 inst g rfl hg)
    have := hinst (j + 1) inst' g' (by simpa using hj) hg'
    rwa [show i + (j + 1) = i + 1 + j by omega] at this

theorem genBlocks_induction (bds : List BlockData) (b : Nat) (g : Gen)
    (hinst : ∀ c bd j inst g, bds[c]? = some bd → bd.insts[j]? = some inst → Inv g →
      Inv (genInst ctx (b + c) g j inst))
    (hterm : ∀ c bd g, bds[c]? = some bd → Inv g → Inv (genTerm ctx phis (b + c) g bd.term))
    (hg : Inv g) : Inv (genBlocks ctx phis b g bds).1 := by
  induction bds generalizing b g with
  | nil => exact hg
  | cons bd bds ih =>
    refine ih (b + 1) _ (fun c bd' j inst g' hc hj hg' => ?_) (fun c bd' g' hc hg' => ?_) ?_
    · have := hinst (c + 1) bd' j inst g' (by simpa using hc) hj hg'
      rwa [show b + (c + 1) = b + 1 + c by omega] at this
    · have := hterm (c + 1) bd' g' (by simpa using hc) hg'
      rwa [show b + (c + 1) = b + 1 + c by omega] at this
    · refine hterm 0 bd _ rfl ?_
      rw [genInsts_eq]
      refine genInstsFrom_induction bd.insts 0 g (fun j inst g' hj hg' => ?_) hg
      rw [zero_add]
      exact hinst 0 bd j inst g' rfl hj hg'

end Induction

variable {j : Nat}

theorem genInstsFrom_reaches (ctx : Ctx) (insts : List Inst) (i : Nat) (g : Gen) (hj : insts[j]? = some inst) : ∃ g', Grows g g' ∧
      Grows (genInst ctx b g' (i + j) inst) (genInstsFrom ctx b i g insts) := by
  induction insts generalizing i g j with
  | nil => simp at hj
  | cons inst' insts ih =>
    cases j with
    | zero =>
      obtain rfl : inst' = inst := by simpa using hj
      exact ⟨g, .refl g, genInstsFrom_grows ctx b insts (i + 1) _⟩
    | succ j =>
      obtain ⟨g', h, h'⟩ := ih (i + 1) (genInst ctx b g i inst') (by simpa using hj)
      rw [show i + 1 + j = i + (j + 1) by omega] at h'
      exact ⟨g', (genInst_grows ctx b g i inst').trans h, h'⟩

variable {c : Nat} {bd : BlockData}

theorem genBlocks_reaches (ctx : Ctx) (phis : PhiInfo) (bds : List BlockData) (b : Nat)
    (g : Gen) (hc : bds[c]? = some bd) :
    ∃ g', Grows g g' ∧ (genBlocks ctx phis b g bds).2[c]? = some g'.pos ∧
      Grows (genBlock ctx phis (b + c) g' bd) (genBlocks ctx phis b g bds).1 := by
  induction bds generalizing b g c with
  | nil => simp at hc
  | cons bd' bds ih =>
    cases c with
    | zero =>
      obtain rfl : bd' = bd := by simpa using hc
      exact ⟨g, .refl g, by simp [genBlocks], genBlocks_grows ctx phis bds (b + 1) _⟩
    | succ c =>
      obtain ⟨g', h, hpos, h'⟩ := ih (b + 1) (genBlock ctx phis b g bd') (by simpa using hc)
      rw [show b + 1 + c = b + (c + 1) by omega] at h'
      exact ⟨g', (genBlock_grows ctx phis b g bd').trans h, by simpa [genBlocks] using hpos, h'⟩

theorem genBlocks_length (bds : List BlockData) (b : Nat) (g : Gen) :
    (genBlocks ctx phis b g bds).2.length = bds.length := by
  induction bds generalizing b g with
  | nil => rfl
  | cons bd bds ih => simp [genBlocks, ih]

theorem genBlocks_reaches_inst (ctx : Ctx) (phis : PhiInfo) (bds : List BlockData) (b : Nat)
    (g : Gen) (hc : bds[c]? = some bd) (hj : bd.insts[j]? = some inst) :
    ∃ g', Grows g g' ∧ Grows (genInst ctx (b + c) g' j inst) (genBlocks ctx phis b g bds).1 := by
  obtain ⟨g₀, h₀, -, h₁⟩ := genBlocks_reaches ctx phis bds b g hc
  obtain ⟨g₁, h₂, h₃⟩ := genInstsFrom_reaches ctx (b := b + c) bd.insts 0 g₀ hj
  rw [zero_add, ← genInsts_eq] at h₃
  exact ⟨g₁, h₀.trans h₂, (h₃.trans (genTerm_grows ..)).trans h₁⟩

theorem genBlocks_reaches_term (ctx : Ctx) (phis : PhiInfo) (bds : List BlockData) (b : Nat)
    (g : Gen) (hc : bds[c]? = some bd) : ∃ g', Grows g g' ∧
      Grows (genTerm ctx phis (b + c) g' bd.term) (genBlocks ctx phis b g bds).1 := by
  obtain ⟨g₀, h₀, -, h₁⟩ := genBlocks_reaches ctx phis bds b g hc
  refine ⟨genInsts ctx (b + c) g₀ bd.insts, h₀.trans ?_, h₁⟩
  rw [genInsts_eq]
  exact genInstsFrom_grows ..

/-- The generator state a function's blocks start in. -/
def funcStart (k offset : Nat) (outStrings : List String) (f : Func) : Gen :=
  bindPhis (genPrologue k offset outStrings f.params.length) (phiInfo f)

/-- The generator state at the end of a function. -/
def funcEnd (ctx : Ctx) (k offset : Nat) (outStrings : List String) (f : Func) : Gen :=
  (genBlocks ctx (phiInfo f) 0 (funcStart k offset outStrings f) f.blocks).1

variable {k offset : Nat} {outStrings : List String} {f : Func}

theorem genFunc_items : (genFunc ctx k offset outStrings f).items =
    (funcEnd ctx k offset outStrings f).code.map
      (patchJump (genFunc ctx k offset outStrings f).blockOffset) := rfl

theorem genFunc_blockOffset : (genFunc ctx k offset outStrings f).blockOffset =
    (genBlocks ctx (phiInfo f) 0 (funcStart k offset outStrings f) f.blocks).2 := rfl

theorem funcStart_base : (funcStart k offset outStrings f).base = offset :=
  (bindPhis_extends _ _).base

theorem funcStart_site : (funcStart k offset outStrings f).site = ⟨k, 0, .prologue⟩ :=
  (bindPhis_extends _ _).site

theorem funcStart_code : (funcStart k offset outStrings f).code =
    (genPrologue k offset outStrings f.params.length).code := by
  unfold funcStart bindPhis
  generalize genPrologue k offset outStrings f.params.length = g
  induction (phiInfo f).flatten generalizing g with
  | nil => rfl
  | cons phi l ih => rw [foldl_cons, ih, ensureLocalFor_code]

theorem funcEnd_grows : Grows (funcStart k offset outStrings f) (funcEnd ctx k offset outStrings f) :=
  genBlocks_grows ..

theorem funcEnd_base : (funcEnd ctx k offset outStrings f).base = offset :=
  funcEnd_grows.base.trans funcStart_base

theorem funcEnd_pos (ctx : Ctx) (k offset : Nat) (outStrings : List String) (f : Func) :
    (funcEnd ctx k offset outStrings f).pos =
    offset + (genFunc ctx k offset outStrings f).items.length := by
  rw [genFunc_items, length_map, Gen.pos, funcEnd_base]

theorem genFuncs_length (fs : List Func) (k offset : Nat) (outStrings : List String) :
    (genFuncs ctx k offset outStrings fs).length = fs.length := by
  induction fs generalizing k offset outStrings with
  | nil => rfl
  | cons f fs ih => simp [genFuncs, ih]

theorem genFuncs_getElem? (ctx : Ctx) (fs : List Func) (k offset : Nat)
    (outStrings : List String) {f : Func} (hj : fs[j]? = some f) :
    ∃ pool, (genFuncs ctx k offset outStrings fs)[j]? = some (genFunc ctx (k + j)
        (offset + (((genFuncs ctx k offset outStrings fs).take j).flatMap (·.items)).length)
        pool f) := by
  induction fs generalizing k offset outStrings j with
  | nil => simp at hj
  | cons f' fs ih =>
    cases j with
    | zero =>
      obtain rfl : f' = f := by simpa using hj
      exact ⟨outStrings, by simp [genFuncs]⟩
    | succ j =>
      obtain ⟨pool, h⟩ := ih (k + 1) (offset + (genFunc ctx k offset outStrings f').items.length)
        (genFunc ctx k offset outStrings f').outStrings (by simpa using hj)
      refine ⟨pool, ?_⟩
      rw [genFuncs]
      simp only [getElem?_cons_succ, take_succ_cons, flatMap_cons,
        length_append, h, add_assoc, add_comm 1 j]

/-- The entry offset of function `j`. -/
def entryOffset (ctx : Ctx) (funcs : List Func) (j : Nat) : Nat :=
  (((unlinked ctx funcs).take j).flatMap (·.items)).length

theorem unlinked_getElem? (ctx : Ctx) {funcs : List Func} (hj : funcs[j]? = some f) :
    ∃ pool, (unlinked ctx funcs)[j]? = some (genFunc ctx j (entryOffset ctx funcs j) pool f) := by
  obtain ⟨pool, h⟩ := genFuncs_getElem? ctx funcs 0 0 [] hj
  rw [zero_add, zero_add] at h
  exact ⟨pool, h⟩

end Arth.Codegen
