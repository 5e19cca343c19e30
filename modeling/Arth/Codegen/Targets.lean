import Arth.Codegen.Link
import Arth.Codegen.Templates

/-!
# Control-transfer operands

Every instruction that carries an offset was emitted for a goal: a block of its function,
an offset inside its own template, or a function by name. `TargetOk` says that the linked
instruction carries the offset of that goal.

* `carries_of_emits`, `template_transfers`, `terminator_transfers` — which transfers the
  templates emit.
* `codeless_iff` — the functions that emit no code, behind which an entry offset is 0.
* `targetsOk_iff` — exactly which IR programs are linked correctly.
-/

namespace Arth

open List Option

/-- The offset an instruction transfers control to, or stores for a later transfer. -/
def Op.target : Op → Option UInt32
  | .jump t => some t
  | .jumpIfFalse t => some t
  | .setUnwindHandler t => some t
  | .call t => some t
  | .rcDecWithDeinit t => some t
  | .closureNew t _ => some t
  | _ => none

end Arth

namespace Arth.Codegen

open Ir Gen

/-- The offset an instruction was emitted for. -/
def goalOffset (ctx : Ctx) (funcs : List Func) (it : Item) : Goal → Option Nat
  | .block b => ((unlinked ctx funcs)[it.site.func]?).bind fun fc => fc.blockOffset[b]?
  | .offset n => some n
  | .func name => offsetOf ctx funcs name

/-- The instruction carries the offset it was emitted for, or it has become a symbolic call
of the function it was emitted for. An instruction without a goal carries no offset. -/
def TargetOk (ctx : Ctx) (funcs : List Func) (it : Item) : Prop :=
  match it.goal with
  | none => it.op.target = none
  | some goal =>
    (∃ t, it.op.target = some t ∧ goalOffset ctx funcs it goal = some t.toNat) ∨
      ∃ ix name, goal = .func name ∧ it.op = .callSymbol ix ∧
        (linked ctx funcs).2[ix.toNat]? = some name

/-- Every control-transfer operand of the program is right. -/
def TargetsOk (ctx : Ctx) (funcs : List Func) : Prop :=
  ∀ it ∈ (linked ctx funcs).1, TargetOk ctx funcs it

/-- The blocks a terminator jumps to. No code is emitted for the unwind block of an
`Invoke`. -/
def jumpBlocks : Terminator → List Block
  | .br b => [b]
  | .condBr _ thenBb elseBb => [thenBb, elseBb]
  | .switch _ default cases => cases.map (·.2) ++ [default]
  | .invoke _ _ _ _ normal _ => [normal]
  | _ => []

/-- An instruction that emits no code, after `Alloca`s of the given slots. -/
def Silent (ctx : Ctx) (slots : List Ir.Value) : InstKind → Prop
  | .constStr _ | .alloca | .phi _ => True
  | .load p => p ∉ slots
  | .store p _ => p ∉ slots
  | .providerNew name _ => findProvider ctx name = none
  | _ => False

def addSlot (slots : List Ir.Value) (inst : Inst) : List Ir.Value :=
  match inst.kind with
  | .alloca => inst.result :: slots
  | _ => slots

def AllSilent (ctx : Ctx) : List Ir.Value → List Inst → Prop
  | _, [] => True
  | slots, inst :: insts =>
    Silent ctx slots inst.kind ∧ AllSilent ctx (addSlot slots inst) insts

/-- A function for which no code is emitted. -/
structure Codeless (ctx : Ctx) (f : Func) : Prop where
  params : f.params = []
  insts : AllSilent ctx [] (f.blocks.flatMap (·.insts))
  terms : ∀ bd ∈ f.blocks, bd.term = .unreachable

/-- The last function of the name has only functions without code before it. -/
def AtStart (ctx : Ctx) (funcs : List Func) (name : String) : Prop :=
  ∃ j, IsLast funcs j name ∧ ∀ f ∈ funcs.take j, Codeless ctx f

/-- The instructions whose transfers are patched correctly. -/
def InstLinks (ctx : Ctx) (funcs : List Func) (f : Func) : InstKind → Prop
  | .condDrop _ _ _ => False
  | .rcDec _ (some tyName) =>
    (∀ f ∈ funcs, f.name ≠ deinitName tyName) ∨ AtStart ctx funcs (deinitName tyName)
  | .makeClosure func _ => ∃ f ∈ funcs, f.name = func
  | .setUnwindHandler b => b < f.blocks.length
  | _ => True

/-- The IR programs whose transfers are patched correctly: no `CondDrop`; no `RcDec` with a
deinit function of the program, unless that function is the first code of the program; every
`MakeClosure` of a function of the program; every block in range. -/
structure Links (ctx : Ctx) (funcs : List Func) : Prop where
  insts : ∀ f ∈ funcs, ∀ bd ∈ f.blocks, ∀ inst ∈ bd.insts, InstLinks ctx funcs f inst.kind
  terms : ∀ f ∈ funcs, ∀ bd ∈ f.blocks, ∀ b ∈ jumpBlocks bd.term, b < f.blocks.length

/-! ## The transfers of the templates -/

/-- A piece that emits no transfer, or one whose patch always succeeds. -/
def Piece.Plain : Piece → Prop
  | .op o => o.target = none
  | .run o _ _ => o.target = none
  | .rcDecWithDeinit _ | .closureNew _ _ | .handler _ | .skipBy _ | .skipTo _ | .jump _ => False
  | _ => True

/-- The other pieces of an instruction's template. -/
inductive InstTransfer : InstKind → Piece → Prop where
  | rcDec (h : Ir.Value) (tyName : String) :
    InstTransfer (.rcDec h (some tyName)) (.rcDecWithDeinit (deinitName tyName))
  | closure (func : String) (captures : List Ir.Value) :
    InstTransfer (.makeClosure func captures) (.closureNew func captures.length)
  | handler (b : Block) : InstTransfer (.setUnwindHandler b) (.handler b)
  | condDrop (v flag : Ir.Value) (tyName : String) :
    InstTransfer (.condDrop v flag tyName) (.skipBy 3)

/-- The other pieces of a terminator. -/
inductive TermTransfer : Terminator → Piece → Prop where
  | jump {t : Terminator} {b : Block} (h : b ∈ jumpBlocks t) : TermTransfer t (.jump b)
  | condBr (cond : Ir.Value) (thenBb elseBb : Block) (n : Nat) :
    TermTransfer (.condBr cond thenBb elseBb) (.skipTo n)
  | switch (scrut : Ir.Value) (default : Block) (cases : List (Int64 × Block)) (n : Nat) :
    TermTransfer (.switch scrut default cases) (.skipTo n)

theorem plainIntrinsics_target : ∀ e ∈ plainIntrinsics, e.2.2.target = none := by
  have h : plainIntrinsics.all (fun e => e.2.2.target.isNone) = true := by decide +kernel
  intro e he
  simpa using List.all_eq_true.1 h e he

/-- The instruction a step of an intrinsic emits. -/
def IntrinsicStep.op? : IntrinsicStep → Option Op
  | .op o => some o
  | .run o _ _ => some o
  | _ => none

theorem otherIntrinsics_target :
    ∀ e ∈ otherIntrinsics, ∀ s ∈ e.2.2, ∀ o, s.op? = some o → o.target = none := by
  have h : otherIntrinsics.all (fun e => e.2.2.all fun s =>
      s.op?.all fun o => o.target.isNone) = true := by decide +kernel
  intro e he s hs o ho
  simpa [ho] using List.all_eq_true.1 (List.all_eq_true.1 h e he) s hs

variable {ctx : Ctx} {g g' : Gen} {args : List Ir.Value} {r : Ir.Value} {p : Piece} {it : Item}

theorem forall_mem_nil {α : Type} {P : α → Prop} : (∀ x ∈ ([] : List α), P x) ↔ True := by simp

theorem values_plain (args : List Ir.Value) : ∀ p ∈ args.map Piece.value, p.Plain := by
  intro p hp
  obtain ⟨v, -, rfl⟩ := List.mem_map.1 hp
  trivial

/-- The test for plain pieces. -/
def Piece.isPlain : Piece → Bool
  | .op o | .run o _ _ => o.target.isNone
  | .rcDecWithDeinit _ | .closureNew _ _ | .handler _ | .skipBy _ | .skipTo _ | .jump _ => false
  | _ => true

theorem Piece.plain_of_isPlain (h : p.isPlain = true) : p.Plain := by
  cases p with
  | op o | run o => exact Option.isNone_iff_eq_none.1 h
  | rcDecWithDeinit | closureNew | handler | skipBy | skipTo | jump => cases h
  | _ => trivial

theorem plain_of_all {ps : List Piece} (h : ps.all Piece.isPlain = true) : ∀ p ∈ ps, p.Plain :=
  fun p hp => p.plain_of_isPlain (List.all_eq_true.1 h p hp)

theorem plain_or_of_all {ps : List Piece} {Q : Piece → Prop} (h : ps.all Piece.isPlain = true) :
    ∀ p ∈ ps, p.Plain ∨ Q p := fun p hp => .inl (plain_of_all h p hp)

theorem taskArgPieces_plain (args : List Ir.Value) (n : Nat) :
    ∀ p ∈ taskArgPieces args n, p.Plain := by
  rw [taskArgPieces, List.forall_mem_flatMap]
  exact fun _ _ => plain_of_all rfl

variable {ps : List Piece}

theorem specialPieces_plain (h : SpecialPieces args ps) : ∀ p ∈ ps, p.Plain := by
  cases h with
  | spawn a b n =>
    rw [List.forall_mem_append]
    exact ⟨plain_of_all rfl, taskArgPieces_plain args n⟩
  | _ => exact plain_of_all rfl

theorem intrinsicPieces_plain {steps : List IntrinsicStep}
    (h : ∀ s ∈ steps, ∀ o, s.op? = some o → o.target = none) :
    ∀ p ∈ steps.flatMap (intrinsicPieces g args), p.Plain := by
  intro p hp
  obtain ⟨s, hs, hp⟩ := List.mem_flatMap.1 hp
  cases s with
  | arg i =>
    obtain ⟨v, -, rfl⟩ : ∃ v, args[i]? = some v ∧ Piece.value v = p := by
      simpa [intrinsicPieces, argPiece] using hp
    trivial
  | op o | run o =>
    obtain rfl := List.mem_singleton.1 hp
    exact h _ hs o rfl
  | _ =>
    obtain rfl := List.mem_singleton.1 hp
    trivial

theorem callTemplate_plain (ctx : Ctx) (g : Gen) (name : String) (args : List Ir.Value) :
    ∀ p ∈ callTemplate ctx g name args, p.Plain := by
  obtain ⟨ps, hps, h⟩ := callTemplate_pieces ctx g name args
  rw [hps, List.forall_mem_cons]
  refine ⟨trivial, ?_⟩
  cases h with
  | plain name o h =>
    rw [List.forall_mem_append]
    exact ⟨values_plain args, by simpa [Piece.Plain] using plainIntrinsics_target _ h⟩
  | other name steps h => exact intrinsicPieces_plain (otherIntrinsics_target _ h)
  | special h => exact specialPieces_plain h
  | call name =>
    rw [List.forall_mem_append]
    exact ⟨values_plain args, by simp [Piece.Plain]⟩

theorem providerNew_plain (ctx : Ctx) (name : String) (values : List (String × Ir.Value)) :
    ∀ p ∈ providerNew ctx name values, p.Plain := by
  unfold providerNew
  rw [List.forall_mem_cons]
  refine ⟨trivial, ?_⟩
  split
  · simp
  · rw [List.forall_mem_append, List.forall_mem_append]
    refine ⟨⟨plain_of_all rfl, ?_⟩, plain_of_all rfl⟩
    rw [List.forall_mem_flatMap]
    rintro ⟨f, i⟩ -
    simp only [providerField]
    rw [List.forall_mem_append]
    refine ⟨?_, ?_⟩ <;> split <;> exact plain_of_all rfl

theorem providerFieldGet_plain (ctx : Ctx) (obj : Ir.Value) (provider field : String) :
    ∀ p ∈ providerFieldGet ctx obj provider field, p.Plain := by
  unfold providerFieldGet
  split
  · exact plain_of_all rfl
  · split <;> exact plain_of_all rfl

theorem providerFieldSet_plain (ctx : Ctx) (obj : Ir.Value) (provider field : String)
    (v : Ir.Value) : ∀ p ∈ providerFieldSet ctx obj provider field v, p.Plain := by
  unfold providerFieldSet
  split
  · exact plain_of_all rfl
  · split <;> exact plain_of_all rfl

theorem template_transfers (ctx : Ctx) (g : Gen) (kind : InstKind) :
    ∀ p ∈ template ctx g kind, p.Plain ∨ InstTransfer kind p := by
  cases kind with
  | call name args ret => exact fun p hp => .inl (callTemplate_plain ctx g name args p hp)
  | providerNew name values => exact fun p hp => .inl (providerNew_plain ctx name values p hp)
  | providerFieldGet obj provider field =>
    exact fun p hp => .inl (providerFieldGet_plain ctx obj provider field p hp)
  | providerFieldSet obj provider field v =>
    exact fun p hp => .inl (providerFieldSet_plain ctx obj provider field v p hp)
  | makeClosure func captures =>
    simp only [template, List.forall_mem_append, List.forall_mem_cons, Piece.Plain, true_or]
    refine ⟨⟨.inr (.closure ..), trivial, trivial, by simp⟩, ?_⟩
    rw [List.forall_mem_flatMap]
    exact fun _ _ => plain_or_of_all rfl
  | closureCall closure args ret =>
    simp only [template, List.cons_append, List.forall_mem_append, List.forall_mem_cons]
    exact ⟨.inl trivial, fun p hp => .inl (values_plain args p hp), .inl trivial, .inl rfl,
      .inl trivial, by simp⟩
  | externCall name args params ret =>
    simp only [template, List.forall_mem_append, List.forall_mem_cons, Piece.Plain]
    exact ⟨fun p hp => .inl (values_plain args p hp), .inl trivial, .inl trivial,
      .inl trivial, by simp⟩
  | regionExit id deinitCalls =>
    rw [template, List.forall_mem_append]
    refine ⟨?_, plain_or_of_all rfl⟩
    rw [List.forall_mem_flatMap]
    exact fun _ _ => plain_or_of_all rfl
  | rcDec h tyName =>
    cases tyName with
    | none => exact plain_or_of_all rfl
    | some tyName =>
      simp only [template, List.forall_mem_cons, Piece.Plain, true_or]
      exact ⟨trivial, .inr (.rcDec h tyName), trivial, trivial, by simp⟩
  | setUnwindHandler b =>
    simp only [template, List.forall_mem_cons]
    exact ⟨.inr (.handler b), by simp⟩
  | condDrop v flag tyName =>
    simp only [template, List.forall_mem_cons]
    exact ⟨.inl trivial, .inl rfl, .inl rfl, .inr (.condDrop v flag tyName), .inl trivial,
      .inl trivial, .inl trivial, .inl rfl, .inl trivial, by simp⟩
  | binary op a b =>
    exact plain_or_of_all (by cases op <;> rfl)
  | cmp pred a b =>
    exact plain_or_of_all (by cases pred <;> rfl)
  | load | store =>
    simp only [template]
    split <;> exact plain_or_of_all rfl
  | _ => exact plain_or_of_all rfl

variable {t : Terminator}

theorem edgePieces_transfers (g : Gen) (phis : PhiInfo) (src dst : Block)
    (h : dst ∈ jumpBlocks t) : ∀ p ∈ edgePieces g phis src dst, p.Plain ∨ TermTransfer t p := by
  rw [edgePieces, List.forall_mem_append, emitPhiAssignments, List.forall_mem_flatMap]
  refine ⟨fun phi _ p hp => .inl ?_, fun p hp => ?_⟩
  · unfold phiPieces at hp
    split at hp
    · rcases List.mem_cons.1 hp with rfl | hp
      · trivial
      · split at hp
        · obtain rfl := List.mem_singleton.1 hp
          trivial
        · cases hp
    · cases hp
  · obtain rfl := List.mem_singleton.1 hp
    exact .inr (.jump h)

theorem invokePieces_plain (ctx : Ctx) (callee : String) (args : List Ir.Value)
    (result : Option Ir.Value) : ∀ p ∈ invokePieces ctx callee args result, p.Plain := by
  unfold invokePieces
  split
  · rw [List.forall_mem_append, List.forall_mem_append]
    refine ⟨⟨values_plain args, by simp [Piece.Plain]⟩, ?_⟩
    split <;> exact plain_of_all rfl
  · split <;> exact plain_of_all rfl

theorem terminator_transfers (ctx : Ctx) (g : Gen) (phis : PhiInfo) (src : Block)
    (t : Terminator) : ∀ p ∈ terminator ctx g phis src t, p.Plain ∨ TermTransfer t p := by
  cases t with
  | br b => exact edgePieces_transfers g phis src b (by simp [jumpBlocks])
  | condBr cond thenBb elseBb =>
    simp only [terminator, List.forall_mem_append, List.forall_mem_cons, forall_mem_nil, and_true]
    exact ⟨⟨⟨.inl trivial, .inr (.condBr ..)⟩,
      edgePieces_transfers g phis src thenBb (by simp [jumpBlocks])⟩,
      edgePieces_transfers g phis src elseBb (by simp [jumpBlocks])⟩
  | switch scrut default cases =>
    simp only [terminator, List.forall_mem_append, List.forall_mem_flatMap, List.forall_mem_cons,
      forall_mem_nil, and_true]
    refine ⟨fun c hc => ⟨⟨.inl trivial, .inl rfl, .inl rfl, .inr (.switch ..)⟩, ?_⟩, ?_⟩
    · exact edgePieces_transfers g phis src c.2 (List.mem_append_left _ (List.mem_map_of_mem hc))
    · exact edgePieces_transfers g phis src default (by simp [jumpBlocks])
  | invoke callee args ret result normal unwind =>
    simp only [terminator, List.forall_mem_append, List.forall_mem_cons, forall_mem_nil, and_true]
    exact ⟨fun p hp => .inl (invokePieces_plain ctx callee args result p hp),
      .inr (.jump (by simp [jumpBlocks]))⟩
  | ret v | throw v => cases v <;> exact plain_or_of_all rfl
  | panic | unreachable | pollReturn => exact plain_or_of_all rfl

/-- The transfer an instruction appended by a piece carries before linking. -/
def Item.Carries (it : Item) : Piece → Prop
  | .call name _ _ =>
    it.op = .call 0 ∧ it.patch = some (.call name) ∧ it.goal = some (.func name)
  | .rcDecWithDeinit name =>
    it.op = .rcDecWithDeinit 0 ∧ it.patch = some (.call name) ∧ it.goal = some (.func name)
  | .closureNew func n =>
    it.op = .closureNew 0 (UInt32.ofNat n) ∧ it.patch = some (.closure func) ∧
      it.goal = some (.func func)
  | .handler b =>
    it.op = .setUnwindHandler 0 ∧ it.patch = some (.block b) ∧ it.goal = some (.block b)
  | .jump b => it.op = .jump 0 ∧ it.patch = some (.block b) ∧ it.goal = some (.block b)
  | .skipBy d =>
    ∃ n, it.op = .jumpIfFalse (UInt32.ofNat d) ∧ it.patch = none ∧
      it.goal = some (.offset (n + d))
  | .skipTo _ =>
    ∃ n, it.op = .jumpIfFalse (UInt32.ofNat n) ∧ it.patch = none ∧ it.goal = some (.offset n)
  | _ => it.op.target = none ∧ it.patch = none ∧ it.goal = none

theorem Gen.IsPush.target {op : Op} (h : IsPush op) : op.target = none := by
  rcases h with ⟨_, rfl⟩ | ⟨_, rfl⟩ | ⟨_, rfl⟩ | ⟨_, rfl⟩ <;> rfl

theorem carries_of_emits (h : g.Emits r p it)
    (hplain : p.Plain ∨ (∃ kind, InstTransfer kind p) ∨ ∃ t, TermTransfer t p) : it.Carries p := by
  have hcode := h.code
  -- a piece that emits anything emits one item, with the patch it carries
  cases p with
  | bind => simp [emit] at hcode
  | newTemp | intern => exact (code_ne hcode).elim
  | value v =>
    obtain ⟨op, pool, heq, hpush⟩ := pushValue_eq g v
    rw [emit, heq] at hcode
    obtain rfl := emits_push rfl hcode
    exact ⟨hpush.target, rfl, rfl⟩
  | op | run =>
    obtain rfl := emits_push rfl hcode
    rcases hplain with h | ⟨_, ⟨⟩⟩ | ⟨_, ⟨⟩⟩
    exact ⟨h, rfl, rfl⟩
  | withText o s =>
    obtain rfl := emits_push_intern hcode
    exact ⟨by cases o <;> rfl, rfl, rfl⟩
  | native | text | textIx =>
    obtain rfl := emits_push_intern hcode
    exact ⟨rfl, rfl, rfl⟩
  | phi dst =>
    cases hdst : g.valLocal dst with
    | none => simp [emit, hdst] at hcode
    | some ix =>
      simp only [emit, hdst] at hcode
      obtain rfl := emits_push rfl hcode
      exact ⟨rfl, rfl, rfl⟩
  | skipBy d =>
    obtain rfl := emits_push rfl hcode
    exact ⟨g.pos, rfl, rfl, rfl⟩
  | skipTo n =>
    obtain rfl := emits_push rfl hcode
    exact ⟨g.pos + n + 1, rfl, rfl, rfl⟩
  | _ =>
    obtain rfl := emits_push rfl hcode
    exact ⟨rfl, rfl, rfl⟩

/-! ## Local skips -/

/-- A piece that appends an instruction. -/
def Gen.Loud (g : Gen) : Piece → Prop
  | .bind | .newTemp | .intern _ => False
  | .phi v => (g.valLocal v).isSome
  | _ => True

theorem ensureLocalFor_isSome (v w : Ir.Value) (h : (g.valLocal w).isSome) :
    ((g.ensureLocalFor v).valLocal w).isSome := by
  unfold ensureLocalFor
  split
  · exact h
  · simp only [PMap.insert]
    split
    · rfl
    · exact h

theorem emit_isSome (p : Piece) (w : Ir.Value) (h : (g.valLocal w).isSome) :
    ((g.emit r p).valLocal w).isSome := by
  cases p with
  | bind => exact ensureLocalFor_isSome r w h
  | value v =>
    obtain ⟨op, pool, heq, -⟩ := pushValue_eq g v
    rw [emit, heq]
    exact h
  | phi dst => cases hdst : g.valLocal dst <;> simpa only [emit, hdst, pushOp, push] using h
  | _ => exact h

theorem Gen.Loud.emit {q : Piece} (h : g.Loud p) : (g.emit r q).Loud p := by
  cases p with
  | phi v => exact emit_isSome q v h
  | _ => exact h

theorem Gen.Loud.emits (h : g.Loud p) : ∃ it, g.Emits r p it := by
  cases p with
  | bind | newTemp | intern => exact h.elim
  | value v =>
    obtain ⟨op, pool, heq, -⟩ := pushValue_eq g v
    exact ⟨_, ⟨by rw [Gen.emit, heq]; rfl⟩⟩
  | phi dst =>
    obtain ⟨ix, hix⟩ := Option.isSome_iff_exists.1 h
    exact ⟨_, ⟨by simp only [Gen.emit, hix]; rfl⟩⟩
  | _ => exact ⟨_, ⟨rfl⟩⟩

theorem Gen.Loud.pos (h : g.Loud p) : (g.emit r p).pos = g.pos + 1 := by
  obtain ⟨it, hit⟩ := h.emits (r := r)
  rw [Gen.pos, hit.code, (emit_extends r g p).base, List.length_append, List.length_singleton,
    Gen.pos, add_assoc]

theorem emitAll_pos (ps : List Piece) (g : Gen) (h : ∀ p ∈ ps, g.Loud p) :
    (g.emitAll r ps).pos = g.pos + ps.length := by
  induction ps generalizing g with
  | nil => rfl
  | cons p ps ih =>
    rw [emitAll_cons, ih _ fun q hq => (h q (List.mem_cons_of_mem _ hq)).emit,
      (h p List.mem_cons_self).pos, List.length_cons]
    omega

/-- Every skip stays within the pieces. -/
def SkipsFit : List Piece → Prop
  | [] => True
  | .skipTo n :: ps => n ≤ ps.length ∧ SkipsFit ps
  | _ :: ps => SkipsFit ps

theorem SkipsFit.append {qs : List Piece} (hps : SkipsFit ps) (hqs : SkipsFit qs) :
    SkipsFit (ps ++ qs) := by
  induction ps using SkipsFit.induct with
  | case1 => exact hqs
  | case2 n ps ih =>
    exact ⟨Nat.le_trans hps.1 (List.prefix_append ps qs).length_le, ih hps.2⟩
  | case3 p ps h ih =>
    rw [List.cons_append, SkipsFit]
    · rw [SkipsFit] at hps
      · exact ih hps
      · exact h
    · exact h

theorem edgePieces_skipsFit (g : Gen) (phis : PhiInfo) (src dst : Block) :
    SkipsFit (edgePieces g phis src dst) := by
  refine SkipsFit.append ?_ trivial
  unfold emitPhiAssignments
  induction phis.getD dst [] with
  | nil => trivial
  | cons phi l ih =>
    refine SkipsFit.append ?_ ih
    unfold phiPieces
    split
    · split <;> trivial
    · trivial

theorem edgePieces_loud (g : Gen) (phis : PhiInfo) (src dst : Block) :
    ∀ p ∈ edgePieces g phis src dst, g.Loud p := by
  rw [edgePieces, List.forall_mem_append, emitPhiAssignments, List.forall_mem_flatMap]
  refine ⟨fun phi _ => ?_, by simp [Loud]⟩
  unfold phiPieces
  split
  · rw [List.forall_mem_cons]
    refine ⟨trivial, ?_⟩
    split_ifs with h
    · simpa [Loud] using h
    · simp
  · simp

variable {n : Nat} {pre post : List Piece}

/-- The two terminators with local skips append an instruction for every piece, and their
skips stay within them. -/
theorem terminator_skips (ctx : Ctx) (g : Gen) (phis : PhiInfo) (src : Block) (t : Terminator) (h : .skipTo n ∈ terminator ctx g phis src t) :
    SkipsFit (terminator ctx g phis src t) ∧ ∀ p ∈ terminator ctx g phis src t, g.Loud p := by
  have hedge := edgePieces_skipsFit g phis src
  have hloud := edgePieces_loud g phis src
  rcases terminator_transfers ctx g phis src t _ h with h | h
  · exact h.elim
  cases h with
  | condBr cond thenBb elseBb =>
    refine ⟨⟨(List.prefix_append _ _).length_le, (hedge thenBb).append (hedge elseBb)⟩, ?_⟩
    simp only [terminator, List.forall_mem_append, List.forall_mem_cons, forall_mem_nil, and_true]
    exact ⟨⟨⟨trivial, trivial⟩, hloud thenBb⟩, hloud elseBb⟩
  | switch scrut default cases =>
    constructor
    · refine SkipsFit.append ?_ (hedge default)
      clear h
      induction cases with
      | nil => trivial
      | cons c cs ih => exact SkipsFit.append ⟨le_rfl, hedge c.2⟩ ih
    · simp only [terminator, List.forall_mem_append, List.forall_mem_flatMap,
        List.forall_mem_cons, forall_mem_nil, and_true]
      exact ⟨fun c _ => ⟨⟨trivial, trivial, trivial, trivial⟩, hloud c.2⟩, hloud default⟩

theorem SkipsFit.le (h : SkipsFit (pre ++ .skipTo n :: post)) : n ≤ post.length := by
  induction pre with
  | nil => exact h.1
  | cons p pre ih =>
    cases p with
    | skipTo m => exact ih h.2
    | _ => exact ih h

theorem skip_le_pos {phis : PhiInfo} {src : Block} (hsplit : terminator ctx g phis src t = pre ++ .skipTo n :: post) :
    (g.emitAll r pre).pos + n + 1 ≤ (g.emitAll r (terminator ctx g phis src t)).pos := by
  obtain ⟨hfit, hloud⟩ := terminator_skips ctx g phis src t (n := n) (by simp [hsplit])
  rw [hsplit] at hfit hloud
  have hpre := emitAll_pos (r := r) pre g fun p hp => hloud p (by simp [hp])
  have hall := emitAll_pos (r := r) _ g hloud
  have hn := hfit.le
  rw [hsplit, hall, hpre, List.length_append, List.length_cons]
  omega

/-- An instruction of the prologue, of an IR instruction, or of a terminator. -/
inductive Origin (f : Func) (it : Item) : Prop where
  | prologue (h : it.op.target = none ∧ it.patch = none ∧ it.goal = none)
  | inst {bd : BlockData} {inst : Inst} {p : Piece} (hbd : bd ∈ f.blocks)
    (hinst : inst ∈ bd.insts) (hp : p.Plain ∨ InstTransfer inst.kind p) (h : it.Carries p)
  | term {bd : BlockData} {p : Piece} (hbd : bd ∈ f.blocks)
    (hsite : it.site.part = .term) (hp : p.Plain ∨ TermTransfer bd.term p) (h : it.Carries p)

/-- What holds of every instruction of function `k` while it is generated. -/
structure FuncInv (f : Func) (k : Nat) (g : Gen) : Prop where
  func : g.site.func = k
  site : ∀ it ∈ g.code, it.site.func = k
  origin : ∀ it ∈ g.code, Origin f it
  skip : ∀ it ∈ g.code, it.site.part = .term → ∀ n, it.goal = some (.offset n) → n ≤ g.pos

variable {f : Func} {k offset : Nat} {pool : List String} {phis : PhiInfo}

variable {b : Block} {bd : BlockData} {i : Nat} {inst : Inst}

theorem genInst_inv (hbd : bd ∈ f.blocks)
    (hinst : inst ∈ bd.insts) (hg : FuncInv f k g) : FuncInv f k (genInst ctx b g i inst) := by
  have hgrows := genInst_grows ctx b g i inst
  refine ⟨hgrows.func.trans hg.func, fun it hit => ?_, fun it hit => ?_, fun it hit => ?_⟩ <;>
    rcases mem_genInst hit with hit | ⟨pre, p, post, hsplit, hemits⟩
  · exact hg.site it hit
  · rw [(emits_site hemits).1, (emitAll_extends ..).site, instStart_site]
    exact hg.func
  · exact hg.origin it hit
  · have hp := template_transfers ctx (instStart ctx b g i inst) inst.kind p (by simp [hsplit])
    exact .inst hbd hinst hp (carries_of_emits hemits (hp.imp_right fun h => .inl ⟨_, h⟩))
  · intro hpart n hn
    exact (hg.skip it hit hpart n hn).trans hgrows.pos_le
  · rw [(emits_site hemits).1, (emitAll_extends ..).site, instStart_site]
    nofun

theorem genTerm_inv (hbd : bd ∈ f.blocks) (hg : FuncInv f k g) :
    FuncInv f k (genTerm ctx phis b g bd.term) := by
  have hgrows := genTerm_grows ctx phis b g bd.term
  refine ⟨hgrows.func.trans hg.func, fun it hit => ?_, fun it hit => ?_, fun it hit => ?_⟩ <;>
    rcases mem_genTerm hit with hit | ⟨pre, p, post, hsplit, hemits⟩
  · exact hg.site it hit
  · rw [(emits_site hemits).1, (emitAll_extends ..).site]
    exact hg.func
  · exact hg.origin it hit
  · have hp := terminator_transfers ctx (termStart b g) phis b bd.term p (by simp [hsplit])
    exact .term hbd (by rw [(emits_site hemits).1, (emitAll_extends ..).site]; rfl) hp
      (carries_of_emits hemits (hp.imp_right fun h => .inr ⟨_, h⟩))
  · intro hpart n hn
    exact (hg.skip it hit hpart n hn).trans hgrows.pos_le
  · intro _ n hn
    have hp := terminator_transfers ctx (termStart b g) phis b bd.term p (by simp [hsplit])
    have hc := carries_of_emits hemits (hp.imp_right fun h => .inr ⟨_, h⟩)
    cases p with
    | skipTo m =>
      obtain rfl := emits_push rfl hemits.code
      obtain rfl : _ = n := by simpa using hn
      exact skip_le_pos hsplit
    | skipBy d =>
      rcases hp with h | h
      · exact h.elim
      · generalize bd.term = t at h
        cases h
    | _ => rw [hc.2.2] at hn; cases hn

theorem funcStart_inv : FuncInv f k (funcStart k offset pool f) := by
  refine ⟨by rw [funcStart_site], ?_, ?_, ?_⟩ <;> rw [funcStart_code] <;> intro it hit <;>
    obtain ⟨i, -, rfl⟩ := List.mem_map.1 hit
  · rfl
  · exact .prologue ⟨rfl, rfl, rfl⟩
  · nofun

theorem funcEnd_inv : FuncInv f k (funcEnd ctx k offset pool f) := by
  refine genBlocks_induction f.blocks 0 _ (fun c bd j inst g hc hj hg => ?_)
    (fun c bd g hc hg => ?_) funcStart_inv
  · exact genInst_inv (List.mem_of_getElem? hc) (List.mem_of_getElem? hj) hg
  · exact genTerm_inv (List.mem_of_getElem? hc) hg

/-! ## Functions without code -/

/-- The slots a function has seen. -/
def Slots (slots : List Ir.Value) (g : Gen) : Prop := ∀ p, (g.allocaSlot p).isSome ↔ p ∈ slots

variable {slots : List Ir.Value}

theorem emit_allocaSlot (p : Piece) : (g.emit r p).allocaSlot = g.allocaSlot := by
  cases p with
  | bind =>
    simp only [emit, ensureLocalFor]
    split <;> rfl
  | value v =>
    obtain ⟨op, pool, heq, -⟩ := pushValue_eq g v
    rw [emit, heq]
    rfl
  | phi dst => cases hdst : g.valLocal dst <;> simp only [emit, hdst, pushOp, push]
  | _ => rfl

theorem emitAll_allocaSlot (ps : List Piece) (g : Gen) :
    (g.emitAll r ps).allocaSlot = g.allocaSlot := by
  induction ps generalizing g with
  | nil => rfl
  | cons p ps ih => rw [emitAll_cons, ih, emit_allocaSlot]

theorem propagate_allocaSlot (g : Gen) (inst : Inst) :
    (propagate g inst).allocaSlot = g.allocaSlot := by
  unfold propagate
  split <;> rfl

theorem instStart_slots (ctx : Ctx) (b : Block) (i : Nat) (inst : Inst) (hg : Slots slots g) :
    Slots (addSlot slots inst) (instStart ctx b g i inst) := by
  intro p
  obtain ⟨result, kind⟩ := inst
  cases kind with
  | alloca =>
    simp only [instStart, learn, addSlot, PMap.insert, List.mem_cons]
    split
    · simp [*]
    · simpa [*] using hg p
  | _ => exact hg p

theorem genInst_slots (hg : Slots slots g) :
    Slots (addSlot slots inst) (genInst ctx b g i inst) := by
  intro p
  rw [genInst_eq, propagate_allocaSlot, emitAll_allocaSlot]
  exact instStart_slots ctx b i inst hg p

theorem emitAll_lt (h : ∃ p ∈ ps, g.Loud p) : g.pos < (g.emitAll r ps).pos := by
  induction ps generalizing g with
  | nil => simp at h
  | cons p ps ih =>
    obtain ⟨q, hq, hloud⟩ := h
    rcases List.mem_cons.1 hq with rfl | hq
    · have hpos := hloud.pos (r := r)
      have := (emitAll_extends r ps (g.emit r q)).pos_le
      rw [emitAll_cons]
      omega
    · exact Nat.lt_of_le_of_lt (emit_extends r g p).pos_le (ih ⟨q, hq, hloud.emit⟩)

theorem otherIntrinsics_op : ∀ e ∈ otherIntrinsics, ∃ o, IntrinsicStep.op o ∈ e.2.2 := by
  have h : otherIntrinsics.all (fun e => e.2.2.any fun s =>
      match s with | .op _ => true | _ => false) = true := by decide +kernel
  intro e he
  obtain ⟨s, hs, h⟩ := List.any_eq_true.1 (List.all_eq_true.1 h e he)
  cases s with
  | op o => exact ⟨o, hs⟩
  | _ => cases h

theorem callTemplate_loud (ctx : Ctx) (g : Gen) (name : String) (args : List Ir.Value) :
    ∃ p ∈ callTemplate ctx g name args, g.Loud p := by
  obtain ⟨ps, hps, h⟩ := callTemplate_pieces ctx g name args
  rw [hps]
  suffices ∃ p ∈ ps, g.Loud p by
    obtain ⟨p, hp, hloud⟩ := this
    exact ⟨p, List.mem_cons_of_mem _ hp, hloud⟩
  cases h with
  | plain | call => exact ⟨.set, by simp, trivial⟩
  | other name steps h =>
    obtain ⟨o, ho⟩ := otherIntrinsics_op _ h
    exact ⟨.op o, List.mem_flatMap.2 ⟨_, ho, by simp [intrinsicPieces]⟩, trivial⟩
  | special h =>
    cases h with
    | printStrVal a | printRawStrVal a => exact ⟨.value a, by simp, trivial⟩
    | _ => exact ⟨_, List.mem_cons_self, trivial⟩

theorem genInst_pos_iff (hg : Slots slots g) :
    (genInst ctx b g i inst).pos = g.pos ↔ Silent ctx slots inst.kind := by
  have hslots := instStart_slots ctx b i inst hg
  have hstart : (instStart ctx b g i inst).pos = g.pos := by
    rw [Gen.pos, instStart_code, (instStart_grows b g i inst).base, Gen.pos]
  have hpos : (genInst ctx b g i inst).pos = ((instStart ctx b g i inst).emitAll inst.result
      (template ctx (instStart ctx b g i inst) inst.kind)).pos := by
    rw [genInst_eq, Gen.pos, propagate_code, (propagate_extends _ inst).base, Gen.pos]
  rw [hpos, ← hstart]
  generalize instStart ctx b g i inst = g₀ at hslots
  -- a template is silent when it is empty or only binds its register
  have hquiet : ∀ ps, ps = [] ∨ ps = [.bind] → (g₀.emitAll inst.result ps).pos = g₀.pos := by
    rintro _ (rfl | rfl)
    · rfl
    · simp [emit, Gen.pos]
  have hloud : ∀ ps, (∃ p ∈ ps, g₀.Loud p) → (g₀.emitAll inst.result ps).pos ≠ g₀.pos :=
    fun ps h => (emitAll_lt h).ne'
  obtain ⟨result, kind⟩ := inst
  cases kind with
  | constStr | alloca | phi => exact iff_of_true (hquiet _ (.inl rfl)) trivial
  | load p =>
    have hp : (g₀.allocaSlot p).isSome ↔ p ∈ slots := hslots p
    cases hslot : g₀.allocaSlot p with
    | none =>
      rw [hslot] at hp
      exact iff_of_true (hquiet _ (.inl (by simp [template, hslot])))
        fun h => absurd (hp.2 h) (by simp)
    | some slot =>
      rw [hslot] at hp
      exact iff_of_false (hloud _ ⟨.set, by simp [template, hslot], trivial⟩) fun h => h (hp.1 rfl)
  | store p v =>
    have hp : (g₀.allocaSlot p).isSome ↔ p ∈ slots := hslots p
    cases hslot : g₀.allocaSlot p with
    | none =>
      rw [hslot] at hp
      exact iff_of_true (hquiet _ (.inl (by simp [template, hslot])))
        fun h => absurd (hp.2 h) (by simp)
    | some slot =>
      rw [hslot] at hp
      exact iff_of_false (hloud _ ⟨.value v, by simp [template, hslot], trivial⟩)
        fun h => h (hp.1 rfl)
  | providerNew name values =>
    cases hprov : findProvider ctx name with
    | none =>
      exact iff_of_true (hquiet _ (.inr (by simp [template, Arth.Codegen.providerNew, hprov])))
        hprov
    | some pr =>
      refine iff_of_false (hloud _ ⟨.set, ?_, trivial⟩) fun h => ?_
      · simp [template, Arth.Codegen.providerNew, hprov]
      · cases hprov.symm.trans h
  | call name args ret => exact iff_of_false (hloud _ (callTemplate_loud ctx g₀ name args)) id
  | setUnwindHandler | clearUnwindHandler =>
    exact iff_of_false (hloud _ ⟨_, List.mem_cons_self, trivial⟩) id
  | providerFieldSet obj provider field v =>
    refine iff_of_false (hloud _ ⟨.op .pop, ?_, trivial⟩) id
    simp only [template, Arth.Codegen.providerFieldSet]
    split
    · simp
    · split <;> simp
  | providerFieldGet obj provider field =>
    refine iff_of_false (hloud _ ⟨.set, ?_, trivial⟩) id
    simp only [template, Arth.Codegen.providerFieldGet]
    split <;> simp
  | rcDec h tyName =>
    cases tyName <;> exact iff_of_false (hloud _ ⟨.set, by simp [template], trivial⟩) id
  | _ => exact iff_of_false (hloud _ ⟨.set, by simp [template], trivial⟩) id

theorem genTerm_slots (hg : Slots slots g) : Slots slots (genTerm ctx phis b g t) := by
  intro p
  rw [genTerm_eq, emitAll_allocaSlot]
  exact hg p

theorem genTerm_pos_iff (ctx : Ctx) (phis : PhiInfo) (b : Block) (g : Gen) (t : Terminator) :
    (genTerm ctx phis b g t).pos = g.pos ↔ t = .unreachable := by
  have hloud : ∀ p ∈ terminator ctx (termStart b g) phis b t, (termStart b g).Loud p →
      (genTerm ctx phis b g t).pos ≠ g.pos :=
    fun p hp h => (emitAll_lt ⟨p, hp, h⟩).ne'
  cases t with
  | unreachable => exact iff_of_true rfl rfl
  | ret v =>
    cases v with
    | none => exact iff_of_false (hloud (.op .ret) (by simp [terminator]) trivial) nofun
    | some v => exact iff_of_false (hloud (.value v) (by simp [terminator]) trivial) nofun
  | throw v =>
    cases v <;> exact iff_of_false (hloud (.op .throw) (by simp [terminator]) trivial) nofun
  | br c =>
    exact iff_of_false (hloud (.jump c) (by simp [terminator, edgePieces]) trivial) nofun
  | condBr cond thenBb elseBb =>
    exact iff_of_false (hloud (.value cond) (by simp [terminator]) trivial) nofun
  | switch scrut default cases =>
    exact iff_of_false (hloud (.jump default) (by simp [terminator, edgePieces]) trivial) nofun
  | panic | pollReturn => exact iff_of_false (hloud _ List.mem_cons_self trivial) nofun
  | invoke callee args ret result normal unwind =>
    exact iff_of_false (hloud (.jump normal) (by simp [terminator]) trivial) nofun

theorem genInstsFrom_slots (ctx : Ctx) (b : Block) (insts : List Inst) (i : Nat) (g : Gen)
    (hg : Slots slots g) : Slots (insts.foldl addSlot slots) (genInstsFrom ctx b i g insts) := by
  induction insts generalizing i g slots with
  | nil => exact hg
  | cons inst insts ih => exact ih _ _ (genInst_slots hg)

theorem genInstsFrom_pos_iff (ctx : Ctx) (b : Block) (insts : List Inst) (i : Nat) (g : Gen)
    (hg : Slots slots g) :
    (genInstsFrom ctx b i g insts).pos = g.pos ↔ AllSilent ctx slots insts := by
  induction insts generalizing i g slots with
  | nil => exact iff_of_true rfl trivial
  | cons inst insts ih =>
    have h₁ := (genInst_grows ctx b g i inst).pos_le
    have h₂ := (genInstsFrom_grows ctx b insts (i + 1) (genInst ctx b g i inst)).pos_le
    rw [AllSilent, ← genInst_pos_iff (b := b) (i := i) hg,
      ← ih (i + 1) (genInst ctx b g i inst) (genInst_slots hg), genInstsFrom]
    omega

theorem allSilent_append (a b : List Inst) : AllSilent ctx slots (a ++ b) ↔
      AllSilent ctx slots a ∧ AllSilent ctx (a.foldl addSlot slots) b := by
  induction a generalizing slots with
  | nil => simp [AllSilent]
  | cons inst a ih => simp only [List.cons_append, AllSilent, ih, List.foldl_cons, and_assoc]

theorem genBlocks_pos_iff (ctx : Ctx) (phis : PhiInfo) (bds : List BlockData) (b : Nat)
    (g : Gen) (hg : Slots slots g) : (genBlocks ctx phis b g bds).1.pos = g.pos ↔
      AllSilent ctx slots (bds.flatMap (·.insts)) ∧ ∀ bd ∈ bds, bd.term = .unreachable := by
  induction bds generalizing b g slots with
  | nil => exact iff_of_true rfl ⟨trivial, nofun⟩
  | cons bd bds ih =>
    have h₁ := (genInstsFrom_grows ctx b bd.insts 0 g).pos_le
    have h₂ := (genTerm_grows ctx phis b (genInsts ctx b g bd.insts) bd.term).pos_le
    have h₃ := (genBlocks_grows ctx phis bds (b + 1) (genBlock ctx phis b g bd)).pos_le
    have hinsts := genInstsFrom_pos_iff ctx b bd.insts 0 g hg
    have hslots := genInstsFrom_slots ctx b bd.insts 0 g hg
    rw [← genInsts_eq] at h₁ hinsts hslots
    have hterm := genTerm_pos_iff ctx phis b (genInsts ctx b g bd.insts) bd.term
    have hrest := ih (b + 1) (genBlock ctx phis b g bd) (genTerm_slots hslots)
    have hblock : genBlock ctx phis b g bd =
        genTerm ctx phis b (genInsts ctx b g bd.insts) bd.term := rfl
    have hfst : (genBlocks ctx phis b g (bd :: bds)).1 =
        (genBlocks ctx phis (b + 1) (genBlock ctx phis b g bd) bds).1 := rfl
    rw [List.flatMap_cons, allSilent_append, List.forall_mem_cons, ← hinsts, ← hterm,
      and_and_and_comm, ← hrest, hfst]
    rw [hblock] at h₃ ⊢
    omega

theorem funcStart_slots : Slots [] (funcStart k offset pool f) := by
  refine List.foldlRecOn (motive := Slots []) _ _ (fun p => by simp [genPrologue]) ?_
  intro g hg phi _ p
  rw [show (g.ensureLocalFor phi.1).allocaSlot = g.allocaSlot from
    emit_allocaSlot (r := phi.1) .bind]
  exact hg p

/-- **A function emits no code exactly when it is codeless.** -/
theorem codeless_iff (k offset : Nat) (pool : List String) : Codeless ctx f ↔ (genFunc ctx k offset pool f).items = [] := by
  have hpos := genBlocks_pos_iff ctx (phiInfo f) f.blocks 0
    (funcStart k offset pool f) funcStart_slots
  have hle : (funcStart k offset pool f).pos ≤ (funcEnd ctx k offset pool f).pos :=
    funcEnd_grows.pos_le
  have hstart : (funcStart k offset pool f).pos = offset + f.params.length := by
    rw [Gen.pos, funcStart_base, funcStart_code]
    simp [genPrologue]
  have hend := funcEnd_pos ctx k offset pool f
  change (funcEnd ctx k offset pool f).pos = _ ↔ _ at hpos
  rw [← List.length_eq_zero_iff]
  constructor
  · rintro ⟨hparams, hinsts, hterms⟩
    have := hpos.2 ⟨hinsts, hterms⟩
    rw [hparams, List.length_nil] at hstart
    omega
  · intro h
    obtain ⟨hinsts, hterms⟩ := hpos.1 (by omega)
    exact ⟨List.length_eq_zero_iff.1 (by omega), hinsts, hterms⟩

theorem entryOffset_eq_zero_iff {funcs : List Func} {j : Nat} (hj : j ≤ funcs.length) :
    entryOffset ctx funcs j = 0 ↔ ∀ f ∈ funcs.take j, Codeless ctx f := by
  rw [entryOffset, List.length_eq_zero_iff, List.flatMap_eq_nil_iff]
  constructor
  · intro h f hf
    obtain ⟨i, hi, rfl⟩ := List.mem_take_iff_getElem.1 hf
    obtain ⟨pool, hpool⟩ := unlinked_getElem? ctx
      (List.getElem?_eq_getElem (show i < funcs.length by omega))
    refine (codeless_iff i (entryOffset ctx funcs i) pool).2 (h _ ?_)
    exact List.mem_take_iff_getElem.2
      ⟨i, by rw [unlinked_length]; omega, (getElem?_eq_some_iff.1 hpool).2⟩
  · intro h fc hfc
    obtain ⟨i, hi, rfl⟩ := List.mem_take_iff_getElem.1 hfc
    obtain ⟨pool, hpool⟩ := unlinked_getElem? ctx
      (List.getElem?_eq_getElem (show i < funcs.length by omega))
    rw [(getElem?_eq_some_iff.1 hpool).2]
    exact (codeless_iff _ _ _).1 (h _ (List.mem_take_iff_getElem.2 ⟨i, by omega, rfl⟩))

variable {name : String} {b : Nat}

theorem atStart_iff {funcs : List Func} :
    AtStart ctx funcs name ↔ offsetOf ctx funcs name = some 0 := by
  rw [offsetOf_eq_some]
  refine exists_congr fun j => and_congr_right fun hj => ?_
  obtain ⟨f, hf, -⟩ := hj.named
  rw [eq_comm, entryOffset_eq_zero_iff (Nat.le_of_lt (getElem?_eq_some_iff.1 hf).1)]

/-! ## Linking one instruction -/

section LinkOne

variable {funcs : List Func} {j : Nat} {it' : Item} {strings : List String}

theorem targetOk_some {goal : Goal} (h : it.goal = some goal) : TargetOk ctx funcs it ↔
      (∃ t, it.op.target = some t ∧ goalOffset ctx funcs it goal = some t.toNat) ∨
        ∃ ix name, goal = .func name ∧ it.op = .callSymbol ix ∧
          (linked ctx funcs).2[ix.toNat]? = some name := by
  unfold TargetOk
  rw [h]

theorem patchJump_other {bo : List Nat} (h : ∀ b, it.patch ≠ some (.block b)) :
    patchJump bo it = it := by
  unfold patchJump
  split
  · rename_i b hb
    exact absurd hb (h b)
  · rfl

theorem patchJump_fields (bo : List Nat) (it : Item) :
    (patchJump bo it).patch = it.patch ∧ (patchJump bo it).goal = it.goal ∧
      (patchJump bo it).site = it.site ∧ (patchJump bo it).height = it.height ∧
      (patchJump bo it).mark = it.mark := by
  unfold patchJump
  split
  · split
    · split <;> exact ⟨rfl, rfl, rfl, rfl, rfl⟩
    · exact ⟨rfl, rfl, rfl, rfl, rfl⟩
  · exact ⟨rfl, rfl, rfl, rfl, rfl⟩

theorem toNat_of_offsetOf (hfits : Fits ctx funcs) {off : Nat}
    (h : offsetOf ctx funcs name = some off) : (UInt32.ofNat off).toNat = off := by
  obtain ⟨i, -, rfl⟩ := offsetOf_eq_some.1 h
  have hle := entryOffset_le ctx funcs i
  have hlt := hfits.code
  rw [linked_length] at hlt
  exact UInt32.toNat_ofNat_of_lt' (by simp only [UInt32.size]; omega)

theorem blockOffset_le {t : Nat} (h : (genFunc ctx k offset pool f).blockOffset[b]? = some t) :
    t ≤ (funcEnd ctx k offset pool f).pos := by
  rw [genFunc_blockOffset] at h
  obtain ⟨hlt, -⟩ := getElem?_eq_some_iff.1 h
  rw [genBlocks_length] at hlt
  obtain ⟨g', -, hpos, hgrows⟩ := genBlocks_reaches ctx (phiInfo f) f.blocks 0
    (funcStart k offset pool f) (List.getElem?_eq_getElem hlt)
  cases h.symm.trans hpos
  exact ((genBlock_grows ctx _ _ _ _).trans hgrows).pos_le

theorem skip_toNat (hfits : Fits ctx funcs) (h : FuncAt ctx funcs j f pool)
    (hn : n ≤ (funcEnd ctx j (entryOffset ctx funcs j) pool f).pos) :
    (UInt32.ofNat n).toNat = n := by
  have h₁ := funcEnd_pos_le h
  have h₂ := hfits.code
  rw [linked_length] at h₂
  exact UInt32.toNat_ofNat_of_lt' (by simp only [UInt32.size]; omega)

theorem targetOk_plain (hc : it.op.target = none ∧ it.patch = none ∧ it.goal = none)
    (hl : Linked (offsetOf ctx funcs) strings it it') : TargetOk ctx funcs it' := by
  unfold TargetOk
  rw [hl.goal, hc.2.2, hl.other (by simp [hc.2.1]) (by simp [hc.2.1])]
  exact hc.1

theorem targetOk_call (hfits : Fits ctx funcs)
    (hc : it.op = .call 0 ∧ it.patch = some (.call name) ∧ it.goal = some (.func name))
    (hl : Linked (offsetOf ctx funcs) (linked ctx funcs).2 it it') : TargetOk ctx funcs it' := by
  rw [targetOk_some (hl.goal.trans hc.2.2)]
  cases hoff : offsetOf ctx funcs name with
  | none =>
    obtain ⟨ix, hop, hix⟩ := hl.symbol name hc.2.1 hoff
    exact .inr ⟨ix, name, rfl, hop, hix⟩
  | some off =>
    refine .inl ⟨UInt32.ofNat off, ?_, ?_⟩
    · rw [hl.call name off hc.2.1 hoff, hc.1]
      rfl
    · rw [goalOffset, hoff, toNat_of_offsetOf hfits hoff]

theorem targetOk_rcDec
    (hc : it.op = .rcDecWithDeinit 0 ∧ it.patch = some (.call name) ∧ it.goal = some (.func name))
    (hl : Linked (offsetOf ctx funcs) (linked ctx funcs).2 it it') : TargetOk ctx funcs it' ↔
      offsetOf ctx funcs name = none ∨ offsetOf ctx funcs name = some 0 := by
  rw [targetOk_some (hl.goal.trans hc.2.2)]
  cases hoff : offsetOf ctx funcs name with
  | none =>
    obtain ⟨ix, hop, hix⟩ := hl.symbol name hc.2.1 hoff
    exact iff_of_true (.inr ⟨ix, name, rfl, hop, hix⟩) (.inl rfl)
  | some off =>
    have hop : it'.op = .rcDecWithDeinit 0 := by
      rw [hl.call name off hc.2.1 hoff, hc.1]
      rfl
    constructor
    · rintro (⟨t, ht, hgoal⟩ | ⟨ix, _, _, hix, _⟩)
      · rw [hop] at ht
        cases ht
        rw [goalOffset, hoff] at hgoal
        exact .inr hgoal
      · cases hop.symm.trans hix
    · rintro (h | h)
      · cases h
      · refine .inl ⟨0, by rw [hop]; rfl, ?_⟩
        rw [goalOffset, hoff, h]
        rfl

theorem targetOk_closure {n : UInt32} (hfits : Fits ctx funcs)
    (hc : it.op = .closureNew 0 n ∧ it.patch = some (.closure name) ∧ it.goal = some (.func name))
    (hl : Linked (offsetOf ctx funcs) (linked ctx funcs).2 it it') :
    TargetOk ctx funcs it' ↔ offsetOf ctx funcs name ≠ none := by
  rw [targetOk_some (hl.goal.trans hc.2.2)]
  cases hoff : offsetOf ctx funcs name with
  | none =>
    have hop : it'.op = .closureNew 0 n := by rw [hl.unresolved name hc.2.1 hoff, hc.1]
    refine iff_of_false ?_ (by simp)
    rintro (⟨t, -, hgoal⟩ | ⟨ix, _, _, hix, _⟩)
    · rw [goalOffset, hoff] at hgoal
      cases hgoal
    · cases hop.symm.trans hix
  | some off =>
    refine iff_of_true (.inl ⟨UInt32.ofNat off, ?_, ?_⟩) (by simp)
    · rw [hl.closure name off hc.2.1 hoff, hc.1]
      rfl
    · rw [goalOffset, hoff, toNat_of_offsetOf hfits hoff]

theorem targetOk_block (h : FuncAt ctx funcs j f pool) (hfits : Fits ctx funcs)
    (hsite : it.site.func = j) (hop : it.op = .jump 0 ∨ it.op = .setUnwindHandler 0)
    (hc : it.patch = some (.block b) ∧ it.goal = some (.block b))
    (hl : Linked (offsetOf ctx funcs) (linked ctx funcs).2
      (patchJump (genFunc ctx j (entryOffset ctx funcs j) pool f).blockOffset it) it') :
    TargetOk ctx funcs it' ↔ b < f.blocks.length := by
  obtain ⟨hpatch, hgoal, hsite', -⟩ :=
    patchJump_fields (genFunc ctx j (entryOffset ctx funcs j) pool f).blockOffset it
  have hop' : it'.op =
      (patchJump (genFunc ctx j (entryOffset ctx funcs j) pool f).blockOffset it).op :=
    hl.other (by simp [hpatch, hc.1]) (by simp [hpatch, hc.1])
  have hgoalOffset : goalOffset ctx funcs it' (.block b) =
      (genFunc ctx j (entryOffset ctx funcs j) pool f).blockOffset[b]? := by
    rw [goalOffset, hl.site, hsite', hsite, h.code, Option.bind_some]
  rw [targetOk_some (hl.goal.trans (hgoal.trans hc.2)), hgoalOffset, hop']
  unfold patchJump
  simp only [hc.1]
  cases hbo : (genFunc ctx j (entryOffset ctx funcs j) pool f).blockOffset[b]? with
  | none =>
    have hlen : f.blocks.length ≤ b := by
      have := List.getElem?_eq_none_iff.1 hbo
      rwa [genFunc_blockOffset, genBlocks_length] at this
    refine iff_of_false ?_ (not_lt.2 hlen)
    rintro (⟨t, -, ht⟩ | ⟨ix, _, hf, -⟩)
    · cases ht
    · cases hf
  | some t =>
    have hlt : b < f.blocks.length := by
      have := (getElem?_eq_some_iff.1 hbo).1
      rwa [genFunc_blockOffset, genBlocks_length] at this
    have hto := skip_toNat hfits h (blockOffset_le hbo)
    refine iff_of_true (.inl ⟨UInt32.ofNat t, ?_, by rw [hto]⟩) hlt
    rcases hop with hop | hop <;> rw [hop] <;> rfl

theorem targetOk_skip {t : UInt32}
    (hc : it.op = .jumpIfFalse t ∧ it.patch = none ∧ it.goal = some (.offset n))
    (hl : Linked (offsetOf ctx funcs) strings it it') : TargetOk ctx funcs it' ↔ t.toNat = n := by
  have hop : it'.op = .jumpIfFalse t := by
    rw [hl.other (by simp [hc.2.1]) (by simp [hc.2.1]), hc.1]
  rw [targetOk_some (hl.goal.trans hc.2.2), hop]
  constructor
  · rintro (⟨t', ht, hgoal⟩ | ⟨ix, _, hf, -⟩)
    · cases ht
      exact (Option.some.inj hgoal).symm
    · cases hf
  · rintro rfl
    exact .inl ⟨t, rfl, rfl⟩

end LinkOne

/-! ## The program -/

section Program

variable {funcs : List Func}

theorem targetsOk_of_links (hfits : Fits ctx funcs) (hlinks : Links ctx funcs) :
    TargetsOk ctx funcs := by
  intro it' hit'
  obtain ⟨j, f, pool, h, it, hit, hl⟩ := linked_origin hfits hit'
  have hinv : FuncInv f j (funcEnd ctx j (entryOffset ctx funcs j) pool f) := funcEnd_inv
  have hf : f ∈ funcs := List.mem_of_getElem? h.func
  have hother : ∀ {patch : Option Patch}, it.patch = patch → (∀ b, patch ≠ some (.block b)) →
      Linked (offsetOf ctx funcs) (linked ctx funcs).2 it it' := by
    rintro patch rfl hpatch
    rwa [patchJump_other hpatch] at hl
  -- a plain piece has no target, or it is a call, which the linker resolves
  have hplain : ∀ {p : Piece}, p.Plain → it.Carries p → TargetOk ctx funcs it' := by
    intro p hp hc
    cases p with
    | call name argc => exact targetOk_call hfits hc (hother hc.2.1 nofun)
    | rcDecWithDeinit | closureNew | handler | skipBy | skipTo | jump => exact hp.elim
    | _ => exact targetOk_plain hc (hother hc.2.1 nofun)
  cases hinv.origin it hit with
  | prologue hc => exact targetOk_plain hc (hother hc.2.1 nofun)
  | inst hbd hinst hp hc =>
    rename_i bd inst p
    have hok := hlinks.insts f hf bd hbd inst hinst
    rcases hp with hp | hp
    · exact hplain hp hc
    generalize inst.kind = kind at hp hok
    cases hp with
    | rcDec handle tyName =>
      refine (targetOk_rcDec hc (hother hc.2.1 nofun)).2 ?_
      exact hok.imp (offsetOf_eq_none.2) atStart_iff.1
    | closure func captures =>
      refine (targetOk_closure hfits hc (hother hc.2.1 nofun)).2 fun hnone => ?_
      obtain ⟨f', hf', hname⟩ := hok
      exact offsetOf_eq_none.1 hnone f' hf' hname
    | handler b =>
      exact (targetOk_block h hfits (hinv.site it hit) (.inr hc.1) hc.2 hl).2 hok
    | condDrop v flag tyName => exact hok.elim
  | term hbd hsite hp hc =>
    rename_i bd p
    rcases hp with hp | hp
    · exact hplain hp hc
    have hok := hlinks.terms f hf bd hbd
    have hskip : ∀ {m : Nat}, it.Carries (.skipTo m) → TargetOk ctx funcs it' := by
      rintro m ⟨n, hop, hpatch, hgoal⟩
      exact (targetOk_skip ⟨hop, hpatch, hgoal⟩ (hother hpatch nofun)).2
        (skip_toNat hfits h (hinv.skip it hit hsite n hgoal))
    generalize bd.term = t at hp hok
    cases hp with
    | jump hb => exact (targetOk_block h hfits (hinv.site it hit) (.inl hc.1) hc.2 hl).2 (hok _ hb)
    | condBr | switch => exact hskip hc

theorem inst_transfer (ctx : Ctx) (j offset : Nat) (pool : List String)
    (hbd : f.blocks[b]? = some bd) (hinst : bd.insts[i]? = some inst)
    (hp : InstTransfer inst.kind p) : ∃ it ∈ (funcEnd ctx j offset pool f).code, it.Carries p ∧
      ((∃ v flag tyName, inst.kind = .condDrop v flag tyName) →
        ∀ n, it.goal = some (.offset n) → 3 < n) := by
  obtain ⟨g', -, hgrows⟩ := genBlocks_reaches_inst ctx (phiInfo f) f.blocks 0
    (funcStart j offset pool f) hbd hinst
  set g := instStart ctx (0 + b) g' i inst with hg
  have hmem : ∀ pre post, template ctx g inst.kind = pre ++ p :: post → ∀ it,
      (g.emitAll inst.result pre).Emits inst.result p it →
        it ∈ (funcEnd ctx j offset pool f).code := by
    intro pre post hsplit it hit
    refine hgrows.mem ?_
    rw [genInst_eq, propagate_code, ← hg, hsplit]
    exact emitAll_mem pre post hit
  have hcarries : ∀ {g₁ : Gen} {it : Item}, g₁.Emits inst.result p it → it.Carries p :=
    fun h => carries_of_emits h (.inr (.inl ⟨_, hp⟩))
  obtain ⟨result, kind⟩ := inst
  cases hp with
  | rcDec handle tyName =>
    have hit : (g.emitAll result [.value handle]).Emits result
      (.rcDecWithDeinit (deinitName tyName)) _ := ⟨rfl⟩
    exact ⟨_, hmem [.value handle] _ rfl _ hit, hcarries hit, nofun⟩
  | closure func captures =>
    have hit : (g.emitAll result []).Emits result (.closureNew func captures.length) _ := ⟨rfl⟩
    exact ⟨_, hmem [] _ rfl _ hit, hcarries hit, nofun⟩
  | handler b =>
    have hit : (g.emitAll result []).Emits result (.handler b) _ := ⟨rfl⟩
    exact ⟨_, hmem [] _ rfl _ hit, hcarries hit, nofun⟩
  | condDrop v flag tyName =>
    have hit : (g.emitAll result [.value flag, .op (.pushI64 0), .op .eqI64]).Emits result
      (.skipBy 3) _ := ⟨rfl⟩
    refine ⟨_, hmem [.value flag, .op (.pushI64 0), .op .eqI64] _ rfl _ hit, hcarries hit, ?_⟩
    rintro - n ⟨⟩
    have hlt : g.pos < (g.emitAll result [.value flag, .op (.pushI64 0), .op .eqI64]).pos :=
      emitAll_lt ⟨_, List.mem_cons_self, trivial⟩
    omega

theorem jump_mem_terminator (ctx : Ctx) (g : Gen) (phis : PhiInfo) (src : Block) (hb : b ∈ jumpBlocks t) : .jump b ∈ terminator ctx g phis src t := by
  have hedge : ∀ dst, Piece.jump dst ∈ edgePieces g phis src dst := by simp [edgePieces]
  cases t with
  | br c =>
    obtain rfl : b = c := by simpa [jumpBlocks] using hb
    exact hedge b
  | condBr cond thenBb elseBb =>
    simp only [jumpBlocks, List.mem_cons, List.not_mem_nil, or_false] at hb
    rcases hb with rfl | rfl
    · exact List.mem_append_left _ (List.mem_append_right _ (hedge _))
    · exact List.mem_append_right _ (hedge _)
  | switch scrut default cases =>
    rcases List.mem_append.1 hb with hb | hb
    · obtain ⟨c, hc, rfl⟩ := List.mem_map.1 hb
      exact List.mem_append_left _ (List.mem_flatMap.2 ⟨c, hc, List.mem_append_right _ (hedge c.2)⟩)
    · obtain rfl := List.mem_singleton.1 hb
      exact List.mem_append_right _ (hedge _)
  | invoke callee args ret result normal unwind =>
    obtain rfl : b = normal := by simpa [jumpBlocks] using hb
    exact List.mem_append_right _ (List.mem_singleton_self _)
  | _ => simp [jumpBlocks] at hb

theorem term_transfer (ctx : Ctx) (j offset : Nat) (pool : List String) {c : Nat} (hbd : f.blocks[c]? = some bd)
    (hb : b ∈ jumpBlocks bd.term) :
    ∃ it ∈ (funcEnd ctx j offset pool f).code, it.Carries (.jump b) := by
  obtain ⟨g', -, hgrows⟩ := genBlocks_reaches_term ctx (phiInfo f) f.blocks 0
    (funcStart j offset pool f) hbd
  obtain ⟨pre, post, hsplit⟩ := List.append_of_mem
    (jump_mem_terminator ctx (termStart (0 + c) g') (phiInfo f) (0 + c) hb)
  have hit : ((termStart (0 + c) g').emitAll (termResult bd.term) pre).Emits
    (termResult bd.term) (.jump b) _ := ⟨rfl⟩
  refine ⟨_, hgrows.mem ?_, carries_of_emits hit (.inr (.inr ⟨_, .jump hb⟩))⟩
  rw [genTerm_eq, hsplit]
  exact emitAll_mem pre post hit

theorem links_of_targetsOk (hfits : Fits ctx funcs) (htargets : TargetsOk ctx funcs) :
    Links ctx funcs := by
  have hlink : ∀ {j : Nat} {f : Func} {pool : List String}, FuncAt ctx funcs j f pool →
      ∀ it ∈ (funcEnd ctx j (entryOffset ctx funcs j) pool f).code, ∃ it',
        TargetOk ctx funcs it' ∧ Linked (offsetOf ctx funcs) (linked ctx funcs).2
          (patchJump (genFunc ctx j (entryOffset ctx funcs j) pool f).blockOffset it) it' := by
    intro j f pool h it hit
    obtain ⟨it', hit', hl⟩ := h.linked hfits hit
    exact ⟨it', htargets it' hit', hl⟩
  constructor
  · intro f hf bd hbd inst hinst
    obtain ⟨j, hj⟩ := List.mem_iff_getElem?.1 hf
    obtain ⟨b, hb⟩ := List.mem_iff_getElem?.1 hbd
    obtain ⟨i, hi⟩ := List.mem_iff_getElem?.1 hinst
    obtain ⟨pool, h⟩ := FuncAt.exists ctx hj
    have hinv : FuncInv f j (funcEnd ctx j (entryOffset ctx funcs j) pool f) := funcEnd_inv
    -- every target of the function is carried by an item of its code
    have htransfer : ∀ {p : Piece}, InstTransfer inst.kind p → _ :=
      fun hp => inst_transfer ctx j (entryOffset ctx funcs j) pool hb hi hp
    obtain ⟨result, kind⟩ := inst
    cases kind with
    | condDrop v flag tyName =>
      obtain ⟨it, hit, ⟨n, hop, hpatch, hgoal⟩, hn⟩ := htransfer (.condDrop v flag tyName)
      obtain ⟨it', hok, hl⟩ := hlink h it hit
      rw [patchJump_other (by simp [hpatch])] at hl
      have heq := (targetOk_skip ⟨hop, hpatch, hgoal⟩ hl).1 hok
      exact Nat.ne_of_lt (hn ⟨_, _, _, rfl⟩ _ hgoal) heq
    | rcDec handle tyName =>
      cases tyName with
      | none => trivial
      | some tyName =>
        obtain ⟨it, hit, hc, -⟩ := htransfer (.rcDec handle tyName)
        obtain ⟨it', hok, hl⟩ := hlink h it hit
        rw [patchJump_other (by simp [hc.2.1])] at hl
        exact ((targetOk_rcDec hc hl).1 hok).imp offsetOf_eq_none.1 atStart_iff.2
    | makeClosure func captures =>
      obtain ⟨it, hit, hc, -⟩ := htransfer (.closure func captures)
      obtain ⟨it', hok, hl⟩ := hlink h it hit
      rw [patchJump_other (by simp [hc.2.1])] at hl
      have hne := (targetOk_closure hfits hc hl).1 hok
      rw [Ne, offsetOf_eq_none] at hne
      change ∃ f ∈ funcs, f.name = func
      simpa using hne
    | setUnwindHandler b =>
      obtain ⟨it, hit, hc, -⟩ := htransfer (.handler b)
      obtain ⟨it', hok, hl⟩ := hlink h it hit
      exact (targetOk_block h hfits (hinv.site it hit) (.inr hc.1) hc.2 hl).1 hok
    | _ => trivial
  · intro f hf bd hbd b hb
    obtain ⟨j, hj⟩ := List.mem_iff_getElem?.1 hf
    obtain ⟨c, hc⟩ := List.mem_iff_getElem?.1 hbd
    obtain ⟨pool, h⟩ := FuncAt.exists ctx hj
    have hinv : FuncInv f j (funcEnd ctx j (entryOffset ctx funcs j) pool f) := funcEnd_inv
    obtain ⟨it, hit, hcarries⟩ := term_transfer ctx j (entryOffset ctx funcs j) pool hc hb
    obtain ⟨it', hok, hl⟩ := hlink h it hit
    exact (targetOk_block h hfits (hinv.site it hit) (.inl hcarries.1) hcarries.2 hl).1 hok

/-- **Exactly the programs of `Links` are linked correctly.** A `CondDrop` stores the
distance to the end of its drop sequence where `JumpIfFalse` takes an offset, and the call
patches skip `RcDecWithDeinit`, which keeps its placeholder 0. -/
theorem targetsOk_iff (hfits : Fits ctx funcs) : TargetsOk ctx funcs ↔ Links ctx funcs :=
  ⟨links_of_targetsOk hfits, targetsOk_of_links hfits⟩

end Program

/-- A loop that calls a function of the program. -/
def loopProgram : List Func :=
  [⟨"main", [.i64], .i64,
      [⟨"entry", [], .br 1⟩, ⟨"head", [⟨1, .phi [(0, 0), (2, 2)]⟩], .condBr 1 2 3⟩,
        ⟨"body", [⟨2, .call "step" [1] .i64⟩], .br 1⟩, ⟨"exit", [], .ret (some 1)⟩], none⟩,
    ⟨"step", [.i64], .i64, [⟨"entry", [], .ret (some 0)⟩], none⟩]

/-- The context of the example programs. -/
def exampleCtx : Ctx := ⟨[], [], ["main", "step", "TFns.deinit"]⟩

theorem targetsOk_iff_loopProgram : TargetsOk exampleCtx loopProgram :=
  (targetsOk_iff ⟨by decide +kernel, by decide +kernel⟩).2
    ⟨by simp [loopProgram, InstLinks], by simp [loopProgram, jumpBlocks]⟩

/-- `main(v, flag)`, which drops `v` when `flag` is 0. -/
def condDropProgram : List Func :=
  [⟨"main", [.i64, .i64], .void, [⟨"entry", [⟨2, .condDrop 0 1 "T"⟩], .ret none⟩], none⟩,
    ⟨"TFns.deinit", [.i64], .void, [⟨"entry", [], .ret none⟩], none⟩]

/-- `main(h)`, which releases a reference to a `T`. -/
def rcDecProgram : List Func :=
  [⟨"main", [.i64], .void, [⟨"entry", [⟨1, .rcDec 0 (some "T")⟩], .ret none⟩], none⟩,
    ⟨"TFns.deinit", [.i64], .void, [⟨"entry", [], .ret none⟩], none⟩]

/-- The `CondDrop` skips to offset 3 instead of 8, into the middle of its own template; the
release of the reference runs the code at offset 0 instead of the deinit function at 5. -/
theorem targetsOk_condDropProgram :
    ¬ TargetsOk exampleCtx condDropProgram ∧ ¬ TargetsOk exampleCtx rcDecProgram := by
  constructor
  · intro h
    have hit : (⟨.jumpIfFalse 3, none, some (.offset 8), ⟨0, 0, .inst 0⟩, 1, (1, 0), .none⟩ : Item) ∈
        (linked exampleCtx condDropProgram).1 := by decide +kernel
    obtain ⟨t, ht, hgoal⟩ | ⟨_, _, _, hop, _⟩ := (targetOk_some rfl).1 (h _ hit)
    · cases ht
      cases hgoal
    · cases hop
  · intro h
    have hit : (⟨.rcDecWithDeinit 0, some (.call "TFns.deinit"), some (.func "TFns.deinit"),
        ⟨0, 0, .inst 0⟩, 1, (1, 1), .none⟩ : Item) ∈ (linked exampleCtx rcDecProgram).1 := by
      decide +kernel
    obtain ⟨t, ht, hgoal⟩ | ⟨_, _, _, hop, _⟩ := (targetOk_some rfl).1 (h _ hit)
    · cases ht
      cases hgoal
    · cases hop

end Arth.Codegen
