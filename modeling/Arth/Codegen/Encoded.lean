import Arth.Codegen.Calls
import Arth.Vm.Machine
import Arth.Vm.Roundtrip

/-!
# Which programs can be written

`encode_program` stops at an instruction that it has no code for, and these are the operations on
big numbers.

* `template_written`, `emits_written` — what is emitted but for a call of such an operation has a
  code.
* `written_iff` — the compiled programs that are written and read back.
-/

namespace Arth.Codegen

open Ir Gen List

/-- The call is translated to an operation on big integers or decimals. -/
def IsBigCall : InstKind → Prop
  | .call name args _ => asBytes "__arth_big" <+: asBytes name ∧
      (plainIntrinsics.find? fun e => e.1 == name && e.2.1 == args.length).isSome
  | _ => False

/-- The bytecode has a code for the instruction. -/
def Piece.written : Piece → Bool
  | .op o | .run o _ _ => (encodeOp o).isSome
  | _ => true

variable {ctx : Ctx} {g : Gen} {args : List Ir.Value} {r : Ir.Value} {p : Piece} {it it' : Item}

theorem plainIntrinsics_written : ∀ e ∈ plainIntrinsics,
    (encodeOp e.2.2).isSome = true ↔ ¬ asBytes "__arth_big" <+: asBytes e.1 := by
  have h : plainIntrinsics.all (fun e =>
      (encodeOp e.2.2).isSome == !(asBytes "__arth_big").isPrefixOf (asBytes e.1)) = true := by
    decide +kernel
  intro e he
  have := List.all_eq_true.1 h e he
  simp only [beq_iff_eq] at this
  rw [this, Bool.not_eq_true', ← Bool.not_eq_true, List.isPrefixOf_iff_prefix]

theorem otherIntrinsics_written :
    ∀ e ∈ otherIntrinsics, ∀ s ∈ e.2.2, ∀ o, s.op? = some o → (encodeOp o).isSome = true := by
  have h : otherIntrinsics.all (fun e => e.2.2.all fun s =>
      s.op?.all fun o => (encodeOp o).isSome) = true := by decide +kernel
  intro e he s hs o ho
  simpa [ho] using List.all_eq_true.1 (List.all_eq_true.1 h e he) s hs

theorem values_written (args : List Ir.Value) : (args.map Piece.value).all Piece.written = true := by
  simp [Piece.written]

theorem specialPieces_written {ps : List Piece} (h : SpecialPieces args ps) :
    ps.all Piece.written = true := by
  cases h with
  | spawn a b n =>
    rw [all_append, taskArgPieces, all_flatMap]
    exact all_eq_true.2 fun a _ => rfl
  | _ => rfl

theorem callTemplate_written (ctx : Ctx) (g : Gen) {name : String}
    (h : ∀ e, plainIntrinsics.find? (fun e => e.1 == name && e.2.1 == args.length) = some e →
      (encodeOp e.2.2).isSome = true) : (callTemplate ctx g name args).all Piece.written = true := by
  rw [callTemplate, all_cons, Bool.and_eq_true]
  refine ⟨rfl, ?_⟩
  split
  · rename_i e he
    simp [Piece.written, h e he]
  · split
    · rename_i e he
      rw [all_flatMap]
      refine all_eq_true.2 fun s hs => ?_
      have ho := otherIntrinsics_written e (mem_of_find?_eq_some he) s hs
      cases s with
      | op o | run o => simp [intrinsicPieces, Piece.written, ho o rfl]
      | arg i => cases hi : args[i]? <;> simp [intrinsicPieces, argPiece, Piece.written, hi]
      | _ => rfl
    · split
      · rename_i ps hps
        exact specialPieces_written (specialIntrinsic_pieces hps)
      · rw [all_append, values_written]
        rfl

theorem template_written (ctx : Ctx) (g : Gen) {kind : InstKind} (h : ¬ IsBigCall kind) :
    (template ctx g kind).all Piece.written = true := by
  cases kind with
  | call name args ret =>
    refine callTemplate_written ctx g fun e he => ?_
    rw [plainIntrinsics_written e (mem_of_find?_eq_some he)]
    have hp := find?_some he
    rw [Bool.and_eq_true, beq_iff_eq] at hp
    rw [hp.1]
    exact fun hname => h ⟨hname, by rw [he]; rfl⟩
  | binary op | cmp op | rcDec _ op => cases op <;> rfl
  | load | store =>
    rw [template]
    split <;> rfl
  | externCall name args params ret =>
    rw [template, all_append, values_written]
    rfl
  | makeClosure func captures =>
    rw [template, all_append, all_flatMap]
    exact all_eq_true.2 fun c _ => rfl
  | closureCall c args ret =>
    rw [template, cons_append, all_cons, all_append, values_written]
    rfl
  | regionExit id ds =>
    rw [template, all_append, all_flatMap, Bool.and_eq_true]
    exact ⟨all_eq_true.2 fun d _ => rfl, rfl⟩
  | providerNew name values =>
    rw [template, Codegen.providerNew, all_cons]
    split
    · rfl
    · rw [all_append, all_append, all_flatMap]
      simp only [Bool.and_eq_true]
      refine ⟨rfl, ⟨rfl, all_eq_true.2 fun f _ => ?_⟩, rfl⟩
      rw [providerField, all_append, Bool.and_eq_true]
      constructor
      · cases f.1.isShared <;> rfl
      · split <;> rfl
  | providerFieldGet obj provider field =>
    rw [template, Codegen.providerFieldGet, all_cons]
    split
    · rfl
    · rw [all_append, all_append]
      split <;> rfl
  | providerFieldSet obj provider field v =>
    rw [template, Codegen.providerFieldSet]
    split_ifs <;> rfl
  | _ => rfl

theorem edgePieces_written (g : Gen) (phis : PhiInfo) (src dst : Block) :
    (edgePieces g phis src dst).all Piece.written = true := by
  rw [edgePieces, all_append, emitPhiAssignments, all_flatMap, Bool.and_eq_true]
  refine ⟨all_eq_true.2 fun phi _ => ?_, rfl⟩
  unfold phiPieces
  split
  · rw [all_cons]
    split <;> rfl
  · rfl

theorem terminator_written (ctx : Ctx) (g : Gen) (phis : PhiInfo) (src : Block) (t : Terminator) :
    (terminator ctx g phis src t).all Piece.written = true := by
  have hedge := edgePieces_written g phis src
  cases t with
  | br b => exact hedge b
  | condBr cond thenBb elseBb =>
    rw [terminator, all_append, all_append, hedge, hedge]
    rfl
  | switch scrut default cases =>
    rw [terminator, all_append, all_flatMap, hedge, Bool.and_true]
    refine all_eq_true.2 fun c _ => ?_
    rw [all_append, hedge]
    rfl
  | invoke callee args ret result normal unwind =>
    rw [terminator, all_append]
    unfold invokePieces
    split
    · rw [all_append, all_append, values_written]
      cases result <;> rfl
    · cases result <;> rfl
  | ret v | throw v => cases v <;> rfl
  | _ => rfl

/-! ## What is emitted -/

theorem emits_written (h : g.Emits r p it) (hp : p.written = true) :
    (encodeOp it.op).isSome = true := by
  have hcode := h.code
  cases p with
  | bind => simp [emit] at hcode
  | newTemp | intern => exact (code_ne hcode).elim
  | value v =>
    obtain ⟨op, pool, heq, hpush⟩ := pushValue_eq g v
    rw [emit, heq] at hcode
    obtain rfl := emits_push rfl hcode
    rcases hpush with ⟨_, rfl⟩ | ⟨_, rfl⟩ | ⟨_, rfl⟩ | ⟨_, rfl⟩ <;> rfl
  | op | run =>
    obtain rfl := emits_push rfl hcode
    exact hp
  | withText o s =>
    obtain rfl := emits_push_intern hcode
    cases o <;> rfl
  | native | text | textIx =>
    obtain rfl := emits_push_intern hcode
    rfl
  | phi dst =>
    cases hdst : g.valLocal dst with
    | none => simp [emit, hdst] at hcode
    | some ix =>
      simp only [emit, hdst] at hcode
      obtain rfl := emits_push rfl hcode
      rfl
  | _ =>
    obtain rfl := emits_push rfl hcode
    rfl

/-- The bytecode has codes for the code so far. -/
def Written (g : Gen) : Prop := ∀ it ∈ g.code, (encodeOp it.op).isSome = true

theorem funcEnd_written {f : Func} {k offset : Nat} {pool : List String}
    (hf : ∀ bd ∈ f.blocks, ∀ inst ∈ bd.insts, ¬ IsBigCall inst.kind) :
    Written (funcEnd ctx k offset pool f) := by
  refine genBlocks_induction f.blocks 0 _ (fun c bd j inst g hc hj hg it hit => ?_)
    (fun c bd g hc hg it hit => ?_) fun it hit => ?_
  · rcases mem_genInst hit with hit | ⟨pre, p, post, hsplit, hemits⟩
    · exact hg it hit
    · have hp := template_written ctx (instStart ctx (0 + c) g j inst)
        (hf bd (mem_of_getElem? hc) inst (mem_of_getElem? hj))
      rw [hsplit] at hp
      exact emits_written hemits (all_eq_true.1 hp p (by simp))
  · rcases mem_genTerm hit with hit | ⟨pre, p, post, hsplit, hemits⟩
    · exact hg it hit
    · have hp := terminator_written ctx (termStart (0 + c) g) (phiInfo f) (0 + c) bd.term
      rw [hsplit] at hp
      exact emits_written hemits (all_eq_true.1 hp p (by simp))
  · rw [funcStart_code] at hit
    obtain ⟨i, -, rfl⟩ := mem_map.1 hit
    rfl

theorem patchJump_written (bo : List Nat) (h : (encodeOp it.op).isSome = true) :
    (encodeOp (patchJump bo it).op).isSome = true := by
  unfold patchJump
  split
  · split
    · split
      · rfl
      · rfl
      · rfl
      · exact h
    · exact h
  · exact h

theorem linked_written {offsets : String → Option Nat} {strings : List String}
    (hl : Linked offsets strings it it') (h : (encodeOp it.op).isSome = true) :
    (encodeOp it'.op).isSome = true := by
  cases hp : it.patch with
  | none => rwa [hl.other (by simp [hp]) (by simp [hp])]
  | some patch =>
    cases patch with
    | call name =>
      cases hoff : offsets name with
      | none =>
        obtain ⟨ix, hop, -⟩ := hl.symbol name hp hoff
        rw [hop]
        rfl
      | some off =>
        rw [hl.call name off hp hoff]
        unfold storeCall
        split <;> first | rfl | exact h
    | closure name =>
      cases hoff : offsets name with
      | none => rwa [hl.unresolved name hp hoff]
      | some off =>
        rw [hl.closure name off hp hoff]
        unfold storeClosure
        split <;> first | rfl | exact h
    | block b => rwa [hl.other (by simp [hp]) (by simp [hp])]

/-- A call of an operation on big numbers leaves it in the code. -/
theorem funcEnd_big (ctx : Ctx) {f : Func} {bd : BlockData} {inst : Inst} {b i : Nat} (k offset : Nat)
    (pool : List String) (hbd : f.blocks[b]? = some bd) (hinst : bd.insts[i]? = some inst)
    (h : IsBigCall inst.kind) : ∃ it ∈ (funcEnd ctx k offset pool f).code,
      it.patch = none ∧ encodeOp it.op = none := by
  obtain ⟨g', -, hgrows⟩ := genBlocks_reaches_inst ctx (phiInfo f) f.blocks 0
    (funcStart k offset pool f) hbd hinst
  obtain ⟨result, kind⟩ := inst
  cases kind with
  | call name args ret =>
    obtain ⟨hname, hfind⟩ := h
    obtain ⟨e, he⟩ := Option.isSome_iff_exists.1 hfind
    have hp := find?_some he
    rw [Bool.and_eq_true, beq_iff_eq] at hp
    set g := instStart ctx (0 + b) g' i ⟨result, .call name args ret⟩ with hg
    have hop : encodeOp e.2.2 = none := by
      rw [← Option.not_isSome_iff_eq_none, plainIntrinsics_written e (mem_of_find?_eq_some he)]
      exact not_not.2 (hp.1 ▸ hname)
    have hsplit : template ctx g (.call name args ret) =
        (.bind :: args.map .value) ++ .run e.2.2 args.length 1 :: [.set] := by
      rw [template, callTemplate, he]
      rfl
    have hmem : ∀ it, (g.emitAll result (.bind :: args.map .value)).Emits result
        (.run e.2.2 args.length 1) it → it ∈ (funcEnd ctx k offset pool f).code := by
      refine fun it hit => hgrows.mem ?_
      rw [genInst_eq, propagate_code, ← hg, hsplit]
      exact emitAll_mem _ _ hit
    have hit : (g.emitAll result (.bind :: args.map .value)).Emits result
      (.run e.2.2 args.length 1) _ := ⟨rfl⟩
    exact ⟨_, hmem _ hit, rfl, hop⟩
  | _ => exact h.elim

/-- In every environment the programs take the same steps. -/
def Same (p p' : Program) : Prop :=
  ∀ (W : Type) (env : Env W) (s : State W), step { env with program := p' } s =
    step { env with program := p } s

theorem findFirstLocalGet_drop (p : Program) (offset : UInt32) :
    findFirstLocalGet p.dropEmptySources offset = findFirstLocalGet p offset := by
  have hgo : ∀ fuel ip set, findFirstLocalGet.go p.dropEmptySources offset fuel ip set =
      findFirstLocalGet.go p offset fuel ip set := by
    intro fuel
    induction fuel with
    | zero => exact fun _ _ => rfl
    | succ fuel ih =>
      simp only [findFirstLocalGet.go, ih]
      exact fun _ _ => rfl
  exact hgo _ _ _

theorem same_drop (p : Program) : Same p p.dropEmptySources := by
  intro W env s
  have hexec : ∀ op s, exec { env with program := p.dropEmptySources } op s =
      exec { env with program := p } op s := by
    intro op s
    cases op with
    | call tgt =>
      change callOp _ tgt s = callOp _ tgt s
      simp only [callOp, findFirstLocalGet_drop]
      rfl
    | _ => rfl
  simp only [step, hexec]
  rfl

theorem encodeCode_isSome {ops : List Op} :
    (∃ code, encodeCode ops = some code) ↔ ∀ op ∈ ops, (encodeOp op).isSome = true := by
  induction ops with
  | nil => simp [encodeCode]
  | cons op ops ih =>
    rw [forall_mem_cons, ← ih]
    cases hop : encodeOp op with
    | none => simp [encodeCode, hop]
    | some bs => cases hops : encodeCode ops <;> simp [encodeCode, hop, hops]

/-- **What can be written.** A compiled program is written exactly if it calls no operation on big
numbers, and what is read back takes the same steps. -/
theorem written_iff {funcs : List Func} (hfits : Fits ctx funcs) :
    (∃ bytes, encodeProgram (compileIrToProgram ctx funcs) = some bytes ∧
      ((compileIrToProgram ctx funcs).Fits →
        ∃ p, decodeProgram bytes = .ok p ∧ Same (compileIrToProgram ctx funcs) p)) ↔
    ∀ f ∈ funcs, ∀ bd ∈ f.blocks, ∀ inst ∈ bd.insts, ¬ IsBigCall inst.kind := by
  have hsome : (∃ bytes, encodeProgram (compileIrToProgram ctx funcs) = some bytes) ↔
      ∀ op ∈ (compileIrToProgram ctx funcs).code, (encodeOp op).isSome = true := by
    rw [← encodeCode_isSome]
    cases hcode : encodeCode (compileIrToProgram ctx funcs).code <;> simp [encodeProgram, hcode]
  have hcode : ∀ op, op ∈ (compileIrToProgram ctx funcs).code ↔
      op = .halt ∨ ∃ it ∈ (linked ctx funcs).1, it.op = op := by
    intro op
    unfold compileIrToProgram
    split
    · rename_i hnil
      subst hnil
      have hlen : (linked ctx []).1 = [] := length_eq_zero_iff.1 (linked_length.trans rfl)
      simp [hlen]
    · simp [or_comm]
  have hlinked := linked_forall₂ hfits
  constructor
  · rintro ⟨bytes, hbytes, -⟩ f hf bd hbd inst hinst hbig
    obtain ⟨j, hj⟩ := mem_iff_getElem?.1 hf
    obtain ⟨pool, hat⟩ := FuncAt.exists ctx hj
    obtain ⟨b, hb⟩ := mem_iff_getElem?.1 hbd
    obtain ⟨i, hi⟩ := mem_iff_getElem?.1 hinst
    obtain ⟨it, hit, hpatch, hop⟩ := funcEnd_big ctx j (entryOffset ctx funcs j) pool
      hb hi hbig
    obtain ⟨it', hit', hl⟩ := hat.linked hfits hit
    rw [patchJump_other (by simp [hpatch])] at hl
    have hw := hsome.1 ⟨bytes, hbytes⟩ it'.op ((hcode _).2 (.inr ⟨it', hit', rfl⟩))
    rw [hl.other (by simp [hpatch]) (by simp [hpatch]), hop] at hw
    cases hw
  · intro h
    obtain ⟨bytes, hbytes⟩ := hsome.2 fun op hop => by
      rcases (hcode op).1 hop with rfl | ⟨it', hit', rfl⟩
      · rfl
      obtain ⟨i, hi⟩ := mem_iff_getElem?.1 hit'
      obtain ⟨it, hit, hl⟩ := (linked_getElem? hfits).2 it' hi
      obtain ⟨j, f, pool, hat, it₀, hit₀, rfl⟩ := mem_unlinkedItems.1 (mem_of_getElem? hit)
      exact linked_written hl (patchJump_written _
        (funcEnd_written (h f (mem_of_getElem? hat.func)) it₀ hit₀))
    refine ⟨bytes, hbytes, fun hp => ?_⟩
    obtain ⟨body, rfl, hbody⟩ := encodeProgram_reads hp hbytes
    exact ⟨_, decodeProgram_magic hbody, same_drop _⟩

theorem written_iff_loopProgram : ∃ bytes,
    encodeProgram (compileIrToProgram exampleCtx loopProgram) = some bytes := by
  have hfits : Fits exampleCtx loopProgram := ⟨by decide +kernel, by decide +kernel⟩
  obtain ⟨bytes, h, -⟩ := (written_iff hfits).2 (by
    simpa [loopProgram, IsBigCall] using fun h => absurd h (by decide))
  exact ⟨bytes, h⟩

end Arth.Codegen
