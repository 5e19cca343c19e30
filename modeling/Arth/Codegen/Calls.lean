import Arth.Codegen.Targets
import Arth.Codegen.Dispatch

/-!
# Where calls go

* `calleeOf` — the function a call of a name should go to.
* `Resolves` — in every order of the set of function names, every call goes there.
* `Unambiguous` — the programs of which that is true: no other function's name ends with a dot and
  the called name, and an `Invoke` finds a function.
* `resolves_iff` — exactly these; and of these the generated program is the same in every order.
-/

namespace Arth.Codegen

open Ir Gen List Option

variable {funcs : List Func} {strings : List String} {providers : List Provider}

/-- **The function a call of `name` should go to**, from a function of module `home`: the function
of that name, else the one of the same module, if the name is not qualified. Else it is an external
function. -/
def calleeOf (names : List String) (home : Option String) (name : String) : String :=
  if name ∈ names ∨ '.' ∈ name.toList then name
  else
    match home with
    | some m => if m ++ "." ++ name ∈ names then m ++ "." ++ name else name
    | none => name

/-- The names of the functions, in an order the iterator of a hash set may yield them in. -/
structure IsOrder (funcs : List Func) (order : List String) : Prop where
  nodup : order.Nodup
  mem : ∀ n, n ∈ order ↔ n ∈ funcs.map (·.name)

/-- The template of an intrinsic. -/
def intrinsicTemplate (g : Gen) (name : String) (args : List Ir.Value) : Option (List Piece) :=
  match plainIntrinsics.find? fun e => e.1 == name && e.2.1 == args.length with
  | some e => some (args.map .value ++ [.run e.2.2 args.length 1, .set])
  | none =>
    match otherIntrinsics.find? fun e => e.1 == name && e.2.1 == args.length with
    | some e => some (e.2.2.flatMap (intrinsicPieces g args))
    | none => specialIntrinsic g name args

def IsIntrinsic (name : String) (args : List Ir.Value) : Prop :=
  ∃ g, intrinsicTemplate g name args ≠ none

/-- The call sites of a function, by block and part. -/
inductive Calls (f : Func) : Block → Part → String → Prop
  | call {b i : ℕ} {bd : BlockData} {inst : Inst} {name : String} {args : List Ir.Value} {ret : Ty} :
    f.blocks[b]? = some bd → bd.insts[i]? = some inst → inst.kind = .call name args ret →
    ¬ IsIntrinsic name args → Calls f b (.inst i) name
  | invoke {b : ℕ} {bd : BlockData} {callee : String} {args : List Ir.Value} {ret : Ty}
    {result : Option Ir.Value} {normal unwind : Block} :
    f.blocks[b]? = some bd → bd.term = .invoke callee args ret result normal unwind →
    ¬ IsIntrinsic callee args → Calls f b .term callee

/-- The instruction at position `i` transfers to the function `target`: to the entry offset of the
last one of that name, else by the name. -/
structure TransfersTo (ctx : Ctx) (funcs : List Func) (i : ℕ) (target : String) : Prop where
  known : ∀ k, IsLast funcs k target → (compileIrToProgram ctx funcs).code[i]? =
    some (.call (UInt32.ofNat (entryOffset ctx funcs k)))
  unknown : (∀ f ∈ funcs, f.name ≠ target) → ∃ ix,
    (compileIrToProgram ctx funcs).code[i]? = some (.callSymbol ix) ∧
      (compileIrToProgram ctx funcs).strings[ix.toNat]? = some target

/-- The code of a site has a call that is patched with `target`; where all operands fit, it
transfers there. -/
def GoesTo (ctx : Ctx) (funcs : List Func) (site : Site) (target : String) : Prop :=
  ∃ i it, (unlinkedItems ctx funcs)[i]? = some it ∧ it.site = site ∧
    it.patch = some (.call target) ∧ (Fits ctx funcs → TransfersTo ctx funcs i target)

/-- **Every call goes where it should**, whatever the order of the names. `home` says of which
module a function is. -/
def Resolves (strings : List String) (providers : List Provider) (funcs : List Func)
    (home : ℕ → Option String) : Prop :=
  ∀ order, IsOrder funcs order → ∀ j f b part name, funcs[j]? = some f → Calls f b part name →
    GoesTo ⟨strings, providers, order⟩ funcs ⟨j, b, part⟩
      (calleeOf (funcs.map (·.name)) (home j) name)

/-- A function whose name ends with a dot and `name` is the one to call. -/
def NoNamesake (names : List String) (home : Option String) (name : String) : Prop :=
  name ∉ names → ∀ n ∈ names, n.endsWith ("." ++ name) → n = calleeOf names home name

structure Unambiguous (funcs : List Func) (home : ℕ → Option String) : Prop where
  namesake : ∀ j f b part name, funcs[j]? = some f → Calls f b part name →
    NoNamesake (funcs.map (·.name)) (home j) name
  invoked : ∀ f ∈ funcs, ∀ b name, Calls f b .term name →
    name ∈ funcs.map (·.name) ∨ ∃ n ∈ funcs.map (·.name), n.endsWith ("." ++ name)

/-! ## Names -/

theorem endsWith_own (m name : String) : (m ++ "." ++ name).endsWith ("." ++ name) := by
  refine endsWith_iff.2 ⟨m.toList, ?_⟩
  simp

variable {names order : List String} {home : Option String} {name : String}

theorem calleeOf_mem (h : name ∈ names) : calleeOf names home name = name := if_pos (.inl h)

theorem calleeOf_of_none (h : ∀ n ∈ names, ¬ n.endsWith ("." ++ name)) :
    calleeOf names home name = name := by
  unfold calleeOf
  by_cases hplain : name ∈ names ∨ '.' ∈ name.toList
  · rw [if_pos hplain]
  rw [if_neg hplain]
  cases home with
  | none => rfl
  | some m =>
    have hown : m ++ "." ++ name ∉ names := fun hmem => h _ hmem (endsWith_own m name)
    exact if_neg hown

theorem qualifiedName_mem (h : name ∈ order) :
    qualifiedName ⟨strings, providers, order⟩ name = some name := if_pos h

theorem qualifiedName_of_not_mem (h : name ∉ order) :
    qualifiedName ⟨strings, providers, order⟩ name =
      order.find? fun n => n.endsWith ("." ++ name) := by
  unfold qualifiedName
  rw [if_neg h]
  refine find?_congr fun n hn => ?_
  have hne : (n == name) = false := by
    rw [beq_eq_false_iff_ne]
    rintro rfl
    exact h hn
  rw [hne, Bool.or_false]

theorem invokeName_of_not_mem (h : name ∉ order) : invokeName ⟨strings, providers, order⟩ name =
      order.find? fun n => n.endsWith ("." ++ name) := if_neg h

theorem find_of_noNamesake (hmem : ∀ n, n ∈ order ↔ n ∈ names) (hname : name ∉ names)
    (h : NoNamesake names home name) :
    (order.find? fun n => n.endsWith ("." ++ name)).getD name = calleeOf names home name := by
  cases hfind : order.find? fun n => n.endsWith ("." ++ name) with
  | none =>
    refine (calleeOf_of_none fun n hn => ?_).symm
    exact find?_eq_none.1 hfind n ((hmem n).2 hn)
  | some n =>
    have hn := (hmem n).1 (mem_of_find?_eq_some hfind)
    have hends := find?_some hfind
    exact h hname n hn hends

theorem isOrder_dedup (funcs : List Func) : IsOrder funcs (funcs.map (·.name)).dedup :=
  ⟨nodup_dedup _, fun _ => mem_dedup⟩

theorem isOrder_first {n : String} (hn : n ∈ funcs.map (·.name)) :
    IsOrder funcs (n :: (funcs.map (·.name)).dedup.erase n) := by
  have hdedup := nodup_dedup (funcs.map (·.name))
  refine ⟨nodup_cons.2 ⟨fun hmem => ?_, hdedup.erase n⟩, fun m => ?_⟩
  · exact (hdedup.mem_erase_iff.1 hmem).1 rfl
  · rw [mem_cons, hdedup.mem_erase_iff, mem_dedup]
    by_cases hm : m = n
    · subst hm
      tauto
    · tauto

theorem callTemplate_eq (ctx : Ctx) (g : Gen) (name : String) (args : List Ir.Value) :
    callTemplate ctx g name args = .bind :: (intrinsicTemplate g name args).getD
      (args.map .value ++ [.call ((qualifiedName ctx name).getD name) args.length 1, .set]) := by
  unfold callTemplate intrinsicTemplate
  cases plainIntrinsics.find? fun e => e.1 == name && e.2.1 == args.length with
  | some e => rfl
  | none =>
    cases otherIntrinsics.find? fun e => e.1 == name && e.2.1 == args.length with
    | some e => rfl
    | none =>
      cases specialIntrinsic g name args with
      | some | none => rfl

theorem ite_eq_none {α : Type} {c : Prop} [Decidable c] {a a' e e' : Option α}
    (h : (if c then a else e) = none) (hpos : a = none → a' = none) (hneg : e = none → e' = none) :
    (if c then a' else e') = none := by
  by_cases hc : c
  · rw [if_pos hc] at h ⊢
    exact hpos h
  · rw [if_neg hc] at h ⊢
    exact hneg h

variable {args : List Ir.Value}

theorem specialIntrinsic_none (g g' : Gen)
    (h : specialIntrinsic g name args = none) : specialIntrinsic g' name args = none := by
  refine ite_eq_none h (fun h => ?_) fun h => ?_
  · cases hs : args[0]?.bind g.constStr with
    | some | none => rw [hs] at h; cases h
  iterate 9 refine ite_eq_none h (nofun) fun h => ?_
  refine ite_eq_none h (fun h => ?_) fun h => ?_
  · cases hs : args[0]?.bind g.constStr with
    | some | none => rw [hs] at h; cases h
  iterate 3 refine ite_eq_none h (nofun) fun h => ?_
  rfl

theorem intrinsicTemplate_none (h : ¬ IsIntrinsic name args) (g : Gen) :
    intrinsicTemplate g name args = none := by
  by_contra hne
  exact h ⟨g, hne⟩

theorem intrinsicTemplate_some (h : IsIntrinsic name args) (g : Gen) :
    ∃ ps, intrinsicTemplate g name args = some ps := by
  obtain ⟨g', hg'⟩ := h
  rw [← ne_none_iff_exists']
  unfold intrinsicTemplate at hg' ⊢
  cases hplain : plainIntrinsics.find? fun e => e.1 == name && e.2.1 == args.length with
  | some e => simp
  | none =>
    rw [hplain] at hg'
    cases hother : otherIntrinsics.find? fun e => e.1 == name && e.2.1 == args.length with
    | some e => simp
    | none =>
      rw [hother] at hg'
      exact fun hnone => hg' (specialIntrinsic_none g g' hnone)

/-! ## The call of a site -/

/-- The function the generator picks for a call of `name` in a part of a block. -/
def picked (ctx : Ctx) : Part → String → Option String
  | .term, name => invokeName ctx name
  | _, name => some ((qualifiedName ctx name).getD name)

def Piece.Names (n : String) : Piece → Prop
  | .call name _ _ => name = n
  | .rcDecWithDeinit name => name = n
  | _ => False

variable {ctx : Ctx} {g : Gen} {it : Item} {p : Piece} {n : String} {j : ℕ} {f : Func} {b : Block}
  {part : Part} {r : Ir.Value}

theorem names_of_carries (h : it.Carries p) (hpatch : it.patch = some (.call n)) : p.Names n := by
  cases p with
  | call | rcDecWithDeinit =>
    rw [h.2.1] at hpatch
    exact Patch.call.inj (some.inj hpatch)
  | skipBy | skipTo m =>
    obtain ⟨m, -, hnone, -⟩ := h
    rw [hnone] at hpatch
    cases hpatch
  | _ =>
    rw [h.2.1] at hpatch
    cases hpatch

/-- The part of the block registers a call of `n`. -/
inductive Registers (ctx : Ctx) (f : Func) (b : Block) : Part → String → Prop
  | inst {i : ℕ} {bd : BlockData} {inst : Inst} {g : Gen} {p : Piece} {n : String} :
    f.blocks[b]? = some bd → bd.insts[i]? = some inst → p ∈ template ctx g inst.kind →
    p.Names n → Registers ctx f b (.inst i) n
  | term {bd : BlockData} {g : Gen} {phis : PhiInfo} {p : Piece} {n : String} :
    f.blocks[b]? = some bd → p ∈ terminator ctx g phis b bd.term → p.Names n →
    Registers ctx f b .term n

structure Registered (ctx : Ctx) (f : Func) (k : ℕ) (g : Gen) : Prop where
  func : g.site.func = k
  call : ∀ it ∈ g.code, ∀ n, it.patch = some (.call n) →
    it.site.func = k ∧ Registers ctx f it.site.block it.site.part n

variable {k : ℕ} {i : ℕ} {bd : BlockData} {phis : PhiInfo} {inst : Inst}

theorem genInst_registered (hbd : f.blocks[b]? = some bd)
    (hinst : bd.insts[i]? = some inst) (hg : Registered ctx f k g) :
    Registered ctx f k (genInst ctx b g i inst) := by
  refine ⟨(genInst_grows ctx b g i inst).func.trans hg.func, fun it hit n hn => ?_⟩
  rcases mem_genInst hit with hit | ⟨pre, p, post, hsplit, hemits⟩
  · exact hg.call it hit n hn
  · have hsite := (emits_site hemits).1
    rw [(emitAll_extends ..).site, instStart_site] at hsite
    have hmem : p ∈ template ctx (instStart ctx b g i inst) inst.kind := by simp [hsplit]
    have hp := template_transfers ctx (instStart ctx b g i inst) inst.kind p hmem
    have hcarries := carries_of_emits hemits (hp.imp_right fun h => .inl ⟨_, h⟩)
    rw [hsite]
    exact ⟨hg.func, .inst hbd hinst hmem (names_of_carries hcarries hn)⟩

theorem genTerm_registered (hbd : f.blocks[b]? = some bd)
    (hg : Registered ctx f k g) : Registered ctx f k (genTerm ctx phis b g bd.term) := by
  refine ⟨(genTerm_grows ctx phis b g bd.term).func.trans hg.func, fun it hit n hn => ?_⟩
  rcases mem_genTerm hit with hit | ⟨pre, p, post, hsplit, hemits⟩
  · exact hg.call it hit n hn
  · have hsite := (emits_site hemits).1
    rw [(emitAll_extends ..).site] at hsite
    have hmem : p ∈ terminator ctx (termStart b g) phis b bd.term := by simp [hsplit]
    have hp := terminator_transfers ctx (termStart b g) phis b bd.term p hmem
    have hcarries := carries_of_emits hemits (hp.imp_right fun h => .inr ⟨_, h⟩)
    rw [hsite]
    exact ⟨hg.func, .term hbd hmem (names_of_carries hcarries hn)⟩

theorem funcEnd_registered {offset : ℕ} {pool : List String} :
    Registered ctx f k (funcEnd ctx k offset pool f) := by
  have hstart : Registered ctx f k (funcStart k offset pool f) := by
    refine ⟨by rw [funcStart_site], fun it hit n hn => ?_⟩
    rw [funcStart_code] at hit
    obtain ⟨i, -, rfl⟩ := mem_map.1 hit
    cases hn
  refine genBlocks_induction f.blocks 0 _ (fun c bd i inst g hc hi hg => ?_)
    (fun c bd g hc hg => ?_) hstart
  · rw [zero_add]
    exact genInst_registered hc hi hg
  · rw [zero_add]
    exact genTerm_registered hc hg

theorem mem_unlinkedItems : it ∈ unlinkedItems ctx funcs ↔ ∃ j f pool, FuncAt ctx funcs j f pool ∧
    ∃ it₀ ∈ (funcEnd ctx j (entryOffset ctx funcs j) pool f).code,
      patchJump (genFunc ctx j (entryOffset ctx funcs j) pool f).blockOffset it₀ = it := by
  constructor
  · intro hit
    obtain ⟨fc, hfc, hmem⟩ := mem_flatMap.1 hit
    obtain ⟨j, hj⟩ := mem_iff_getElem?.1 hfc
    have hlt : j < funcs.length := by
      rw [← unlinked_length ctx]
      exact (List.getElem?_eq_some_iff.1 hj).1
    obtain ⟨pool, h⟩ := FuncAt.exists ctx (getElem?_eq_getElem hlt)
    cases hj.symm.trans h.code
    obtain ⟨it₀, hit₀, heq⟩ := mem_map.1 hmem
    exact ⟨j, _, pool, h, it₀, hit₀, heq⟩
  · rintro ⟨j, f, pool, h, it₀, hit₀, rfl⟩
    exact mem_flatMap.2 ⟨_, mem_of_getElem? h.code, genFunc_items ▸ mem_map_of_mem hit₀⟩

theorem picked_of_registers (hcall : Calls f b part name) (h : Registers ctx f b part n) :
    picked ctx part name = some n := by
  cases hcall with
  | @call i bd inst name args ret hbd hinst hkind hgeneric =>
    cases h with
    | @inst _ bd' inst' g p _ hbd' hinst' hmem hnames =>
      cases hbd.symm.trans hbd'
      cases hinst.symm.trans hinst'
      rw [hkind] at hmem
      change p ∈ callTemplate ctx g name args at hmem
      rw [callTemplate_eq, intrinsicTemplate_none hgeneric g] at hmem
      have hcases : p = .bind ∨ (∃ v ∈ args, Piece.value v = p) ∨
          p = .call ((qualifiedName ctx name).getD name) args.length 1 ∨ p = .set := by
        simpa using hmem
      -- of the pieces of a call only the call itself registers a name
      rcases hcases with rfl | ⟨v, -, rfl⟩ | rfl | rfl
      · exact hnames.elim
      · exact hnames.elim
      · exact congrArg some hnames
      · exact hnames.elim
  | @invoke bd callee args ret result normal unwind hbd hterm hgeneric =>
    cases h with
    | @term bd' g phis p _ hbd' hmem hnames =>
      cases hbd.symm.trans hbd'
      rw [hterm] at hmem
      change p ∈ invokePieces ctx name args result ++ [.jump normal] at hmem
      unfold invokePieces at hmem
      show invokeName ctx name = some n
      cases hname : invokeName ctx name with
      | none =>
        rw [hname] at hmem
        have hcases : p = .op (.pushI64 0) ∨ p = .bind ∨ p = .set ∨ p = .jump normal := by
          cases result with
          | none => exact .inr (.inr (.inr (by simpa using hmem)))
          | some r => simpa using hmem
        rcases hcases with rfl | rfl | rfl | rfl
        all_goals exact hnames.elim
      | some m =>
        rw [hname] at hmem
        have hcases : (∃ v ∈ args, Piece.value v = p) ∨ p = .call m args.length 1 ∨ p = .bind ∨
            p = .set ∨ p = .op .pop ∨ p = .jump normal := by
          cases result with
          | none =>
            have hmem : (∃ v ∈ args, Piece.value v = p) ∨ p = .call m args.length 1 ∨
              p = .op .pop ∨ p = .jump normal := by simpa using hmem
            exact hmem.imp_right fun h => h.imp_right fun h => .inr (.inr h)
          | some r =>
            have hmem : (∃ v ∈ args, Piece.value v = p) ∨ p = .call m args.length 1 ∨
              p = .bind ∨ p = .set ∨ p = .jump normal := by simpa using hmem
            exact hmem.imp_right fun h => h.imp_right fun h => h.imp_right fun h => h.imp_right .inr
        rcases hcases with ⟨v, -, rfl⟩ | rfl | rfl | rfl | rfl | rfl
        · exact hnames.elim
        · exact congrArg some hnames
        all_goals exact hnames.elim

theorem call_of_emits {pre : List Piece} {argc results : ℕ} (hsite : g.site = ⟨j, b, part⟩)
    (h : (g.emitAll r pre).Emits r (.call n argc results) it) :
    it.site = ⟨j, b, part⟩ ∧ it.patch = some (.call n) ∧ it.op = .call 0 := by
  have hcarries := carries_of_emits h (.inl trivial)
  refine ⟨?_, hcarries.2.1, hcarries.1⟩
  rw [(emits_site h).1, (emitAll_extends ..).site, hsite]

theorem call_emitted (hj : funcs[j]? = some f) (hcall : Calls f b part name)
    (hpicked : picked ctx part name = some n) : ∃ it ∈ unlinkedItems ctx funcs,
      it.site = ⟨j, b, part⟩ ∧ it.patch = some (.call n) ∧ it.op = .call 0 := by
  obtain ⟨pool, hfunc⟩ := FuncAt.exists ctx hj
  have hstart : (funcStart j (entryOffset ctx funcs j) pool f).site.func = j := by
    rw [funcStart_site]
  have hcode : ∃ it ∈ (funcEnd ctx j (entryOffset ctx funcs j) pool f).code,
      it.site = ⟨j, b, part⟩ ∧ it.patch = some (.call n) ∧ it.op = .call 0 := by
    cases hcall with
    | @call i bd inst name args ret hbd hinst hkind hgeneric =>
      cases hpicked
      obtain ⟨g', hgrows', hgrows⟩ := genBlocks_reaches_inst ctx (phiInfo f) f.blocks 0
        (funcStart j (entryOffset ctx funcs j) pool f) hbd hinst
      rw [zero_add] at hgrows
      have hsite : (instStart ctx b g' i inst).site = ⟨j, b, .inst i⟩ := by
        rw [instStart_site, hgrows'.func, hstart]
      -- the arguments come first, then the call
      have hsplit : template ctx (instStart ctx b g' i inst) inst.kind =
          (.bind :: args.map .value) ++
            .call ((qualifiedName ctx name).getD name) args.length 1 :: [.set] := by
        rw [hkind]
        show callTemplate _ _ _ _ = _
        rw [callTemplate_eq, intrinsicTemplate_none hgeneric]
        rfl
      have hit : ((instStart ctx b g' i inst).emitAll inst.result
        (.bind :: args.map .value)).Emits inst.result
          (.call ((qualifiedName ctx name).getD name) args.length 1) _ := ⟨rfl⟩
      refine ⟨_, hgrows.mem ?_, call_of_emits hsite hit⟩
      rw [genInst_eq, propagate_code, hsplit]
      exact emitAll_mem _ _ hit
    | @invoke bd callee args ret result normal unwind hbd hterm hgeneric =>
      obtain ⟨g', hgrows', hgrows⟩ := genBlocks_reaches_term ctx (phiInfo f) f.blocks 0
        (funcStart j (entryOffset ctx funcs j) pool f) hbd
      rw [zero_add] at hgrows
      have hsite : (termStart b g').site = ⟨j, b, .term⟩ := by
        show (⟨g'.site.func, b, .term⟩ : Site) = _
        rw [hgrows'.func, hstart]
      have hname : invokeName ctx name = some n := hpicked
      obtain ⟨post, hsplit⟩ : ∃ post, terminator ctx (termStart b g') (phiInfo f) b bd.term =
          args.map .value ++ .call n args.length 1 :: post := by
        rw [hterm]
        show ∃ post, invokePieces ctx name args result ++ [.jump normal] = _
        unfold invokePieces
        rw [hname]
        exact ⟨_, by simp only [append_assoc, cons_append, nil_append]; rfl⟩
      have hit : ((termStart b g').emitAll (termResult bd.term) (args.map .value)).Emits
        (termResult bd.term) (.call n args.length 1) _ := ⟨rfl⟩
      refine ⟨_, hgrows.mem ?_, call_of_emits hsite hit⟩
      rw [genTerm_eq, hsplit]
      exact emitAll_mem _ _ hit
  obtain ⟨it, hit, hsite, hpatch, hop⟩ := hcode
  -- the jumps of the function leave it as it is
  have hother : patchJump (genFunc ctx j (entryOffset ctx funcs j) pool f).blockOffset it = it :=
    patchJump_other fun b' hb' => by rw [hpatch] at hb'; cases hb'
  exact ⟨it, mem_unlinkedItems.2 ⟨j, f, pool, hfunc, it, hit, hother⟩, hsite, hpatch, hop⟩

theorem registers_of_unlinked (hit : it ∈ unlinkedItems ctx funcs)
    (hpatch : it.patch = some (.call n)) : ∃ f, funcs[it.site.func]? = some f ∧
      Registers ctx f it.site.block it.site.part n := by
  obtain ⟨j, f, pool, hfunc, it₀, hit₀, rfl⟩ := mem_unlinkedItems.1 hit
  obtain ⟨hpatch', -, hsite', -⟩ := patchJump_fields
    (genFunc ctx j (entryOffset ctx funcs j) pool f).blockOffset it₀
  rw [hpatch'] at hpatch
  obtain ⟨hfun, hregisters⟩ := funcEnd_registered.call it₀ hit₀ n hpatch
  rw [hsite', hfun]
  exact ⟨f, hfunc.func, hregisters⟩

theorem transfersTo_of_unlinked (hfits : Fits ctx funcs)
    (hi : (unlinkedItems ctx funcs)[i]? = some it) (hpatch : it.patch = some (.call n))
    (hop : it.op = .call 0) : TransfersTo ctx funcs i n := by
  obtain ⟨it', hit', hlinked⟩ := (linked_getElem? hfits).1 it hi
  have hne : funcs ≠ [] := by
    rintro rfl
    cases hi
  have hcode : (compileIrToProgram ctx funcs).code = (linked ctx funcs).1.map (·.op) ++ [.halt] := by
    unfold compileIrToProgram
    rw [if_neg hne]
  have hstrings : (compileIrToProgram ctx funcs).strings = (linked ctx funcs).2 := by
    unfold compileIrToProgram
    rw [if_neg hne]
  have hget : (compileIrToProgram ctx funcs).code[i]? = some it'.op := by
    have hlt : i < ((linked ctx funcs).1.map (·.op)).length := by
      rw [length_map]
      exact (List.getElem?_eq_some_iff.1 hit').1
    rw [hcode, getElem?_append_left hlt, getElem?_map, hit']
    rfl
  refine ⟨fun k hk => ?_, fun hnone => ?_⟩
  · rw [hget, hlinked.call n _ hpatch (offsetOf_eq_some.2 ⟨k, hk, rfl⟩), hop]
    rfl
  · obtain ⟨ix, hix, hname⟩ := hlinked.symbol n hpatch (offsetOf_eq_none.2 hnone)
    rw [hget, hstrings, hix]
    exact ⟨ix, rfl, hname⟩

/-- **A call goes to the picked function**, and to no other. -/
theorem goesTo_iff (hj : funcs[j]? = some f) (hcall : Calls f b part name) :
    GoesTo ctx funcs ⟨j, b, part⟩ n ↔ picked ctx part name = some n := by
  constructor
  · rintro ⟨i, it, hi, hsite, hpatch, -⟩
    obtain ⟨f', hf', hregisters⟩ := registers_of_unlinked (mem_of_getElem? hi) hpatch
    rw [hsite] at hf' hregisters
    cases hj.symm.trans hf'
    exact picked_of_registers hcall hregisters
  · intro hpicked
    obtain ⟨it, hit, hsite, hpatch, hop⟩ := call_emitted hj hcall hpicked
    obtain ⟨i, hi⟩ := mem_iff_getElem?.1 hit
    exact ⟨i, it, hi, hsite, hpatch, fun hfits => transfersTo_of_unlinked hfits hi hpatch hop⟩

theorem picked_of_unambiguous {home : ℕ → Option String} (h : Unambiguous funcs home)
    (horder : IsOrder funcs order) (hj : funcs[j]? = some f) (hcall : Calls f b part name) :
    picked ⟨strings, providers, order⟩ part name =
      some (calleeOf (funcs.map (·.name)) (home j) name) := by
  have hnamesake := h.namesake j f b part name hj hcall
  by_cases hname : name ∈ funcs.map (·.name)
  · have hmem := (horder.mem name).2 hname
    rw [calleeOf_mem hname]
    cases hcall with
    | call =>
      show some ((qualifiedName _ name).getD name) = some name
      rw [qualifiedName_mem hmem]
      rfl
    | invoke => exact if_pos hmem
  · have hmem : name ∉ order := fun hin => hname ((horder.mem name).1 hin)
    have hfind := find_of_noNamesake horder.mem hname hnamesake
    cases hcall with
    | call =>
      show some ((qualifiedName _ name).getD name) = _
      rw [qualifiedName_of_not_mem hmem, hfind]
    | invoke hbd hterm hgeneric =>
      show invokeName _ name = _
      rw [invokeName_of_not_mem hmem]
      have hfound := (h.invoked f (mem_of_getElem? hj) _ name
        (.invoke hbd hterm hgeneric)).resolve_left hname
      obtain ⟨n, hn, hends⟩ := hfound
      cases hcase : order.find? fun n => n.endsWith ("." ++ name) with
      | none => exact absurd hends (find?_eq_none.1 hcase n ((horder.mem n).2 hn))
      | some m =>
        rw [hcase] at hfind
        exact congrArg some hfind

theorem unambiguous_of_picked {home : ℕ → Option String}
    (h : ∀ order, IsOrder funcs order → ∀ j f b part name, funcs[j]? = some f →
      Calls f b part name → picked ⟨strings, providers, order⟩ part name =
        some (calleeOf (funcs.map (·.name)) (home j) name)) : Unambiguous funcs home := by
  constructor
  · intro j f b part name hj hcall hname n hn hends
    have horder := isOrder_first hn
    have hpicked := h _ horder j f b part name hj hcall
    have hmem : name ∉ n :: (funcs.map (·.name)).dedup.erase n :=
      fun hin => hname ((horder.mem name).1 hin)
    have hfind : (n :: (funcs.map (·.name)).dedup.erase n).find?
        (fun n => n.endsWith ("." ++ name)) = some n := find?_cons_of_pos hends
    cases hcall with
    | call =>
      change some ((qualifiedName _ name).getD name) = _ at hpicked
      rw [qualifiedName_of_not_mem hmem, hfind] at hpicked
      exact some.inj hpicked
    | invoke =>
      change invokeName _ name = _ at hpicked
      rw [invokeName_of_not_mem hmem, hfind] at hpicked
      exact some.inj hpicked
  · intro f hf b name hcall
    by_cases hname : name ∈ funcs.map (·.name)
    · exact .inl hname
    refine .inr ?_
    obtain ⟨j, hj⟩ := mem_iff_getElem?.1 hf
    have horder := isOrder_dedup funcs
    have hpicked := h _ horder j f b .term name hj hcall
    have hmem : name ∉ (funcs.map (·.name)).dedup := fun hin => hname ((horder.mem name).1 hin)
    change invokeName _ name = _ at hpicked
    rw [invokeName_of_not_mem hmem] at hpicked
    have hends := find?_some hpicked
    exact ⟨_, (horder.mem _).1 (mem_of_find?_eq_some hpicked), hends⟩

theorem resolves_iff_unambiguous (home : ℕ → Option String) :
    Resolves strings providers funcs home ↔ Unambiguous funcs home := by
  constructor
  · intro h
    have hpicked : ∀ order, IsOrder funcs order → ∀ j f b part name, funcs[j]? = some f →
        Calls f b part name → picked ⟨strings, providers, order⟩ part name =
          some (calleeOf (funcs.map (·.name)) (home j) name) := by
      intro order horder j f b part name hj hcall
      exact (goesTo_iff hj hcall).1 (h order horder j f b part name hj hcall)
    exact unambiguous_of_picked hpicked
  · intro h order horder j f b part name hj hcall
    exact (goesTo_iff hj hcall).2 (picked_of_unambiguous h horder hj hcall)

/-- Both contexts have the same strings and lead to the same pieces. -/
structure Agree (ctx ctx' : Ctx) (f : Func) : Prop where
  strings : ctx.strings = ctx'.strings
  inst : ∀ bd ∈ f.blocks, ∀ inst ∈ bd.insts, ∀ g,
    template ctx g inst.kind = template ctx' g inst.kind
  term : ∀ bd ∈ f.blocks, ∀ g phis b,
    terminator ctx g phis b bd.term = terminator ctx' g phis b bd.term

variable {ctx' : Ctx} {order' : List String}

theorem learn_congr (h : ctx.strings = ctx'.strings) (g : Gen) (inst : Inst) :
    learn ctx g inst = learn ctx' g inst := by
  unfold learn
  rw [h]

theorem genInst_congr (hstrings : ctx.strings = ctx'.strings)
    (h : ∀ g, template ctx g inst.kind = template ctx' g inst.kind) (g : Gen) :
    genInst ctx b g i inst = genInst ctx' b g i inst := by
  have hstart : instStart ctx b g i inst = instStart ctx' b g i inst := learn_congr hstrings _ inst
  rw [genInst_eq, genInst_eq, hstart, h]

theorem genInstsFrom_congr (hstrings : ctx.strings = ctx'.strings) (insts : List Inst) (i : ℕ)
    (g : Gen) (h : ∀ inst ∈ insts, ∀ g, template ctx g inst.kind = template ctx' g inst.kind) :
    genInstsFrom ctx b i g insts = genInstsFrom ctx' b i g insts := by
  induction insts generalizing i g with
  | nil => rfl
  | cons inst insts ih =>
    show genInstsFrom ctx b (i + 1) (genInst ctx b g i inst) insts =
      genInstsFrom ctx' b (i + 1) (genInst ctx' b g i inst) insts
    rw [genInst_congr hstrings (h inst mem_cons_self),
      ih _ _ fun inst' hinst' => h inst' (mem_cons_of_mem _ hinst')]

theorem genBlocks_congr (hagree : Agree ctx ctx' f) (bds : List BlockData)
    (hbds : ∀ bd ∈ bds, bd ∈ f.blocks) (b : ℕ) (g : Gen) :
    genBlocks ctx phis b g bds = genBlocks ctx' phis b g bds := by
  induction bds generalizing b g with
  | nil => rfl
  | cons bd bds ih =>
    have hbd := hbds bd mem_cons_self
    have hblock : genBlock ctx phis b g bd = genBlock ctx' phis b g bd := by
      unfold genBlock
      rw [genInsts_eq, genInsts_eq,
        genInstsFrom_congr hagree.strings bd.insts 0 g (hagree.inst bd hbd), genTerm_eq, genTerm_eq,
        hagree.term bd hbd]
    have hrest := ih (fun bd' hbd' => hbds bd' (mem_cons_of_mem _ hbd')) (b + 1)
    unfold genBlocks
    rw [hblock, hrest]

theorem genFunc_congr (hagree : Agree ctx ctx' f) (k offset : ℕ) (outStrings : List String) :
    genFunc ctx k offset outStrings f = genFunc ctx' k offset outStrings f := by
  have hblocks (g : Gen) : genBlocks ctx (phiInfo f) 0 g f.blocks =
      genBlocks ctx' (phiInfo f) 0 g f.blocks :=
    genBlocks_congr hagree f.blocks (fun _ hbd => hbd) 0 g
  unfold genFunc
  simp only [hblocks]

theorem genFuncs_congr (fs : List Func) (h : ∀ f ∈ fs, Agree ctx ctx' f) (k offset : ℕ)
    (outStrings : List String) :
    genFuncs ctx k offset outStrings fs = genFuncs ctx' k offset outStrings fs := by
  induction fs generalizing k offset outStrings with
  | nil => rfl
  | cons f fs ih =>
    unfold genFuncs
    rw [genFunc_congr (h f mem_cons_self)]
    simp only [ih fun f' hf' => h f' (mem_cons_of_mem _ hf')]

theorem compile_congr (h : ∀ f ∈ funcs, Agree ctx ctx' f) :
    compileIrToProgram ctx funcs = compileIrToProgram ctx' funcs := by
  have hunlinked : unlinked ctx funcs = unlinked ctx' funcs := genFuncs_congr funcs h 0 0 []
  unfold compileIrToProgram linked
  rw [hunlinked]

/-- An `Invoke` of the name of an intrinsic, which no function has, has at most one namesake. -/
def IntrinsicsSettled (funcs : List Func) : Prop :=
  ∀ f ∈ funcs, ∀ bd ∈ f.blocks, ∀ callee args ret result normal unwind,
    bd.term = .invoke callee args ret result normal unwind → IsIntrinsic callee args →
    callee ∉ funcs.map (·.name) → ∀ n ∈ funcs.map (·.name), ∀ m ∈ funcs.map (·.name),
      n.endsWith ("." ++ callee) → m.endsWith ("." ++ callee) → n = m

theorem find_order {q : String → Bool} (hmem : ∀ n, n ∈ order ↔ n ∈ order')
    (huniq : ∀ n ∈ order, ∀ m ∈ order, q n = true → q m = true → n = m) :
    order.find? q = order'.find? q := by
  cases hfind : order.find? q with
  | none =>
    refine (find?_eq_none.2 fun n hn => ?_).symm
    exact find?_eq_none.1 hfind n ((hmem n).2 hn)
  | some n =>
    have hn := mem_of_find?_eq_some hfind
    have hq := find?_some hfind
    cases hfind' : order'.find? q with
    | none => exact absurd hq (find?_eq_none.1 hfind' n ((hmem n).1 hn))
    | some m =>
      have hm := (hmem m).2 (mem_of_find?_eq_some hfind')
      rw [huniq n hn m hm hq (find?_some hfind')]

theorem agree_of_unambiguous {home : ℕ → Option String}
    (h : Unambiguous funcs home) (hsettled : IntrinsicsSettled funcs)
    (horder : IsOrder funcs order) (horder' : IsOrder funcs order') (hf : f ∈ funcs) :
    Agree ⟨strings, providers, order⟩ ⟨strings, providers, order'⟩ f := by
  obtain ⟨j, hj⟩ := mem_iff_getElem?.1 hf
  have hpicked {b : Block} {part : Part} {name : String} (hcall : Calls f b part name) :
      picked ⟨strings, providers, order⟩ part name =
        picked ⟨strings, providers, order'⟩ part name :=
    (picked_of_unambiguous h horder hj hcall).trans (picked_of_unambiguous h horder' hj hcall).symm
  refine ⟨rfl, fun bd hbd inst hinst g => ?_, fun bd hbd g phis b => ?_⟩
  · obtain ⟨c, hc⟩ := mem_iff_getElem?.1 hbd
    obtain ⟨i, hi⟩ := mem_iff_getElem?.1 hinst
    cases hkind : inst.kind with
    | call name args ret =>
      show callTemplate _ g name args = callTemplate _ g name args
      rw [callTemplate_eq, callTemplate_eq]
      by_cases hintrinsic : IsIntrinsic name args
      · obtain ⟨ps, hps⟩ := intrinsicTemplate_some hintrinsic g
        rw [hps]
        rfl
      · have hsame := some.inj (hpicked (.call hc hi hkind hintrinsic))
        rw [hsame]
    | rcDec handle tyName => cases tyName <;> rfl
    | _ => rfl
  · obtain ⟨c, hc⟩ := mem_iff_getElem?.1 hbd
    cases hterm : bd.term with
    | invoke callee args ret result normal unwind =>
      have hsame : invokeName ⟨strings, providers, order⟩ callee =
          invokeName ⟨strings, providers, order'⟩ callee := by
        by_cases hintrinsic : IsIntrinsic callee args
        · have hmem : ∀ n, n ∈ order ↔ n ∈ order' :=
            fun n => (horder.mem n).trans (horder'.mem n).symm
          -- an intrinsic that is invoked is looked up among the functions all the same
          by_cases hname : callee ∈ funcs.map (·.name)
          · exact (if_pos ((horder.mem _).2 hname)).trans (if_pos ((horder'.mem _).2 hname)).symm
          · rw [invokeName_of_not_mem fun hin => hname ((horder.mem _).1 hin),
              invokeName_of_not_mem fun hin => hname ((horder'.mem _).1 hin)]
            refine find_order hmem fun n hn m hm => ?_
            exact hsettled f hf bd hbd callee args ret result normal unwind hterm hintrinsic hname
              n ((horder.mem n).1 hn) m ((horder.mem m).1 hm)
        · exact hpicked (.invoke hc hterm hintrinsic)
      show invokePieces _ callee args result ++ [.jump normal] =
        invokePieces _ callee args result ++ [.jump normal]
      unfold invokePieces
      rw [hsame]
    | ret v => cases v <;> rfl
    | throw exc => cases exc <;> rfl
    | _ => rfl

/-- Two modules have a function `step`, and `A.run` calls its own one. -/
def twoSteps : List Func :=
  [⟨"B.step", [], .void, [⟨"entry", [], .ret none⟩], none⟩,
    ⟨"A.step", [], .void, [⟨"entry", [], .ret none⟩], none⟩,
    ⟨"A.run", [], .void, [⟨"entry", [⟨0, .call "step" [] .i64⟩], .ret none⟩], none⟩]

end Arth.Codegen
