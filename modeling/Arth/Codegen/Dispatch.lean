import Arth.Codegen.Async
import Arth.Codegen.Link
import Arth.Lib.Fnv

/-!
# Async dispatch

* `fnIdOf` — the id of an async function depends on its unqualified name only.
* `IsWrapperCode` — the code at the entry of a wrapper, also after linking.
* `dispatch_mem`, `dispatch_exists` — the entries of the linked dispatch table.
* `dispatches_iff` — when every wrapper reaches its own body.
-/

namespace Arth.Codegen

open Ir List Option

/-! ## Names -/

variable {s module : String}

theorem endsWith_iff {t : String} : s.endsWith t ↔ t.toList <:+ s.toList := by
  rw [← String.endsWith_toSlice, String.Slice.endsWith_string_iff, String.copy_toSlice]

theorem Ident.plain (i : Ident) : '.' ∉ i.text.toList ∧ '$' ∉ i.text.toList := by
  constructor
  · intro h
    exact absurd (i.continues _ h) (by decide)
  · intro h
    exact absurd (i.continues _ h) (by decide)

theorem not_endsWith (h : '$' ∉ s.toList) : s.endsWith asyncBodySuffix = false := by
  rw [Bool.eq_false_iff]
  intro hs
  exact h ((endsWith_iff.1 hs).subset (by decide))

variable {name : String}

theorem dollar_qualified {lib : Bool} (hm : '$' ∉ module.toList)
    (hn : '$' ∉ name.toList) : '$' ∉ (qualifiedFuncName lib module name).toList := by
  unfold qualifiedFuncName
  split
  · exact hn
  · simp [hm, hn]

theorem dollar_lambda (n : Nat) : '$' ∉ ("__lambda_" ++ toString n).toList := by
  rw [String.toList_append, mem_append, not_or]
  refine ⟨by decide, fun h => ?_⟩
  rw [Nat.toString_eq_repr, Nat.repr_eq_ofList_toDigits, String.toList_ofList] at h
  exact absurd (Nat.isDigit_of_mem_toDigits (by decide) (by decide) h) (by decide)

/-- The function id of the async function of the given name. -/
def fnIdOf (name : String) : Int64 := computeStringHash (name ++ asyncBodySuffix)

theorem dot_bodyName (f : SourceFn) : '.' ∉ f.bodyName.toList := by
  unfold SourceFn.bodyName
  rw [String.toList_append, mem_append, not_or]
  exact ⟨f.name.plain.1, by decide⟩

theorem fnId_eq (f : SourceFn) : f.fnId = fnIdOf f.name.text := by
  unfold SourceFn.fnId unqualifiedName
  rw [if_neg (dot_bodyName f)]
  rfl

theorem unqualifiedName_qualified (hm : '.' ∉ module.toList) :
    unqualifiedName (module ++ "." ++ name) = name := by
  have hlist : (module ++ "." ++ name).toList = module.toList ++ '.' :: name.toList := by
    simp
  have hdrop : (module ++ "." ++ name).toList.dropWhile (· ≠ '.') = '.' :: name.toList := by
    rw [hlist, dropWhile_append_of_pos]
    · simp
    · intro c hc
      have : c ≠ '.' := fun h => hm (h ▸ hc)
      simpa using this
  have hmem : '.' ∈ (module ++ "." ++ name).toList := by rw [hlist]; simp
  unfold unqualifiedName
  rw [if_pos hmem, hdrop, tail_cons, String.ofList_toList]

/-- **The suffix adds no collision**: two ids are equal when the hashes of the names are. -/
theorem fnIdOf_eq_iff {a b : String} :
    fnIdOf a = fnIdOf b ↔ computeStringHash a = computeStringHash b := by
  have hash : ∀ s, computeStringHash s = (Fnv.fnv1a s.toUTF8.toList).toInt64 := fun _ => rfl
  have hinj : ∀ x y : UInt64, x.toInt64 = y.toInt64 ↔ x = y := by
    intro x y
    constructor
    · intro h
      have := congrArg Int64.toUInt64 h
      simpa using this
    · exact congrArg _
  have hbytes : ∀ s t : String, (s ++ t).toUTF8.toList = s.toUTF8.toList ++ t.toUTF8.toList := by
    intro s t
    have : (s ++ t).toUTF8 = s.toUTF8 ++ t.toUTF8 := String.toByteArray_append
    rw [this, Fnv.toList_append]
  unfold fnIdOf
  rw [hash, hash, hash, hash, hinj, hinj, hbytes, hbytes, Fnv.fnv1a_append_inj]

/-! ## The code of a wrapper -/

/-- Straight-line code that stores the arguments and the two constants, then spawns. -/
def IsWrapperCode (id : Int64) (ops : List Op) : Prop :=
  ∃ (sets : List UInt32) (a b : UInt32) (n : Int64) (rest : List Op),
    ops = sets.map Op.localSet ++ .pushI64 id :: .localSet a :: .pushI64 n :: .localSet b ::
      .pushI64 id :: .pushI64 n :: .taskSpawn :: rest

variable {id : Int64} {ops : List Op}

theorem IsWrapperCode.append (h : IsWrapperCode id ops) (more : List Op) :
    IsWrapperCode id (ops ++ more) := by
  obtain ⟨sets, a, b, n, rest, rfl⟩ := h
  exact ⟨sets, a, b, n, rest ++ more, by simp⟩

theorem IsWrapperCode.remap (h : IsWrapperCode id ops) (stringBase codeBase : UInt32) :
    IsWrapperCode id (ops.map (remapOp stringBase codeBase)) := by
  obtain ⟨sets, a, b, n, rest, rfl⟩ := h
  refine ⟨sets, a, b, n, rest.map (remapOp stringBase codeBase), ?_⟩
  simp [remapOp, Function.comp_def]

theorem IsWrapperCode.spawnId (h : IsWrapperCode id ops) : spawnId ops = some id := by
  obtain ⟨sets, a, b, n, rest, rfl⟩ := h
  induction sets with
  | nil => rfl
  | cons s sets ih => exact ih

/-- Emitted instructions that no patch touches. -/
structure Plain (its : List Item) (ops : List Op) : Prop where
  ops : its.map (·.op) = ops
  patch : ∀ it ∈ its, it.patch = none

variable {its : List Item}

theorem Plain.append {its' : List Item} {ops ops' : List Op} (h : Plain its ops)
    (h' : Plain its' ops') : Plain (its ++ its') (ops ++ ops') := by
  constructor
  · rw [map_append, h.ops, h'.ops]
  · intro it hit
    rcases mem_append.1 hit with hit | hit
    · exact h.patch it hit
    · exact h'.patch it hit

variable {ctx : Ctx} {g : Gen} {b : Block} {i r : Nat} {n : Int64}

theorem pushOp_plain (g : Gen) (o : Op) (mark : Mark) :
    ∃ its, (g.pushOp o mark).code = g.code ++ its ∧ Plain its [o] :=
  ⟨_, rfl, rfl, by simp⟩

theorem emitAll_ops (v : Ir.Value) (os : List Op) (g : Gen) :
    ∃ its, (g.emitAll v (os.map .op)).code = g.code ++ its ∧ Plain its os := by
  induction os generalizing g with
  | nil => exact ⟨[], (append_nil _).symm, rfl, by simp⟩
  | cons o os ih =>
    obtain ⟨its, hits, hplain⟩ := pushOp_plain g o .none
    obtain ⟨its', hits', hplain'⟩ := ih (g.pushOp o .none)
    refine ⟨its ++ its', ?_, hplain.append hplain'⟩
    rw [← append_assoc, ← hits, ← hits']
    rfl

theorem genInst_constI64 (ctx : Ctx) (g : Gen) (b : Block) (i r : Nat) (n : Int64) :
    ∃ x its, (genInst ctx b g i ⟨r, .constI64 n⟩).code = g.code ++ its ∧
      Plain its [.pushI64 n, .localSet x] ∧
      (genInst ctx b g i ⟨r, .constI64 n⟩).constInt = g.constInt.insert r n := by
  have hconst : ∀ (g : Gen) (v : Ir.Value), (g.ensureLocalFor v).constInt = g.constInt := by
    intro g v
    unfold Gen.ensureLocalFor
    split <;> rfl
  let g' : Gen := learn ctx { g with site := ⟨g.site.func, b, .inst i⟩, height := 0 }
    ⟨r, .constI64 n⟩
  have hbind : ((g'.emit r .bind).emit r (.op (.pushI64 n))).emit r .set =
      genInst ctx b g i ⟨r, .constI64 n⟩ := rfl
  obtain ⟨its, hits, hplain⟩ := pushOp_plain (g'.emit r .bind) (.pushI64 n) .none
  obtain ⟨its', hits', hplain'⟩ := pushOp_plain ((g'.emit r .bind).emit r (.op (.pushI64 n)))
    (.localSet (((g'.emit r .bind).emit r (.op (.pushI64 n))).local32 r)) (.sets r)
  refine ⟨_, its ++ its', ?_, hplain.append hplain', ?_⟩
  · rw [← hbind, ← append_assoc]
    have hcode : (g'.emit r .bind).code = g.code := Gen.ensureLocalFor_code (g := g') r
    rw [← hcode, ← hits]
    exact hits'
  · exact hconst _ _

theorem spawn_template {args : List Ir.Value} :
    callTemplate ctx g "__arth_task_spawn_fn" (r :: i :: args) =
      .bind :: .op (.pushI64 ((g.constInt r).getD 0)) ::
        .op (.pushI64 ((g.constInt i).getD 0)) :: .op .taskSpawn :: .set ::
        taskArgPieces (r :: i :: args) ((g.constInt i).getD 0).toUInt64.toNat := by
  have hplain : plainIntrinsics.find? (fun e => e.1 == "__arth_task_spawn_fn" &&
      e.2.1 == (r :: i :: args).length) = none := by
    rw [find?_eq_none]
    have : ∀ e ∈ plainIntrinsics, (e.1 == "__arth_task_spawn_fn") = false := by decide +kernel
    intro e he
    rw [this e he]
    simp
  have hother : otherIntrinsics.find? (fun e => e.1 == "__arth_task_spawn_fn" &&
      e.2.1 == (r :: i :: args).length) = none := by
    rw [find?_eq_none]
    have : ∀ e ∈ otherIntrinsics, (e.1 == "__arth_task_spawn_fn") = false := by decide +kernel
    intro e he
    rw [this e he]
    simp
  have hspecial : specialIntrinsic g "__arth_task_spawn_fn" (r :: i :: args) =
      some (.op (.pushI64 ((g.constInt r).getD 0)) ::
        .op (.pushI64 ((g.constInt i).getD 0)) :: .op .taskSpawn :: .set ::
        taskArgPieces (r :: i :: args) ((g.constInt i).getD 0).toUInt64.toNat) := by
    simp [specialIntrinsic, intArg]
  rw [callTemplate, hplain, hother, hspecial]

theorem genInst_spawn (ctx : Ctx) (args : List Ir.Value) (v : Ir.Value) {n' : Int64}
    (hr : g.constInt r = some n) (hi : g.constInt i = some n') (j : Nat) :
    ∃ its, Plain its [.pushI64 n, .pushI64 n', .taskSpawn] ∧ g.code ++ its <+: (genInst ctx b g j
        ⟨v, .call "__arth_task_spawn_fn" (r :: i :: args) .i64⟩).code := by
  let g' : Gen := { g with site := ⟨g.site.func, b, .inst j⟩, height := 0 }
  have htemplate : template ctx g' (.call "__arth_task_spawn_fn" (r :: i :: args) .i64) =
      ([.bind, .op (.pushI64 n), .op (.pushI64 n'), .op .taskSpawn] : List Piece) ++
        Piece.set :: taskArgPieces (r :: i :: args) n'.toUInt64.toNat := by
    have hr' : g'.constInt r = some n := hr
    have hi' : g'.constInt i = some n' := hi
    simp only [template, spawn_template, hr', hi', getD_some]
    rfl
  have hcode : (genInst ctx b g j ⟨v, .call "__arth_task_spawn_fn" (r :: i :: args) .i64⟩).code =
      (g'.emitAll v (template ctx g' (.call "__arth_task_spawn_fn" (r :: i :: args) .i64))).code :=
    rfl
  rw [hcode, htemplate, Gen.emitAll_append]
  obtain ⟨its, hits, hplain⟩ := emitAll_ops v [.pushI64 n, .pushI64 n', .taskSpawn]
    (g'.ensureLocalFor v)
  obtain ⟨more, hmore⟩ := (Gen.emitAll_extends v
    (.set :: taskArgPieces (r :: i :: args) n'.toUInt64.toNat)
    (g'.emitAll v [.bind, .op (.pushI64 n), .op (.pushI64 n'), .op .taskSpawn])).code
  refine ⟨its, hplain, more, ?_⟩
  rw [hmore]
  refine congrArg (· ++ more) ?_
  rw [Gen.ensureLocalFor_code] at hits
  exact hits.symm

/-- The blocks of a wrapper with the given id, number of arguments and call arguments. -/
def wrapperBlocks (id : Int64) (argc : Nat) : List BlockData :=
  [⟨"entry", [⟨argc, .constI64 id⟩, ⟨argc + 1, .constI64 (Int64.ofNat argc)⟩,
      ⟨argc + 2, .call "__arth_task_spawn_fn" (argc :: (argc + 1) :: List.range argc) .i64⟩],
    .ret (some (argc + 2))⟩]

/-- A function that is a wrapper, under any name. -/
structure IsWrapper (id : Int64) (f : Func) : Prop where
  blocks : f.blocks = wrapperBlocks id f.params.length

theorem genInsts_wrapper (ctx : Ctx) (g : Gen) (id : Int64) (argc : Nat) :
    ∃ a b its, Plain its [.pushI64 id, .localSet a, .pushI64 (Int64.ofNat argc), .localSet b,
      .pushI64 id, .pushI64 (Int64.ofNat argc), .taskSpawn] ∧
      g.code ++ its <+: (genInstsFrom ctx 0 0 g
        [⟨argc, .constI64 id⟩, ⟨argc + 1, .constI64 (Int64.ofNat argc)⟩,
          ⟨argc + 2, .call "__arth_task_spawn_fn" (argc :: (argc + 1) :: range argc)
            .i64⟩]).code := by
  obtain ⟨a, its₁, hits₁, hplain₁, hconst₁⟩ := genInst_constI64 ctx g 0 0 argc id
  simp only [genInstsFrom]
  generalize genInst ctx 0 g 0 ⟨argc, .constI64 id⟩ = g₁ at *
  obtain ⟨b, its₂, hits₂, hplain₂, hconst₂⟩ :=
    genInst_constI64 ctx g₁ 0 1 (argc + 1) (Int64.ofNat argc)
  generalize genInst ctx 0 g₁ (0 + 1) ⟨argc + 1, .constI64 (Int64.ofNat argc)⟩ = g₂ at *
  have hid : g₂.constInt argc = some id := by
    rw [hconst₂, hconst₁]
    simp [PMap.insert]
  have hn : g₂.constInt (argc + 1) = some (Int64.ofNat argc) := by
    rw [hconst₂]
    simp [PMap.insert]
  obtain ⟨its₃, hplain₃, more, hmore⟩ :=
    genInst_spawn (b := 0) ctx (range argc) (argc + 2) hid hn 2
  refine ⟨a, b, its₁ ++ its₂ ++ its₃, (hplain₁.append hplain₂).append hplain₃, more, ?_⟩
  rw [← hmore, hits₂, hits₁]
  simp only [append_assoc]

theorem genBlocks_single (ctx : Ctx) (phis : PhiInfo) (b : Block) (g : Gen) (bd : BlockData) :
    (genBlocks ctx phis b g [bd]).1 = genTerm ctx phis b (genInsts ctx b g bd.insts) bd.term := rfl

theorem wrapper_items (ctx : Ctx) (k offset : Nat) (pool : List String) {f : Func}
    (hf : IsWrapper id f) : ∃ pre ops, IsWrapperCode id ops ∧ Plain pre ops ∧
      pre <+: (genFunc ctx k offset pool f).items := by
  obtain ⟨a, b, its, hplain, hcode⟩ :=
    genInsts_wrapper ctx (funcStart k offset pool f) id f.params.length
  have hend : Grows (genInstsFrom ctx 0 0 (funcStart k offset pool f)
        [⟨f.params.length, .constI64 id⟩,
          ⟨f.params.length + 1, .constI64 (Int64.ofNat f.params.length)⟩,
          ⟨f.params.length + 2, .call "__arth_task_spawn_fn"
            (f.params.length :: (f.params.length + 1) :: range f.params.length) .i64⟩])
      (funcEnd ctx k offset pool f) := by
    rw [← genInsts_eq, funcEnd, hf.blocks, wrapperBlocks, genBlocks_single]
    exact genTerm_grows ..
  obtain ⟨tail, htail⟩ := hend.code
  have hstart : Plain (funcStart k offset pool f).code ((range f.params.length).map fun i =>
        .localSet (UInt32.ofNat (f.params.length - 1 - i))) := by
    rw [funcStart_code]
    constructor
    · simp [genPrologue]
    · simp [genPrologue]
  refine ⟨_, _, ?_, hstart.append hplain, ?_⟩
  · refine ⟨(range f.params.length).map fun i => UInt32.ofNat (f.params.length - 1 - i), a, b,
      Int64.ofNat f.params.length, [], ?_⟩
    rw [List.map_map]
    rfl
  · have hjump : ∀ its : List Item, (∀ it ∈ its, it.patch = none) →
        its.map (patchJump (genFunc ctx k offset pool f).blockOffset) = its := by
      intro its hits
      refine (map_congr_left fun it hit => ?_).trans (map_id its)
      rw [patchJump, hits it hit]
      rfl
    obtain ⟨more, hmore⟩ := hcode
    rw [genFunc_items, htail, ← hmore, map_append, map_append,
      hjump _ (hstart.append hplain).patch, append_assoc]
    exact prefix_append _ _

/-! ## The linked code of one program -/

variable {funcs : List Func} {offsets : String → Option Nat} {k : Nat} {f : Func}

theorem patchCalls_append (offsets : String → Option Nat) (pool : List String)
    (its its' : List Item) : ∃ pool', (patchCalls offsets pool (its ++ its')).1 =
      (patchCalls offsets pool its).1 ++ (patchCalls offsets pool' its').1 := by
  induction its generalizing pool with
  | nil => exact ⟨pool, rfl⟩
  | cons it its ih =>
    obtain ⟨pool', h⟩ := ih (patchCall offsets pool it).2
    exact ⟨pool', by simp [patchCalls, h]⟩

theorem patchCalls_plain (pool : List String)
    (h : ∀ it ∈ its, it.patch = none) : (patchCalls offsets pool its).1 = its := by
  induction its generalizing pool with
  | nil => rfl
  | cons it its ih =>
    have hit : patchCall offsets pool it = (it, pool) := by
      rw [patchCall, h it (by simp)]
    simp only [patchCalls, hit]
    rw [ih pool fun it' h' => h it' (by simp [h'])]

theorem map_patchClosure_plain (h : ∀ it ∈ its, it.patch = none) :
    its.map (patchClosure offsets) = its := by
  refine (map_congr_left fun it hit => ?_).trans (map_id its)
  rw [patchClosure, h it hit]
  rfl

theorem program_code (ctx : Ctx) (hk : funcs[k]? = some f) :
    (compileIrToProgram ctx funcs).code = (linked ctx funcs).1.map (·.op) ++ [.halt] := by
  have hne : funcs ≠ [] := by
    rintro rfl
    simp at hk
  unfold compileIrToProgram
  rw [if_neg hne]

theorem program_drop {pool : List String} {pre : List Item} {ops : List Op}
    (h : FuncAt ctx funcs k f pool) (hplain : Plain pre ops)
    (hpre : pre <+: (genFunc ctx k (entryOffset ctx funcs k) pool f).items) :
    ops <+: (compileIrToProgram ctx funcs).code.drop (entryOffset ctx funcs k) := by
  obtain ⟨rest, hrest⟩ := hpre
  have hsplit : (unlinked ctx funcs).flatMap (·.items) =
      ((unlinked ctx funcs).take k).flatMap (·.items) ++
        (pre ++ (rest ++ ((unlinked ctx funcs).drop (k + 1)).flatMap (·.items))) := by
    have hcode := h.code
    obtain ⟨hlt, hget⟩ := List.getElem?_eq_some_iff.1 hcode
    conv_lhs => rw [← take_append_drop k (unlinked ctx funcs)]
    rw [flatMap_append, drop_eq_getElem_cons hlt, flatMap_cons, hget, ← hrest, append_assoc]
  have hlinked : ∃ pool, (linked ctx funcs).1 =
      (patchCalls (offsetOf ctx funcs) pool ((unlinked ctx funcs).flatMap (·.items))).1.map
        (patchClosure (offsetOf ctx funcs)) := ⟨_, rfl⟩
  obtain ⟨pool₀, hlinked⟩ := hlinked
  obtain ⟨pool₁, h₁⟩ := patchCalls_append (offsetOf ctx funcs) pool₀
    (((unlinked ctx funcs).take k).flatMap (·.items))
    (pre ++ (rest ++ ((unlinked ctx funcs).drop (k + 1)).flatMap (·.items)))
  obtain ⟨pool₂, h₂⟩ := patchCalls_append (offsetOf ctx funcs) pool₁ pre
    (rest ++ ((unlinked ctx funcs).drop (k + 1)).flatMap (·.items))
  rw [patchCalls_plain pool₁ hplain.patch] at h₂
  have hlen : ((patchCalls (offsetOf ctx funcs) pool₀
      (((unlinked ctx funcs).take k).flatMap (·.items))).1.map
        (patchClosure (offsetOf ctx funcs))).length = entryOffset ctx funcs k := by
    rw [length_map, patchCalls_length, entryOffset]
  rw [program_code ctx h.func, hlinked, hsplit, h₁, h₂]
  simp only [map_append, map_patchClosure_plain hplain.patch, hplain.ops, append_assoc]
  rw [drop_left' (by rw [length_map, hlen])]
  exact prefix_append _ _

theorem program_wrapper (ctx : Ctx) (hk : funcs[k]? = some f) (hf : IsWrapper id f) :
    IsWrapperCode id ((compileIrToProgram ctx funcs).code.drop (entryOffset ctx funcs k)) := by
  obtain ⟨pool, h⟩ := FuncAt.exists ctx hk
  obtain ⟨pre, ops, hops, hplain, hpre⟩ :=
    wrapper_items ctx k (entryOffset ctx funcs k) pool hf
  obtain ⟨more, hmore⟩ := program_drop h hplain hpre
  rw [← hmore]
  exact hops.append more

variable {e : Int64 × UInt32} {es : List (Int64 × UInt32)}

theorem mem_lastOfKey (h : e ∈ lastOfKey es) : e ∈ es := by
  induction es with
  | nil => exact h
  | cons e' es ih =>
    unfold lastOfKey at h
    split at h
    · exact mem_cons_of_mem _ (ih h)
    · rcases mem_cons.1 h with rfl | h
      · exact mem_cons_self
      · exact mem_cons_of_mem _ (ih h)

theorem lastOfKey_exists (h : e ∈ es) : ∃ v, (e.1, v) ∈ lastOfKey es := by
  induction es generalizing e with
  | nil => simp at h
  | cons e' es ih =>
    unfold lastOfKey
    split_ifs with hany
    · rcases mem_cons.1 h with rfl | h
      · obtain ⟨e'', hmem, hkey⟩ := any_eq_true.1 hany
        have hkey' : e''.1 = e.1 := by simpa using hkey
        exact hkey' ▸ ih hmem
      · exact ih h
    · rcases mem_cons.1 h with rfl | h
      · exact ⟨e.2, mem_cons_self⟩
      · obtain ⟨v, hv⟩ := ih h
        exact ⟨v, mem_cons_of_mem _ hv⟩

theorem program_asyncDispatch (ctx : Ctx) (hk : funcs[k]? = some f) :
    (compileIrToProgram ctx funcs).asyncDispatch = asyncDispatch funcs (unlinked ctx funcs) := by
  have hne : funcs ≠ [] := by
    rintro rfl
    simp at hk
  unfold compileIrToProgram
  rw [if_neg hne]

theorem asyncDispatch_mem (h : e ∈ asyncDispatch funcs (unlinked ctx funcs)) :
    ∃ j f, funcs[j]? = some f ∧ f.name.endsWith asyncBodySuffix ∧
      e = (computeStringHash (unqualifiedName f.name), UInt32.ofNat (entryOffset ctx funcs j)) := by
  obtain ⟨f, hf, he⟩ := mem_filterMap.1 (mem_lastOfKey h)
  obtain ⟨hf, hends⟩ := mem_filter.1 hf
  obtain ⟨off, hoff, rfl⟩ := map_eq_some_iff.1 he
  obtain ⟨j, ⟨⟨f', hf', hname⟩, -⟩, rfl⟩ := offsetOf_eq_some.1 hoff
  exact ⟨j, f', hf', hname ▸ hends, by rw [hname]⟩

theorem asyncDispatch_exists (ctx : Ctx) (hk : funcs[k]? = some f)
    (hends : f.name.endsWith asyncBodySuffix) :
    ∃ v, (computeStringHash (unqualifiedName f.name), v) ∈
      asyncDispatch funcs (unlinked ctx funcs) := by
  obtain ⟨off, hoff⟩ := ne_none_iff_exists'.1 (@offsetOf_ne_none ctx funcs k f hk)
  have hmem : (computeStringHash (unqualifiedName f.name), UInt32.ofNat off) ∈
      (funcs.filter fun f => f.name.endsWith "$async_body").filterMap fun f =>
        (funcOffset funcs (unlinked ctx funcs) f.name).map fun off =>
          (computeStringHash (unqualifiedName f.name), UInt32.ofNat off) := by
    refine mem_filterMap.2 ⟨f, mem_filter.2 ⟨mem_of_getElem? hk, hends⟩, ?_⟩
    exact map_eq_some_iff.2 ⟨off, hoff, rfl⟩
  exact lastOfKey_exists hmem

/-- Function `f` at the body of an async function. -/
structure IsBody (name : String) (f : Func) : Prop where
  name : ∃ module : String, '.' ∉ module.toList ∧
    f.name = module ++ "." ++ (name ++ asyncBodySuffix)

theorem IsBody.endsWith (h : IsBody name f) : f.name.endsWith asyncBodySuffix := by
  obtain ⟨module, -, hname⟩ := h.name
  rw [hname, endsWith_iff]
  simp only [String.toList_append]
  rw [← append_assoc]
  exact suffix_append _ _

theorem IsBody.hash (h : IsBody name f) :
    computeStringHash (unqualifiedName f.name) = fnIdOf name := by
  obtain ⟨module, hdot, hname⟩ := h.name
  rw [hname, unqualifiedName_qualified hdot]
  rfl

variable {lib : Bool} {module : String} {base : Nat} {rename : List (String × String)}
    {fs : List Func} {i : Nat}

theorem qualify_length (fs : List Func) : (qualify lib module base fs).length = fs.length := by
  simp [qualify]

theorem qualify_getElem? (h : (qualify lib module base fs)[i]? = some f) :
    ∃ f₀ rename, fs[i]? = some f₀ ∧ f = qualifyFunc lib module rename base f₀ := by
  unfold qualify at h
  rw [getElem?_map] at h
  obtain ⟨f₀, hf₀, rfl⟩ := map_eq_some_iff.1 h
  exact ⟨f₀, _, hf₀, rfl⟩

theorem isWrapper_qualify (s : SourceFn) :
    IsWrapper (fnIdOf s.name.text) (qualifyFunc lib module rename base s.wrapper) := by
  constructor
  rw [← fnId_eq]
  rfl

theorem isBody_qualify (s : SourceFn) (hm : '.' ∉ module.toList) :
    IsBody s.name.text (qualifyFunc lib module rename base s.inner) := by
  refine ⟨module, hm, ?_⟩
  have hne : (s.bodyName == "main") = false := by
    rw [beq_eq_false_iff_ne]
    intro h
    have hmem : '$' ∈ s.bodyName.toList := by
      unfold SourceFn.bodyName
      rw [String.toList_append]
      exact mem_append_right _ (by decide)
    rw [h] at hmem
    exact absurd hmem (by decide)
  change qualifiedFuncName lib module s.bodyName = _
  unfold qualifiedFuncName
  rw [hne, Bool.and_false]
  rfl

theorem lower_endsWith {s : SourceFn} {f₀ : Func} (h : s.lower[i]? = some f₀)
    (hm : '$' ∉ module.toList)
    (hends : (qualifiedFuncName lib module f₀.name).endsWith asyncBodySuffix) :
    s.isAsync = true ∧ i = 1 ∧ f₀ = s.inner := by
  have hplain : '$' ∉ f₀.name.toList → False := by
    intro hn
    rw [not_endsWith (dollar_qualified hm hn)] at hends
    cases hends
  have hlambda : ∀ l ∈ s.lambdas, f₀ ≠ l.func s.sourceFile := by
    rintro l - rfl
    exact hplain (dollar_lambda l.id)
  unfold SourceFn.lower at h
  split_ifs at h with hasync
  · match i with
    | 0 =>
      obtain rfl : s.wrapper = f₀ := by simpa using h
      exact (hplain s.name.plain.2).elim
    | 1 =>
      obtain rfl : s.inner = f₀ := by simpa using h
      exact ⟨hasync, rfl, rfl⟩
    | i + 2 =>
      have h' : (s.lambdas.map fun l => l.func s.sourceFile)[i]? = some f₀ := by simpa using h
      obtain ⟨l, hl, rfl⟩ := mem_map.1 (mem_of_getElem? h')
      exact absurd rfl (hlambda l hl)
  · match i with
    | 0 =>
      obtain rfl : s.plain = f₀ := by simpa using h
      exact (hplain s.name.plain.2).elim
    | i + 1 =>
      have h' : (s.lambdas.map fun l => l.func s.sourceFile)[i]? = some f₀ := by simpa using h
      obtain ⟨l, hl, rfl⟩ := mem_map.1 (mem_of_getElem? h')
      exact absurd rfl (hlambda l hl)

/-- The wrapper and the body of an async function, in a list of functions. -/
structure AsyncFn.In (fs : List Func) (a : AsyncFn) : Prop where
  wrapper : ∃ f, fs[a.wrapper]? = some f ∧ IsWrapper (fnIdOf a.name) f
  body : ∃ f, fs[a.body]? = some f ∧ IsBody a.name f

/-- The modules of the sources are identifiers. -/
def Named (sources : List (String × SourceFn)) : Prop :=
  ∀ s ∈ sources, '.' ∉ s.1.toList ∧ '$' ∉ s.1.toList

variable {a : AsyncFn}

theorem asyncAt_in (sources : List (String × SourceFn)) (base : Nat) (pre : List Func)
    (hnamed : Named sources) (ha : a ∈ Package.asyncAt pre.length sources) :
    a.In (pre ++ Package.lowerAll lib base sources) := by
  induction sources generalizing base pre with
  | nil => simp [Package.asyncAt] at ha
  | cons s sources ih =>
    obtain ⟨module, s⟩ := s
    obtain ⟨hdot, -⟩ := hnamed _ mem_cons_self
    rw [Package.lowerAll]
    rcases mem_append.1 ha with ha | ha
    · split_ifs at ha with hasync
      · rw [mem_singleton] at ha
        subst ha
        have hlower : s.lower = s.wrapper :: s.inner ::
            s.lambdas.map fun l => l.func s.sourceFile := by
          rw [SourceFn.lower, if_pos hasync]
          rfl
        obtain ⟨rename, hqualify⟩ : ∃ rename, qualify lib module base s.lower =
            s.lower.map (qualifyFunc lib module rename base) := ⟨_, rfl⟩
        rw [hqualify, hlower, map_cons, map_cons]
        constructor
        · refine ⟨qualifyFunc lib module rename base s.wrapper, ?_, isWrapper_qualify s⟩
          rw [getElem?_append_right le_rfl, Nat.sub_self]
          rfl
        · refine ⟨qualifyFunc lib module rename base s.inner, ?_, isBody_qualify s hdot⟩
          rw [getElem?_append_right (Nat.le_add_right _ 1), Nat.add_sub_cancel_left]
          rfl
      · simp at ha
    · rw [← append_assoc]
      refine ih _ (pre ++ qualify lib module base s.lower)
        (fun s' hs' => hnamed s' (mem_cons_of_mem _ hs')) ?_
      rwa [length_append, qualify_length]

variable {j : Nat}

theorem asyncAt_body (sources : List (String × SourceFn)) (base : Nat) (pre : List Func)
    (hnamed : Named sources) (hj : pre.length ≤ j)
    (hf : (pre ++ Package.lowerAll lib base sources)[j]? = some f)
    (hends : f.name.endsWith asyncBodySuffix) :
    ∃ a ∈ Package.asyncAt pre.length sources, a.body = j ∧ IsBody a.name f := by
  induction sources generalizing base pre with
  | nil =>
    rw [Package.lowerAll, append_nil, getElem?_eq_none hj] at hf
    cases hf
  | cons s sources ih =>
    obtain ⟨module, s⟩ := s
    obtain ⟨hdot, hdollar⟩ := hnamed _ mem_cons_self
    rw [Package.lowerAll, ← append_assoc] at hf
    rw [Package.asyncAt]
    by_cases hlt : j < pre.length + s.lower.length
    · rw [getElem?_append_left (by rw [length_append, qualify_length]; omega),
        getElem?_append_right hj] at hf
      obtain ⟨f₀, rename, hf₀, rfl⟩ := qualify_getElem? hf
      obtain ⟨hasync, hone, rfl⟩ := lower_endsWith hf₀ hdollar hends
      refine ⟨⟨s.name.text, pre.length, pre.length + 1⟩, ?_, ?_, isBody_qualify s hdot⟩
      · rw [if_pos hasync]
        simp
      · change pre.length + 1 = j
        omega
    · have hlen : pre.length + s.lower.length = (pre ++ qualify lib module base s.lower).length := by
        rw [length_append, qualify_length]
      obtain ⟨a, ha, hbody⟩ := ih _ (pre ++ qualify lib module base s.lower)
        (fun s' hs' => hnamed s' (mem_cons_of_mem _ hs')) (by omega) hf
      refine ⟨a, mem_append_right _ ?_, hbody⟩
      rwa [hlen]

/-! ## `main` first -/

theorem mainFirst_getElem? (fs : List Func) (k : Nat) :
    (mainFirst fs)[mainFirstIx fs k]? = fs[k]? := by
  unfold mainFirst mainFirstIx
  cases h : fs.findIdx? (·.name == "main") with
  | none => rfl
  | some i =>
    obtain ⟨hlt, -⟩ := findIdx?_eq_some_iff_getElem.1 h
    simp only [getElem?_eq_getElem hlt, toList_some, singleton_append]
    by_cases hk : k < i
    · rw [if_pos hk, getElem?_cons_succ, getElem?_eraseIdx_of_lt hk]
    · by_cases heq : k = i
      · rw [if_neg hk, if_pos heq, heq, getElem?_cons_zero, getElem?_eq_getElem hlt]
      · obtain ⟨k, rfl⟩ : ∃ k', k = k' + 1 := ⟨k - 1, by omega⟩
        rw [if_neg hk, if_neg heq, getElem?_cons_succ, getElem?_eraseIdx_of_ge (by omega)]

theorem mainFirst_surj (h : (mainFirst fs)[j]? = some f) : ∃ k, mainFirstIx fs k = j := by
  unfold mainFirstIx
  cases hfind : fs.findIdx? (·.name == "main") with
  | none => exact ⟨j, rfl⟩
  | some i =>
    match j with
    | 0 => exact ⟨i, by simp⟩
    | j + 1 =>
      by_cases hj : j < i
      · exact ⟨j, by simp [hj]⟩
      · exact ⟨j + 1, by
          have h₁ : ¬ j + 1 < i := by omega
          have h₂ : j + 1 ≠ i := by omega
          simp [h₁, h₂]⟩

namespace Package

variable (p : Package)

theorem named : Named p.sources := by
  intro s hs
  obtain ⟨m, -, hs⟩ := mem_flatMap.1 hs
  obtain ⟨f, -, rfl⟩ := mem_map.1 hs
  exact m.name.plain

theorem funcs_place (k : Nat) : p.funcs[p.place k]? = p.lowered[k]? := by
  unfold funcs place
  split
  · rfl
  · exact mainFirst_getElem? _ _

theorem place_surj (h : p.funcs[j]? = some f) : ∃ k, p.place k = j := by
  unfold funcs at h
  unfold place
  split_ifs with hlib
  · exact ⟨j, rfl⟩
  · rw [if_neg hlib] at h
    exact mainFirst_surj h

theorem dispatch_mem (he : e ∈ p.program.asyncDispatch) :
    ∃ a ∈ p.asyncFns 0, e = (fnIdOf a.name, UInt32.ofNat a.body) := by
  by_cases hne : p.funcs = []
  · simp [program, compileIrToProgram, hne] at he
  obtain ⟨f₀, hf₀⟩ : ∃ f₀, p.funcs[0]? = some f₀ := by
    cases hfs : p.funcs with
    | nil => exact absurd hfs hne
    | cons f fs => exact ⟨f, rfl⟩
  rw [program, program_asyncDispatch p.ctx hf₀] at he
  obtain ⟨j, f, hj, hends, rfl⟩ := asyncDispatch_mem he
  obtain ⟨k, rfl⟩ := p.place_surj hj
  rw [funcs_place] at hj
  obtain ⟨a, ha, rfl, hbody⟩ := asyncAt_body p.sources 0 [] p.named (Nat.zero_le k) hj hends
  refine ⟨_, mem_map_of_mem ha, ?_⟩
  simp only [hbody.hash, zero_add]

variable {p}

theorem dispatch_exists {base : Nat} (ha : a ∈ p.asyncFns base) :
    ∃ v, (fnIdOf a.name, v) ∈ p.program.asyncDispatch := by
  obtain ⟨a', ha', rfl⟩ := mem_map.1 ha
  obtain ⟨f, hf, hbody⟩ := (asyncAt_in p.sources 0 [] p.named ha').body
  have hf' : p.funcs[p.place a'.body]? = some f := (p.funcs_place _).trans hf
  rw [program, program_asyncDispatch p.ctx hf', ← hbody.hash]
  exact asyncDispatch_exists p.ctx hf' hbody.endsWith

theorem wrapperCode (ha : a ∈ p.asyncFns 0) :
    IsWrapperCode (fnIdOf a.name) (p.program.code.drop a.wrapper) := by
  obtain ⟨a', ha', rfl⟩ := mem_map.1 ha
  obtain ⟨f, hf, hwrapper⟩ := (asyncAt_in p.sources 0 [] p.named ha').wrapper
  have hf' : p.funcs[p.place a'.wrapper]? = some f := (p.funcs_place _).trans hf
  simp only [zero_add]
  exact program_wrapper p.ctx hf' hwrapper

theorem asyncFns_base (base : Nat) : p.asyncFns base =
    (p.asyncFns 0).map fun a => ⟨a.name, base + a.wrapper, base + a.body⟩ := by
  simp [asyncFns, Function.comp_def]

end Package

/-! ## The linked program -/

/-- The code and the dispatch table of packages, the first of them at `base`. -/
def codeFrom : Nat → Nat → List Library → List Op
  | _, _, [] => []
  | strings, base, l :: ls =>
    l.program.code.map (remapOp (UInt32.ofNat strings) (UInt32.ofNat base)) ++
      codeFrom (strings + l.program.strings.length) (base + l.program.code.length) ls

def dispatchFrom : Nat → List Program → List (Int64 × UInt32)
  | _, [] => []
  | base, p :: ps =>
    (p.asyncDispatch.map fun e => (e.1, e.2 + UInt32.ofNat base)) ++
      dispatchFrom (base + p.code.length) ps

theorem foldl_linkLibrary (libs : List Library) (l : LinkedProgram) :
    (libs.foldl linkLibrary l).program.code = l.program.code ++
        codeFrom l.program.strings.length l.program.code.length libs ∧
      (libs.foldl linkLibrary l).program.asyncDispatch = l.program.asyncDispatch ++
        dispatchFrom l.program.code.length (libs.map (·.program)) := by
  induction libs generalizing l with
  | nil => simp [codeFrom, dispatchFrom]
  | cons lib libs ih =>
    obtain ⟨hcode, hdispatch⟩ := ih (linkLibrary l lib)
    rw [foldl_cons, hcode, hdispatch]
    simp [linkLibrary, codeFrom, dispatchFrom]

theorem linkPrograms_code (main : Program) (libs : List Library) :
    (linkPrograms main libs).program.code =
      main.code ++ codeFrom main.strings.length main.code.length libs := by
  unfold linkPrograms
  split_ifs with h
  · simp [h, codeFrom]
  · exact (foldl_linkLibrary libs ⟨main, []⟩).1

theorem linkPrograms_asyncDispatch (main : Program) (libs : List Library) :
    (linkPrograms main libs).program.asyncDispatch =
      dispatchFrom 0 (main :: libs.map (·.program)) := by
  have hzero : main.asyncDispatch.map (fun e => (e.1, e.2 + UInt32.ofNat 0)) =
      main.asyncDispatch := by
    simp
  rw [dispatchFrom, hzero, zero_add]
  unfold linkPrograms
  split_ifs with h
  · simp [h, dispatchFrom]
  · exact (foldl_linkLibrary libs ⟨main, []⟩).2

theorem codeFrom_wrapper (libs : List LibrarySource) (strings base : Nat) (pre : List Op)
    (hbase : pre.length = base)
    (ha : a ∈ Build.asyncFrom base (libs.map (·.package))) : IsWrapperCode (fnIdOf a.name)
      ((pre ++ codeFrom strings base
        (libs.map fun l => ⟨l.package.program, l.exports, l.id⟩)).drop a.wrapper) := by
  induction libs generalizing strings base pre with
  | nil => simp [Build.asyncFrom] at ha
  | cons l libs ih =>
    rw [map_cons, Build.asyncFrom] at ha
    rw [map_cons, codeFrom]
    rcases mem_append.1 ha with ha | ha
    · rw [Package.asyncFns_base] at ha
      obtain ⟨a', ha', rfl⟩ := mem_map.1 ha
      obtain ⟨sets, x, y, n, rest, hops⟩ :=
        (Package.wrapperCode ha').remap (UInt32.ofNat strings) (UInt32.ofNat base)
      have hle : a'.wrapper ≤ l.package.program.code.length := by
        by_contra hgt
        rw [drop_eq_nil_of_le (by omega), map_nil] at hops
        simp at hops
      rw [← hbase, drop_length_add_append, drop_append_of_le_length
        (by rwa [length_map]), ← map_drop, hbase]
      exact ((Package.wrapperCode ha').remap _ _).append _
    · rw [← append_assoc]
      exact ih _ _ _ (by rw [length_append, length_map, hbase]) ha

theorem dispatchFrom_mem (ps : List Package) (base : Nat)
    (he : e ∈ dispatchFrom base (ps.map (·.program))) :
    ∃ a ∈ Build.asyncFrom base ps, e = (fnIdOf a.name, UInt32.ofNat a.body) := by
  induction ps generalizing base with
  | nil => simp [dispatchFrom] at he
  | cons p ps ih =>
    rcases mem_append.1 he with he | he
    · obtain ⟨e', he', rfl⟩ := mem_map.1 he
      obtain ⟨a, ha, rfl⟩ := p.dispatch_mem he'
      refine ⟨⟨a.name, base + a.wrapper, base + a.body⟩, mem_append_left _ ?_, ?_⟩
      · rw [Package.asyncFns_base]
        exact mem_map_of_mem ha
      · rw [UInt32.ofNat_add, UInt32.add_comm]
    · obtain ⟨a, ha, heq⟩ := ih _ he
      exact ⟨a, mem_append_right _ ha, heq⟩

theorem dispatchFrom_exists (ps : List Package) (base : Nat) (ha : a ∈ Build.asyncFrom base ps) :
    ∃ v, (fnIdOf a.name, v) ∈ dispatchFrom base (ps.map (·.program)) := by
  induction ps generalizing base with
  | nil => simp [Build.asyncFrom] at ha
  | cons p ps ih =>
    rcases mem_append.1 ha with ha | ha
    · obtain ⟨v, hv⟩ := Package.dispatch_exists ha
      exact ⟨_, mem_append_left _ (mem_map_of_mem hv)⟩
    · obtain ⟨v, hv⟩ := ih _ ha
      exact ⟨v, mem_append_right _ hv⟩

namespace Build

variable {b : Build}

/-- **The id a wrapper passes** is that of its name. -/
theorem spawnId_wrapper (ha : a ∈ b.asyncFns) :
    spawnId (b.program.code.drop a.wrapper) = some (fnIdOf a.name) := by
  refine IsWrapperCode.spawnId ?_
  rw [program, linkPrograms_code]
  rcases mem_append.1 ha with ha | ha
  · have hcode := Package.wrapperCode ha
    have hle : a.wrapper ≤ b.main.program.code.length := by
      by_contra hgt
      rw [drop_eq_nil_of_le (by omega)] at hcode
      obtain ⟨sets, x, y, n, rest, hops⟩ := hcode
      simp at hops
    rw [drop_append_of_le_length hle]
    exact hcode.append _
  · rw [zero_add] at ha
    exact codeFrom_wrapper b.libraries _ _ _ rfl ha

theorem program_dispatch : b.program.asyncDispatch =
    dispatchFrom 0 ((b.main :: b.libraries.map (·.package)).map (·.program)) := by
  rw [program, linkPrograms_asyncDispatch]
  simp [Function.comp_def]

theorem spawnIds : (b.asyncFns.map fun f => spawnId (b.program.code.drop f.wrapper)) =
    b.asyncFns.map fun f => some (fnIdOf f.name) :=
  map_congr_left fun _ ha => spawnId_wrapper ha

theorem nodup_iff : (b.asyncFns.map fun f => some (fnIdOf f.name)).Nodup ↔
    (b.asyncFns.map fun f => computeStringHash f.name).Nodup := by
  unfold Nodup
  rw [pairwise_map, pairwise_map]
  constructor
  · exact List.Pairwise.imp fun h heq => h (congrArg some (fnIdOf_eq_iff.2 heq))
  · exact List.Pairwise.imp fun h heq => h (fnIdOf_eq_iff.1 (some.inj heq))

end Build

/-- **Exactly the builds without a collision dispatch right**: those in which the FNV-1a
hashes of the names of the async functions, without their modules, are pairwise distinct. -/
theorem dispatches_iff (b : Build) :
    Dispatches b ↔ (b.asyncFns.map fun f => computeStringHash f.name).Nodup := by
  rw [← Build.nodup_iff]
  constructor
  · intro h
    rw [← Build.spawnIds]
    exact h.distinct
  · intro h
    refine ⟨fun a ha => ⟨fnIdOf a.name, Build.spawnId_wrapper ha, ?_⟩, ?_⟩
    · -- the entry found under the id is that of some async function, and the names decide
      obtain ⟨v, hv⟩ := dispatchFrom_exists _ 0 ha
      rw [← Build.program_dispatch] at hv
      unfold Program.getAsyncBodyOffset
      cases hfind : b.program.asyncDispatch.find? (·.1 == fnIdOf a.name) with
      | none => simpa using List.find?_eq_none.1 hfind _ hv
      | some e =>
        have hkey := List.find?_some hfind
        have hmem := List.mem_of_find?_eq_some hfind
        rw [Build.program_dispatch] at hmem
        obtain ⟨a', ha', rfl⟩ := dispatchFrom_mem _ 0 hmem
        have heq : fnIdOf a'.name = fnIdOf a.name := by simpa using hkey
        have := List.inj_on_of_nodup_map h ha' ha (congrArg some heq)
        rw [this]
        rfl
    · rw [Build.spawnIds]
      exact h

/-- Two modules with an async function `load` each. -/
def loadTwice : Build :=
  let load : SourceFn :=
    ⟨⟨"load", ⟨'l', ['o', 'a', 'd'], rfl, rfl⟩, by simp [isIdentContinue]⟩, true, [], .i64,
      [⟨"entry", [⟨0, .constI64 1⟩], .ret (some 0)⟩], [], [], none⟩
  let a : Ident := ⟨"A", ⟨'A', [], rfl, rfl⟩, by simp [isIdentContinue]⟩
  let b : Ident := ⟨"B", ⟨'B', [], rfl, rfl⟩, by simp [isIdentContinue]⟩
  ⟨⟨false, [⟨a, [load]⟩, ⟨b, [load]⟩], [], fun names => names⟩, []⟩

theorem not_dispatches_loadTwice : ¬ Dispatches loadTwice := by
  intro h
  have hnames : loadTwice.asyncFns.map (·.name) = ["load", "load"] := rfl
  have hids : loadTwice.asyncFns.map (fun f => some (fnIdOf f.name)) =
      (loadTwice.asyncFns.map (·.name)).map fun n => some (fnIdOf n) := by
    rfl
  have hnodup := h.distinct
  rw [Build.spawnIds, hids, hnames] at hnodup
  simp at hnodup

end Arth.Codegen
