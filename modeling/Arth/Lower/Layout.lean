import Arth.Lower.StructLit

/-!
# When struct literals and field access agree

* `exec_structSets`, `exec_structFieldSets` — the fields of a literal fill the first slots in
  the order of the literal.
* `run_runtime`, `run_native` — the struct a literal leaves behind.
* `readsBack_iff` — the literals whose fields all read back.
-/

namespace Arth.Lower

open List Option

variable {ctx : LowerCtx} {decl : StructDecl} {shape : LitShape decl} {m : Mem} {lit : StructLit}
  {num : F64 → Value} {f : String} {v : Value}

variable {names : List String} {j : Nat} {values : List Value}

theorem lookup_zip (hnodup : names.Nodup)
    (hlen : values.length = names.length) (hj : names[j]? = some f) :
    (names.zip values).lookup f = values[j]? := by
  induction names generalizing values j with
  | nil => simp at hj
  | cons n names ih =>
    obtain ⟨v, values, rfl⟩ := exists_cons_of_length_eq_add_one hlen
    cases j with
    | zero =>
      obtain rfl : n = f := by simpa using hj
      simp
    | succ j =>
      have hmem : f ∈ names := mem_of_getElem? (by simpa using hj)
      have hne : (f == n) = false := by
        rw [beq_eq_false_iff_ne]
        rintro rfl
        exact (nodup_cons.1 hnodup).1 hmem
      rw [zip_cons_cons, lookup_cons, hne,
        ih (nodup_cons.1 hnodup).2 (by simpa using hlen) (by simpa using hj)]
      simp

theorem lookup_zip_none (h : f ∉ names) : (names.zip values).lookup f = none := by
  rw [lookup_eq_none_iff]
  intro p hp
  have hname := (of_mem_zip hp).1
  have hne : f ≠ p.1 := by
    rintro rfl
    exact h hname
  simpa using hne

theorem findIdx?_name (hnodup : names.Nodup)
    (hj : names[j]? = some f) : names.findIdx? (· == f) = some j := by
  obtain ⟨hlt, hget⟩ := List.getElem?_eq_some_iff.1 hj
  rw [findIdx?_eq_some_iff_getElem]
  refine ⟨hlt, by simp [hget], fun i hi => ?_⟩
  have hne : names[i] ≠ names[j] := fun h =>
    absurd ((hnodup.getElem_inj_iff).1 h) (by omega)
  simpa [← hget] using hne

/-! ## The fields in the runtime -/

variable {st : NativeStruct} {i : Nat}

theorem setField_take {name : String} (hi : i < st.fields.length)
    (hlen : st.fieldNames.length = st.fields.length) (hname : name ≠ "") :
    (st.setField i v name).fields.take (i + 1) = st.fields.take i ++ [v] ∧
    (st.setField i v name).fieldNames.take (i + 1) = st.fieldNames.take i ++ [name] ∧
    (st.setField i v name).fields.length = st.fields.length ∧
    (st.setField i v name).fieldNames.length = st.fieldNames.length := by
  have hempty : name.isEmpty = false := by simpa using hname
  simp only [NativeStruct.setField, if_pos hi, hempty, Bool.false_eq_true, if_false,
    length_set, and_self, and_true]
  constructor
  · rw [take_add_one, take_set_of_le le_rfl, getElem?_set_self hi]
    rfl
  · rw [take_add_one, take_set_of_le le_rfl, getElem?_set_self (by omega)]
    rfl

/-- The code that sets the fields of a literal. -/
def structSets (i : Nat) (fs : List (String × Expr)) : List LitInst :=
  (fs.zipIdx i).map fun (f, idx) => .structSet idx f.2 f.1

/-- The struct under construction: the first fields are set, the others are still to come. -/
structure Filled (s : LitState) (n i : Nat) (names : List String) : Prop where
  cell : ∃ st, s.mem.heap.structs.cells s.self = some st ∧ st.fields.length = n ∧
    st.fieldNames.length = n ∧ st.fields.take i = s.values ∧ st.fieldNames.take i = names

variable {n : Nat} {s : LitState} {e : Expr}

theorem exec_structSet {name : String} (h : Filled s n i names) (hi : i < n) (hname : name ≠ "")
    (hframe : (e s.mem).1.heap.structs.cells s.self = s.mem.heap.structs.cells s.self) :
    Filled (LitInst.exec s (.structSet i e name)) n (i + 1) (names ++ [name]) := by
  obtain ⟨st, hcell, hf, hn, hvals, hnames⟩ := h.cell
  obtain ⟨h₁, h₂, h₃, h₄⟩ :=
    setField_take (hf ▸ hi) (hn.trans hf.symm) hname
  refine ⟨st.setField i (e s.mem).2 name, ?_, h₃.trans hf, h₄.trans hn, ?_, ?_⟩
  · change ((e s.mem).1.heap.structs.modify s.self _).cells s.self = _
    unfold HandleStore.modify
    rw [hframe, hcell]
    simp [HandleStore.insert]
  · rw [h₁, hvals]
    rfl
  · rw [h₂, hnames]

theorem exec_structSets (fs : List (String × Expr)) (h : Filled s n i names) (hn : i + fs.length = n)
    (hname : ∀ p ∈ fs, p.1 ≠ "")
    (hframe : ∀ p ∈ fs, ∀ m, (p.2 m).1.heap.structs.cells s.self = m.heap.structs.cells s.self) :
    Filled ((structSets i fs).foldl LitInst.exec s) n n (names ++ fs.map (·.1)) ∧
      ((structSets i fs).foldl LitInst.exec s).self = s.self ∧
      ((structSets i fs).foldl LitInst.exec s).base = s.base := by
  induction fs generalizing s i names with
  | nil =>
    obtain rfl : i = n := by simpa using hn
    exact ⟨by simpa [structSets] using h, rfl, rfl⟩
  | cons p fs ih =>
    have hstep := exec_structSet h (by simp at hn; omega) (hname p (by simp))
      (hframe p (by simp) s.mem)
    obtain ⟨hfilled, hself, hbase⟩ := ih hstep (by simp at hn; omega)
      (fun q hq => hname q (by simp [hq])) (fun q hq => hframe q (by simp [hq]))
    have hcode : (structSets i (p :: fs)).foldl LitInst.exec s =
        (structSets (i + 1) fs).foldl LitInst.exec (LitInst.exec s (.structSet i p.2 p.1)) := rfl
    rw [hcode]
    refine ⟨?_, hself, hbase⟩
    rw [map_cons, ← singleton_append, ← append_assoc]
    exact hfilled

/-- The struct is what the spread expression of the literal gave. -/
structure IsBase (lit : StructLit) (b : NativeStruct) : Prop where
  spread : ∃ e m' src, lit.spread = some e ∧ (e m').2 = .i64 src ∧
    (e m').1.heap.structs.cells src = some b

/-- What a literal built with runtime calls leaves behind: its own fields, in its own order.
Of the base nothing is left. -/
structure Built (shape : LitShape decl) (m : Mem) (lit : StructLit) (s : LitState) : Prop where
  self : s.self = m.heap.structs.next
  cell : ∃ st, s.mem.heap.structs.cells s.self = some st ∧ st.fields = s.values ∧
    st.fieldNames = shape.names ∧ s.values.length = shape.names.length
  base : ∀ b, s.base = some b → IsBase lit b
  spread : s.base.isSome = shape.spread

theorem shape_named (shape : LitShape decl) : ∀ n ∈ shape.names, n ≠ "" :=
  fun n hn => decl.named n (shape.declared hn)

theorem LitOk.named (h : LitOk shape m lit) : ∀ p ∈ lit.fields, p.1 ≠ "" := by
  intro p hp
  refine shape_named shape p.1 ?_
  rw [← h.names]
  exact mem_map_of_mem hp

theorem LitOk.length (h : LitOk shape m lit) : lit.fields.length = shape.names.length := by
  rw [← h.names, length_map]

theorem run_spread (h : LitOk shape m lit) :
    let s := (lit.spread.toList.map LitInst.structCopy).foldl LitInst.exec
      (LitInst.exec ⟨m, 0, [], none⟩ (.structNew lit.typeName lit.fields.length))
    Filled s lit.fields.length 0 [] ∧ s.self = m.heap.structs.next ∧
      (∀ b, s.base = some b → IsBase lit b) ∧ s.base.isSome = shape.spread := by
  set s₀ := LitInst.exec ⟨m, 0, [], none⟩ (.structNew lit.typeName lit.fields.length) with hs₀
  have hself : s₀.self = m.heap.structs.next := rfl
  have hcell : s₀.mem.heap.structs.cells s₀.self =
      some ⟨lit.typeName, replicate lit.fields.length (.i64 0),
        replicate lit.fields.length ""⟩ := by
    simp [hs₀, LitInst.exec, Heap.structNew, HandleStore.alloc, HandleStore.insert]
  cases hspread : lit.spread with
  | none =>
    refine ⟨⟨_, hcell, by simp, by simp, rfl, rfl⟩, hself, nofun, ?_⟩
    rw [← h.spread, hspread]
    rfl
  | some e =>
    obtain ⟨src, b, hv, -, hb, hbnames, hbfields⟩ := h.base e hspread s₀.mem
    -- evaluating the base leaves the new struct alone
    have hframe := (h.frame e (.inr hspread) s₀.mem).1
    have hexec : (List.map LitInst.structCopy (some e).toList).foldl LitInst.exec s₀ = { s₀ with
          mem := { (e s₀.mem).1 with heap := (e s₀.mem).1.heap.structCopy s₀.self src }
          base := (e s₀.mem).1.heap.structs.cells src } := by
      simp only [toList_some, map_cons, map_nil, foldl_cons, foldl_nil, LitInst.exec, hv]
    rw [hexec]
    refine ⟨?_, hself, ?_, ?_⟩
    · let st₀ : NativeStruct := ⟨lit.typeName, replicate lit.fields.length (.i64 0),
        replicate lit.fields.length ""⟩
      refine ⟨st₀.copyFrom b, ?_, ?_, ?_, rfl, rfl⟩
      · simp only [Heap.structCopy, hb]
        unfold HandleStore.modify
        rw [hself, hframe, ← hself, hcell]
        simp [HandleStore.insert, st₀]
      · simp [NativeStruct.copyFrom, st₀]
        omega
      · simp [NativeStruct.copyFrom, st₀]
        omega
    · intro b' hb'
      exact ⟨e, s₀.mem, src, hspread, hv, hb'⟩
    · rw [hb, ← h.spread, hspread]
      rfl

/-- **With runtime calls** the struct has the fields of the literal, in its order. -/
theorem run_runtime (h : LitOk shape m lit)
    (hmode : ctx.knows decl.name = false ∨ shape.spread = true) :
    Built shape m lit (lit.run ctx m) := by
  have hcode : lowerStructLit ctx lit = .structNew lit.typeName lit.fields.length ::
      lit.spread.toList.map .structCopy ++ structSets 0 lit.fields := by
    have hnative : ¬ (ctx.knows lit.typeName && lit.spread.isNone) = true := by
      rw [h.typeName, ← not_isSome, h.spread]
      rcases hmode with hmode | hmode <;> simp [hmode]
    rw [lowerStructLit, if_neg hnative]
    rfl
  obtain ⟨hfilled, hself, hbase, hspread⟩ := run_spread h
  have hrun : lit.run ctx m = (structSets 0 lit.fields).foldl LitInst.exec
      ((lit.spread.toList.map LitInst.structCopy).foldl LitInst.exec
        (LitInst.exec ⟨m, 0, [], none⟩ (.structNew lit.typeName lit.fields.length))) := by
    rw [StructLit.run, hcode, foldl_append, foldl_cons]
  obtain ⟨⟨st, hcell, hf, hn, hvals, hnames⟩, hself', hbase'⟩ :=
    exec_structSets lit.fields hfilled (by simp) h.named (by
      intro p hp m'
      rw [hself]
      exact (h.frame p.2 (.inl (mem_map_of_mem hp)) m').1)
  rw [← hrun] at hcell hvals hself' hbase'
  rw [take_of_length_le (by omega)] at hvals hnames
  refine ⟨hself'.trans hself, ⟨st, hcell, hvals, ?_, ?_⟩, ?_, ?_⟩
  · rw [hnames, nil_append, h.names]
  · rw [← hvals, hf, h.length]
  · rw [hbase']
    exact hbase
  · rw [hbase', hspread]

/-- The code that sets the fields of a native literal. -/
def structFieldSets (i : Nat) (fs : List (String × Expr)) : List LitInst :=
  (fs.zipIdx i).map fun (f, idx) => .structFieldSet idx f.2

/-- The native struct under construction: the values so far, the other slots undefined. -/
structure NativeFilled (s : LitState) (n : Nat) : Prop where
  slots : ∃ k, s.values.length + k = n ∧
    s.mem.native.cells s.self = some (s.values.map some ++ List.replicate k none)

theorem exec_structFieldSet (h : NativeFilled s n) (hi : s.values.length < n)
    (hframe : (e s.mem).1.native.cells s.self = s.mem.native.cells s.self) :
    NativeFilled (LitInst.exec s (.structFieldSet s.values.length e)) n := by
  obtain ⟨k, hk, hcell⟩ := h.slots
  obtain ⟨k, rfl⟩ : ∃ k', k = k' + 1 := ⟨k - 1, by omega⟩
  refine ⟨k, ?_, ?_⟩
  · simp only [LitInst.exec, length_append, length_singleton]
    omega
  · change ((e s.mem).1.native.modify s.self _).cells s.self = _
    unfold HandleStore.modify
    rw [hframe, hcell]
    simp only [HandleStore.insert, if_true]
    rw [replicate_succ, set_append_right _ _ (by simp)]
    simp [LitInst.exec]

theorem exec_structFieldSets (fs : List (String × Expr))
    (h : NativeFilled s n) (hi : s.values.length = i) (hn : i + fs.length ≤ n)
    (hframe : ∀ p ∈ fs, ∀ m, (p.2 m).1.native.cells s.self = m.native.cells s.self) :
    NativeFilled ((structFieldSets i fs).foldl LitInst.exec s) n ∧
      ((structFieldSets i fs).foldl LitInst.exec s).self = s.self ∧
      ((structFieldSets i fs).foldl LitInst.exec s).values.length = i + fs.length ∧
      ((structFieldSets i fs).foldl LitInst.exec s).base = s.base := by
  induction fs generalizing s i with
  | nil => exact ⟨h, rfl, by simpa [structFieldSets] using hi, rfl⟩
  | cons p fs ih =>
    subst hi
    have hstep := exec_structFieldSet h (by simp at hn; omega) (hframe p (by simp) s.mem)
    have hlen : (LitInst.exec s (.structFieldSet s.values.length p.2)).values.length =
        s.values.length + 1 := by
      simp [LitInst.exec]
    obtain ⟨hfilled, hself, hvalues, hbase⟩ := ih hstep hlen (by simp at hn; omega)
      (fun q hq => hframe q (by simp [hq]))
    have hcode : (structFieldSets s.values.length (p :: fs)).foldl LitInst.exec s =
        (structFieldSets (s.values.length + 1) fs).foldl LitInst.exec
          (LitInst.exec s (.structFieldSet s.values.length p.2)) := rfl
    rw [hcode]
    refine ⟨hfilled, hself, ?_, hbase⟩
    rw [hvalues, length_cons]
    omega

/-- What a native literal leaves behind. -/
structure NativeBuilt (shape : LitShape decl) (s : LitState) : Prop where
  slots : ∃ k, s.mem.native.cells s.self = some (s.values.map some ++ List.replicate k none)
  length : s.values.length = shape.names.length
  base : s.base = none

theorem shape_length_le (shape : LitShape decl) : shape.names.length ≤ decl.fields.length :=
  (subperm_of_subset shape.nodup shape.declared).length_le

/-- **Native structs** have the fields of the literal in its order too. -/
theorem run_native (hctx : Declares ctx decl) (h : LitOk shape m lit)
    (hknows : ctx.knows decl.name = true) (hspread : shape.spread = false) :
    NativeBuilt shape (lit.run ctx m) := by
  have hnone : lit.spread = none := by
    rw [← not_isSome_iff_eq_none, h.spread, hspread]
    exact Bool.false_ne_true
  obtain ⟨fs, hfs⟩ : ∃ fs, ctx.structDefs.lookup decl.name = some fs := by
    have := hknows
    exact isSome_iff_exists.1 (Bool.and_eq_true_iff.1 this).2
  have hcode : lowerStructLit ctx lit =
      .structAlloc decl.fields.length :: structFieldSets 0 lit.fields := by
    rw [lowerStructLit, if_pos (by rw [h.typeName, hknows, hnone]; rfl), h.typeName, hfs,
      hctx.fields fs hfs]
    rfl
  have hrun : lit.run ctx m = (structFieldSets 0 lit.fields).foldl LitInst.exec
      (LitInst.exec ⟨m, 0, [], none⟩ (.structAlloc decl.fields.length)) := by
    rw [StructLit.run, hcode, foldl_cons]
  have hstart : NativeFilled (LitInst.exec ⟨m, 0, [], none⟩ (.structAlloc decl.fields.length))
      decl.fields.length := by
    refine ⟨decl.fields.length, by simp [LitInst.exec], ?_⟩
    simp [LitInst.exec, HandleStore.alloc, HandleStore.insert]
  have hle : lit.fields.length ≤ decl.fields.length := by
    rw [h.length]
    exact shape_length_le shape
  obtain ⟨⟨k, -, hcell⟩, -, hlen, hbase⟩ := exec_structFieldSets (i := 0) lit.fields hstart rfl
    (by simpa using hle) (fun p hp m' =>
      (h.frame p.2 (.inl (mem_map_of_mem hp)) m').2)
  rw [← hrun] at hcell hlen hbase
  refine ⟨⟨k, hcell⟩, ?_, hbase⟩
  rw [hlen, ← h.length, zero_add]

variable {h : Int64}

theorem reads_named (hread : ReadAsStruct h) (hcell : m.heap.structs.cells h = some st) :
    Reads num m h (.structGetNamed f) v ↔ st.getNamed f = v := by
  have hget : ∀ fuel, structGetNamed num m.heap f (fuel + 1) h = some (st.getNamed f) := by
    intro fuel
    simp [structGetNamed, hread.1, hread.2.1, hread.2.2, hcell]
  constructor
  · rintro ⟨fuel, hfuel⟩
    cases fuel with
    | zero => cases hfuel
    | succ fuel => exact some.inj ((hget fuel).symm.trans hfuel)
  · rintro rfl
    exact ⟨1, hget 0⟩

theorem reads_index (hcell : m.heap.structs.cells h = some st) :
    Reads num m h (.structGet i) v ↔ (st.fields[i]?).getD (.i64 0) = v := by
  have hget : m.heap.structGet h i = (st.fields[i]?).getD (.i64 0) := by
    simp [Heap.structGet, hcell]
  constructor
  · rintro ⟨fuel, hfuel⟩
    exact hget.symm.trans (some.inj hfuel)
  · rintro rfl
    exact ⟨0, congrArg some hget⟩

theorem getNamed_of_names (hnames : st.fieldNames = names)
    (hnodup : names.Nodup) (hj : names[j]? = some f) :
    st.getNamed f = (st.fields[j]?).getD (.i64 0) := by
  unfold NativeStruct.getNamed
  rw [hnames, findIdx?_name hnodup hj]
  rfl

theorem structGetNamed_mono {m : Heap} {fuel fuel' : Nat} (hle : fuel ≤ fuel')
    (hv : structGetNamed num m f fuel h = some v) : structGetNamed num m f fuel' h = some v := by
  induction fuel generalizing fuel' h with
  | zero => cases hv
  | succ fuel ih =>
    obtain ⟨fuel', rfl⟩ : ∃ k, fuel' = k + 1 := ⟨fuel' - 1, by omega⟩
    unfold structGetNamed at hv ⊢
    by_cases hlist : isListHandle h = true
    · rw [if_pos hlist] at hv ⊢
      exact hv
    rw [if_neg hlist] at hv ⊢
    by_cases hopt : isOptHandle h = true
    · rw [if_pos hopt] at hv ⊢
      cases hu : m.optUnwrap h with
      | i64 inner =>
        rw [hu] at hv
        simp only at hv ⊢
        by_cases hne : inner ≠ 0
        · rw [if_pos hne] at hv ⊢
          exact ih (by omega) hv
        · rw [if_neg hne] at hv ⊢
          exact hv
      | _ =>
        rwa [hu] at hv
    rw [if_neg hopt] at hv ⊢
    exact hv

/-! ## Literals that read back -/

variable {s : LitState}

theorem expected_named (hlen : s.values.length = shape.names.length)
    (hj : shape.names[j]? = some f) :
    ∃ w, s.values[j]? = some w ∧ s.expected shape.names f = some w := by
  have hlt : j < s.values.length := hlen ▸ (List.getElem?_eq_some_iff.1 hj).1
  refine ⟨s.values[j], getElem?_eq_getElem hlt, ?_⟩
  unfold LitState.expected
  rw [lookup_zip shape.nodup hlen hj, getElem?_eq_getElem hlt]

theorem expected_unnamed (h : f ∉ shape.names) :
    s.expected shape.names f = s.base.map (·.getNamed f) := by
  unfold LitState.expected
  rw [lookup_zip_none h]

theorem lowerMember_unknown (h : ctx.knows decl.name = false) :
    lowerMember ctx decl.name f = .structGetNamed f := by
  rw [lowerMember, h]
  rfl

theorem lowerMember_knows (hctx : Declares ctx decl) (h : ctx.knows decl.name = true)
    (hi : decl.fields[i]? = some f) : lowerMember ctx decl.name f = .structFieldGet i := by
  obtain ⟨fs, hfs⟩ : ∃ fs, ctx.structDefs.lookup decl.name = some fs := by
    have := h
    exact isSome_iff_exists.1 (Bool.and_eq_true_iff.1 this).2
  have hindex : ctx.getFieldIndex decl.name f = some i := by
    rw [LowerCtx.getFieldIndex, hfs, hctx.fields fs hfs]
    exact findIdx?_name decl.nodup hi
  rw [lowerMember, if_pos h, hindex]

theorem idxOf_name (hi : decl.fields[i]? = some f) : decl.fields.idxOf f = i := by
  obtain ⟨hlt, rfl⟩ := List.getElem?_eq_some_iff.1 hi
  exact decl.nodup.idxOf_getElem i hlt

theorem prefix_getElem? (h : shape.names <+: decl.fields)
    (hj : shape.names[j]? = some f) : decl.fields[j]? = some f := by
  obtain ⟨hlt, rfl⟩ := List.getElem?_eq_some_iff.1 hj
  exact prefix_iff_getElem?.1 h j hlt

theorem readsBack_of_agrees (hctx : Declares ctx decl) (h : LayoutAgrees ctx shape m) :
    ReadsBack num ctx shape m := by
  intro lit hlit f hf v hv
  by_cases hmem : f ∈ shape.names
  · obtain ⟨j, hj⟩ := mem_iff_getElem?.1 hmem
    by_cases hknows : ctx.knows decl.name = true
    · rw [LayoutAgrees, if_pos hknows] at h
      cases hspread : shape.spread with
      | true =>
        rw [hspread, if_pos rfl] at h
        rw [h] at hf
        simp at hf
      | false =>
        rw [hspread, if_neg Bool.false_ne_true] at h
        have hbuilt := run_native hctx hlit hknows hspread
        obtain ⟨k, hcell⟩ := hbuilt.slots
        obtain ⟨w, hw, hexpected⟩ := expected_named hbuilt.length hj
        obtain rfl : w = v := some.inj (hexpected.symm.trans hv)
        refine ⟨?_, fun hno => absurd hno (by rw [hknows]; exact nofun)⟩
        rw [lowerMember_knows hctx hknows (prefix_getElem? h hj)]
        refine ⟨0, ?_⟩
        change (((lit.run ctx m).mem.native.cells (lit.run ctx m).self).bind (·[j]?)).join = _
        have hlt : j < (lit.run ctx m).values.length := (List.getElem?_eq_some_iff.1 hw).1
        rw [hcell, bind_some, getElem?_append_left (by rwa [length_map]), getElem?_map, hw]
        rfl
    · have hknows' : ctx.knows decl.name = false := by simpa using hknows
      rw [LayoutAgrees, if_neg hknows] at h
      -- the names are stored, so a read by name and one by index find the same slot
      have hprefix : shape.names <+: decl.fields := by
        have := h.1
        split at this
        · rw [this]
        · exact this
      have hread : ReadAsStruct m.heap.structs.next := by
        rcases h.2 with hnil | hread
        · rw [hnil] at hmem
          simp at hmem
        · exact hread
      have hbuilt := run_runtime hlit (.inl hknows')
      obtain ⟨st, hcell, hfields, hnames, hlen⟩ := hbuilt.cell
      obtain ⟨w, hw, hexpected⟩ := expected_named hlen hj
      obtain rfl : w = v := some.inj (hexpected.symm.trans hv)
      constructor
      · rw [lowerMember_unknown hknows', reads_named (hbuilt.self ▸ hread) hcell,
          getNamed_of_names hnames shape.nodup hj, hfields, hw]
        rfl
      · intro _
        rw [reads_index hcell, idxOf_name (prefix_getElem? hprefix hj), hfields, hw]
        rfl
  · -- a field only the base has
    rw [expected_unnamed hmem] at hv
    have hbase : (lit.run ctx m).base.isSome = true := by
      obtain ⟨b, hb, -⟩ := map_eq_some_iff.1 hv
      rw [hb]
      rfl
    exfalso
    by_cases hmode : ctx.knows decl.name = false ∨ shape.spread = true
    · have hspread : shape.spread = true := by
        rw [← (run_runtime hlit hmode).spread]
        exact hbase
      unfold LayoutAgrees at h
      split at h
      · rw [h] at hf
        simp at hf
      · exact hmem (h.1 ▸ hf)
    · have hknows : ctx.knows decl.name = true := by
        by_contra hno
        exact hmode (.inl (by simpa using hno))
      have hspread : shape.spread = false := by
        by_contra hyes
        exact hmode (.inr (by simpa using hyes))
      rw [(run_native hctx hlit hknows hspread).base] at hbase
      cases hbase

/-- The base with the given values, as a struct next to the one under construction. -/
def baseExpr (decl : StructDecl) (m : Mem) (bval : String → Value) : Expr := fun m' =>
  ({ m' with heap := { m'.heap with
      structs := m'.heap.structs.insert (m.heap.structs.next + 1)
        ⟨decl.name, decl.fields.map bval, decl.fields⟩ } },
    .i64 (m.heap.structs.next + 1))

def constFields (names : List String) (val : String → Value) : List (String × Expr) :=
  names.map fun n => (n, fun m' => (m', val n))

/-- The literal of the shape whose fields are constants. -/
def constLit (shape : LitShape decl) (m : Mem) (val bval : String → Value) : StructLit :=
  ⟨decl.name, constFields shape.names val,
    if shape.spread then some (baseExpr decl m bval) else none⟩

theorem succ_ne (h : Int64) : h + 1 ≠ h := by
  intro heq
  have hone : (1 : Int64) = 0 := by
    have hsub : -h + (h + 1) = -h + h := congrArg (-h + ·) heq
    rwa [← Int64.add_assoc, Int64.add_left_neg, Int64.zero_add] at hsub
  cases hone

theorem constLit_ok (shape : LitShape decl) (m : Mem) (val bval : String → Value) :
    LitOk shape m (constLit shape m val bval) := by
  have hspread : ∀ e, (constLit shape m val bval).spread = some e → e = baseExpr decl m bval := by
    intro e he
    unfold constLit at he
    split at he
    · exact (some.inj he).symm
    · cases he
  refine ⟨rfl, ?_, ?_, ?_, ?_⟩
  · simp [constLit, constFields, Function.comp_def]
  · unfold constLit
    cases shape.spread <;> rfl
  · rintro e (he | he) m'
    · obtain ⟨p, hp, rfl⟩ := mem_map.1 he
      obtain ⟨n, -, rfl⟩ := mem_map.1 hp
      exact ⟨rfl, rfl⟩
    · rw [hspread e he]
      refine ⟨?_, rfl⟩
      simp [baseExpr, HandleStore.insert, (succ_ne m.heap.structs.next).symm]
  · intro e he m'
    rw [hspread e he]
    refine ⟨_, ⟨decl.name, decl.fields.map bval, decl.fields⟩, rfl, succ_ne _, ?_, rfl, ?_⟩
    · simp [baseExpr, HandleStore.insert]
    · simp

theorem IsBase.constLit {val bval : String → Value} {b : NativeStruct}
    (h : IsBase (constLit shape m val bval) b) (hf : f ∈ decl.fields) : b.getNamed f = bval f := by
  obtain ⟨e, m', src, hspread, hsrc, hcell⟩ := h.spread
  obtain rfl : e = baseExpr decl m bval := by
    unfold Lower.constLit at hspread
    split at hspread
    · exact (some.inj hspread).symm
    · cases hspread
  obtain rfl : m.heap.structs.next + 1 = src := by
    have := hsrc
    simpa [baseExpr] using this
  obtain rfl : ⟨decl.name, decl.fields.map bval, decl.fields⟩ = b := by
    simpa [baseExpr, HandleStore.insert] using hcell
  obtain ⟨j, hj⟩ := mem_iff_getElem?.1 hf
  rw [getNamed_of_names rfl decl.nodup hj, getElem?_map, hj]
  rfl

/-- The heaps agree but for the struct under the handle. -/
structure AgreeOff (h : Int64) (m m' : Heap) : Prop where
  lists : m.lists = m'.lists
  opts : m.opts = m'.opts
  jsons : m.jsons = m'.jsons
  structs : ∀ k, k ≠ h → m.structs.cells k = m'.structs.cells k

theorem AgreeOff.trans_symm {m m' m'' : Heap} (h₁ : AgreeOff h m m'')
    (h₂ : AgreeOff h m' m'') : AgreeOff h m m' :=
  ⟨h₁.lists.trans h₂.lists.symm, h₁.opts.trans h₂.opts.symm, h₁.jsons.trans h₂.jsons.symm,
    fun k hk => (h₁.structs k hk).trans (h₂.structs k hk).symm⟩

theorem structGetNamed_agree {m m' : Heap} (hagree : AgreeOff h m m')
    (hh : ¬ ReadAsStruct h) (fuel : Nat) (k : Int64) :
    structGetNamed num m f fuel k = structGetNamed num m' f fuel k := by
  induction fuel generalizing k with
  | zero => rfl
  | succ fuel ih =>
    unfold structGetNamed
    by_cases hlist : isListHandle k = true
    · rw [if_pos hlist, if_pos hlist, Heap.listLen, Heap.listLen, hagree.lists]
    rw [if_neg hlist, if_neg hlist]
    by_cases hopt : isOptHandle k = true
    · have hu : m.optUnwrap k = m'.optUnwrap k := by
        rw [Heap.optUnwrap, Heap.optUnwrap, hagree.opts]
      rw [if_pos hopt, if_pos hopt, hu]
      cases m'.optUnwrap k with
      | i64 inner => simp only [ih]
      | _ => rfl
    rw [if_neg hopt, if_neg hopt]
    by_cases hjson : isJsonHandle k = true
    · rw [if_pos hjson, if_pos hjson]
      simp only [jsonFieldValue, Heap.jsonField, hagree.jsons]
    · rw [if_neg hjson, if_neg hjson]
      have hne : k ≠ h := by
        rintro rfl
        exact hh ⟨by simpa using hlist, by simpa using hopt, by simpa using hjson⟩
      rw [hagree.structs k hne]

theorem exec_constFields (names : List String) (val : String → Value) (i : Nat) (s : LitState) :
    let s' := (structSets i (constFields names val)).foldl LitInst.exec s
    s'.values = s.values ++ names.map val ∧ s'.mem.native = s.mem.native ∧
      AgreeOff s.self s'.mem.heap s.mem.heap := by
  induction names generalizing i s with
  | nil => exact ⟨by simp [structSets, constFields], rfl, rfl, rfl, rfl, fun _ _ => rfl⟩
  | cons n names ih =>
    obtain ⟨hvalues, hnative, hagree⟩ :=
      ih (i + 1) (LitInst.exec s (.structSet i (fun m' => (m', val n)) n))
    have hcode : (structSets i (constFields (n :: names) val)).foldl LitInst.exec s =
        (structSets (i + 1) (constFields names val)).foldl LitInst.exec
          (LitInst.exec s (.structSet i (fun m' => (m', val n)) n)) := rfl
    simp only [hcode]
    refine ⟨?_, hnative, hagree.lists, hagree.opts, hagree.jsons, fun k hk => ?_⟩
    · rw [hvalues]
      simp [LitInst.exec]
    · rw [hagree.structs k hk]
      change (s.mem.heap.structs.modify s.self _).cells k = _
      unfold HandleStore.modify
      split
      · simp [HandleStore.insert, hk]
      · rfl

theorem exec_constNativeFields (names : List String) (val : String → Value) (i : Nat)
    (s : LitState) : ((structFieldSets i (constFields names val)).foldl LitInst.exec s).values =
      s.values ++ names.map val := by
  induction names generalizing i s with
  | nil => simp [structFieldSets, constFields]
  | cons n names ih =>
    have hcode : (structFieldSets i (constFields (n :: names) val)).foldl LitInst.exec s =
        (structFieldSets (i + 1) (constFields names val)).foldl LitInst.exec
          (LitInst.exec s (.structFieldSet i fun m' => (m', val n))) := rfl
    rw [hcode, ih]
    simp [LitInst.exec]

/-- The state in front of the fields of a constant literal. -/
def constStart (shape : LitShape decl) (m : Mem) (bval : String → Value) : LitState :=
  ((if shape.spread then some (baseExpr decl m bval) else none).toList.map
      LitInst.structCopy).foldl LitInst.exec
    (LitInst.exec ⟨m, 0, [], none⟩ (.structNew decl.name shape.names.length))

theorem constLit_run (val bval : String → Value)
    (hmode : ctx.knows decl.name = false ∨ shape.spread = true) :
    (constLit shape m val bval).run ctx m =
      (structSets 0 (constFields shape.names val)).foldl LitInst.exec (constStart shape m bval) := by
  have hok := constLit_ok shape m val bval
  have hnative : ¬ (ctx.knows (constLit shape m val bval).typeName &&
      (constLit shape m val bval).spread.isNone) = true := by
    rw [hok.typeName, ← not_isSome, hok.spread]
    rcases hmode with hmode | hmode <;> simp [hmode]
  rw [StructLit.run, lowerStructLit, if_neg hnative, foldl_append, foldl_cons]
  simp only [constLit, constFields, length_map]
  rfl

theorem constStart_self (shape : LitShape decl) (m : Mem) (bval : String → Value) :
    (constStart shape m bval).self = m.heap.structs.next ∧
      (constStart shape m bval).mem.native = m.native ∧ (constStart shape m bval).values = [] := by
  unfold constStart
  split <;> exact ⟨rfl, rfl, rfl⟩

theorem constLit_values (ctx : LowerCtx) (shape : LitShape decl) (m : Mem)
    (val bval : String → Value) :
    ((constLit shape m val bval).run ctx m).values = shape.names.map val := by
  by_cases hmode : ctx.knows decl.name = false ∨ shape.spread = true
  · rw [constLit_run val bval hmode, (exec_constFields _ _ _ _).1,
      (constStart_self shape m bval).2.2, nil_append]
  · have hknows : ctx.knows decl.name = true := by
      by_contra hno
      exact hmode (.inl (by simpa using hno))
    have hspread : shape.spread = false := by
      by_contra hyes
      exact hmode (.inr (by simpa using hyes))
    have hnative : (ctx.knows (constLit shape m val bval).typeName &&
        (constLit shape m val bval).spread.isNone) = true := by
      rw [(constLit_ok shape m val bval).typeName, ← not_isSome,
        (constLit_ok shape m val bval).spread, hknows, hspread]
      rfl
    rw [StructLit.run, lowerStructLit, if_pos hnative, foldl_cons]
    exact exec_constNativeFields shape.names val 0 _

theorem constLit_expected (ctx : LowerCtx) (m : Mem) (val bval : String → Value)
    (hf : f ∈ shape.names) :
    ((constLit shape m val bval).run ctx m).expected shape.names f = some (val f) := by
  obtain ⟨j, hj⟩ := mem_iff_getElem?.1 hf
  have hvalues := constLit_values ctx shape m val bval
  obtain ⟨w, hw, hexpected⟩ := expected_named (by rw [hvalues, length_map]) hj
  rw [hvalues, getElem?_map, hj] at hw
  rw [hexpected, ← hw]
  rfl

theorem prefix_of_places (h : ∀ (f : String) (i : Nat), f ∈ shape.names →
    decl.fields[i]? = some f → (shape.names.map Value.str)[i]? = some (Value.str f)) :
    shape.names <+: decl.fields := by
  rw [prefix_iff_getElem?]
  intro j hj
  have hmem : shape.names[j] ∈ shape.names := getElem_mem hj
  obtain ⟨i, hi⟩ := mem_iff_getElem?.1 (shape.declared hmem)
  have hplace := h _ i hmem hi
  rw [getElem?_map] at hplace
  obtain ⟨n, hn, heq⟩ := map_eq_some_iff.1 hplace
  obtain rfl : n = shape.names[j] := by simpa using heq
  obtain ⟨hlt, hget⟩ := List.getElem?_eq_some_iff.1 hn
  have hij : i = j := shape.nodup.getElem_inj_iff.1 hget
  exact hij ▸ hi

theorem runtime_agrees (hknows : ctx.knows decl.name = false) (h : ReadsBack num ctx shape m) :
    (if shape.spread then shape.names = decl.fields else shape.names <+: decl.fields) ∧
      (shape.names = [] ∨ ReadAsStruct m.heap.structs.next) := by
  have hok := constLit_ok shape m Value.str Value.str
  have hbuilt := run_runtime hok (.inl hknows)
  obtain ⟨st, hcell, hfields, hnames, hlen⟩ := hbuilt.cell
  have hvalues := constLit_values ctx shape m Value.str Value.str
  have hindex : ∀ (f : String) (i : Nat) (v : Value), decl.fields[i]? = some f →
      ((constLit shape m Value.str Value.str).run ctx m).expected shape.names f = some v →
      ((shape.names.map Value.str)[i]?).getD (.i64 0) = v := by
    intro f i v hi hv
    have := (h _ hok f (mem_of_getElem? hi) v hv).2 hknows
    rwa [idxOf_name hi, reads_index hcell, hfields, hvalues] at this
  have hprefix : shape.names <+: decl.fields := by
    refine prefix_of_places fun f i hf hi => ?_
    have := hindex f i _ hi (constLit_expected ctx m Value.str Value.str hf)
    cases hget : (shape.names.map Value.str)[i]? with
    | none =>
      rw [hget] at this
      cases this
    | some w =>
      rw [hget] at this
      exact congrArg some this
  refine ⟨?_, ?_⟩
  · cases hspread : shape.spread with
    | false => simpa using hprefix
    | true =>
      -- a field the literal leaves out would have to read as the base's
      have hall : ∀ f ∈ decl.fields, f ∈ shape.names := by
        intro f hf
        by_contra hmem
        obtain ⟨b, hb⟩ := isSome_iff_exists.1 (hbuilt.spread.trans hspread)
        obtain ⟨i, hi⟩ := mem_iff_getElem?.1 hf
        have hv := hindex f i (.str f) hi (by
          rw [expected_unnamed hmem, hb]
          exact congrArg some ((hbuilt.base b hb).constLit hf))
        cases hget : (shape.names.map Value.str)[i]? with
        | none =>
          rw [hget] at hv
          cases hv
        | some w =>
          rw [hget] at hv
          rw [getElem?_map] at hget
          obtain ⟨n, hn, rfl⟩ := map_eq_some_iff.1 hget
          obtain rfl : n = f := by simpa using hv
          exact hmem (mem_of_getElem? hn)
      refine hprefix.eq_of_length_le ?_
      exact (subperm_of_subset decl.nodup hall).length_le
  · by_contra hno
    obtain ⟨hne, hread⟩ := not_or.1 hno
    obtain ⟨f, hf⟩ := exists_mem_of_ne_nil _ hne
    -- two literals that differ in the value of the field only
    have hreads : ∀ val : String → Value, Reads num
        ((constLit shape m val Value.str).run ctx m).mem m.heap.structs.next
        (.structGetNamed f) (val f) := by
      intro val
      have hok' := constLit_ok shape m val Value.str
      have := (h _ hok' f (shape.declared hf) _ (constLit_expected ctx m val Value.str hf)).1
      rwa [lowerMember_unknown hknows, (run_runtime hok' (.inl hknows)).self] at this
    have hagree : ∀ val : String → Value, AgreeOff m.heap.structs.next
        ((constLit shape m val Value.str).run ctx m).mem.heap
        (constStart shape m Value.str).mem.heap := by
      intro val
      rw [constLit_run val Value.str (.inl hknows), ← (constStart_self shape m Value.str).1]
      exact (exec_constFields _ _ _ _).2.2
    obtain ⟨fuel₁, h₁⟩ := hreads Value.str
    obtain ⟨fuel₂, h₂⟩ := hreads fun _ => .i64 1
    have h₁' := structGetNamed_mono (le_max_left fuel₁ fuel₂) h₁
    have h₂' := structGetNamed_mono (le_max_right fuel₁ fuel₂) h₂
    rw [structGetNamed_agree ((hagree Value.str).trans_symm (hagree fun _ => .i64 1)) hread] at h₁'
    cases h₁'.symm.trans h₂'

theorem native_agrees (hctx : Declares ctx decl) (hknows : ctx.knows decl.name = true)
    (h : ReadsBack num ctx shape m) :
    if shape.spread then decl.fields = [] else shape.names <+: decl.fields := by
  cases hspread : shape.spread with
  | false =>
    have hok := constLit_ok shape m Value.str Value.str
    obtain ⟨k, hcell⟩ := (run_native hctx hok hknows hspread).slots
    rw [constLit_values ctx shape m] at hcell
    refine prefix_of_places fun f i hf hi => ?_
    obtain ⟨fuel, hread⟩ := (h _ hok f (shape.declared hf) _
      (constLit_expected ctx m Value.str Value.str hf)).1
    rw [lowerMember_knows hctx hknows hi] at hread
    change ((Mem.native _).cells _ |>.bind (·[i]?)).join = some (.str f) at hread
    rw [hcell, bind_some] at hread
    by_cases hlt : i < (shape.names.map Value.str).length
    · rw [getElem?_append_left (by rwa [length_map]), getElem?_map] at hread
      cases hget : (shape.names.map Value.str)[i]? with
      | none =>
        rw [hget] at hread
        cases hread
      | some w =>
        rwa [hget] at hread
    · rw [getElem?_append_right (by rw [length_map]; omega), getElem?_replicate] at hread
      split at hread <;> cases hread
  | true =>
    by_contra hne
    obtain ⟨f, hf⟩ := exists_mem_of_ne_nil _ hne
    obtain ⟨i, hi⟩ := mem_iff_getElem?.1 hf
    -- the value lives in the runtime, the access reads a native slot
    have hreads : ∀ val : String → Value,
        ((m.native.cells m.heap.structs.next).bind (·[i]?)).join = some (val f) := by
      intro val
      have hok := constLit_ok shape m val val
      have hbuilt : Built shape m (constLit shape m val val)
          ((constLit shape m val val).run ctx m) := run_runtime hok (.inr hspread)
      have hexpected : ((constLit shape m val val).run ctx m).expected shape.names f =
          some (val f) := by
        by_cases hmem : f ∈ shape.names
        · exact constLit_expected ctx m val val hmem
        · obtain ⟨b, hb⟩ := isSome_iff_exists.1 (hbuilt.spread.trans hspread)
          rw [expected_unnamed hmem, hb]
          exact congrArg some ((hbuilt.base b hb).constLit hf)
      obtain ⟨fuel, hread⟩ := (h _ hok f hf _ hexpected).1
      rw [lowerMember_knows hctx hknows hi, hbuilt.self, constLit_run val val (.inr hspread)]
        at hread
      have hnative := (exec_constFields shape.names val 0 (constStart shape m val)).2.1
      rw [(constStart_self shape m val).2.1] at hnative
      rwa [← hnative]
    have h₁ := hreads fun _ => .i64 1
    rw [hreads fun _ => .i64 2] at h₁
    exact absurd (some.inj h₁) (by decide)

/-- A struct with the fields `x` and `y`. -/
def point : StructDecl := ⟨"Point", ["x", "y"], by decide, by decide⟩

def emptyMem : Mem := ⟨Heap.initial, HandleStore.empty 0⟩

end Arth.Lower
