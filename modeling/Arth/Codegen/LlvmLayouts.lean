import Arth.Codegen.LlvmTypes

/-!
# Native layouts are those of the emitted types

* `topologicalSort_spec` — the order of the definitions, whatever the maps' orders are.
* `build_complete` — every layout is computed from all registered ones.
* `Sound` — what `type_size_align` gives is the layout of the emitted type.
* `struct_agrees`, `enums_agree` — for the definitions of a module.
* `build_fits` — no sum overflows where the layouts are small.
* `native_iff` — when the layouts of a module are those of its types.
-/

namespace Arth.LlvmTypes

open Ir DataLayout Worklist List Option

variable {deps : String → List String}

theorem topologicalSort_spec {names : List String} (hnames : names.Nodup) (o : HashOrder names) (hdeps : ∀ x, (deps x).Nodup) (hacyclic : Acyclic deps) :
    (topologicalSort o deps).Nodup ∧ (∀ x, x ∈ topologicalSort o deps ↔ x ∈ names) ∧
      Ordered (fun x => (deps x).filter (· ∈ names)) (topologicalSort o deps) := by
  have hinner : ∀ x, ((deps x).filter (· ∈ names)).Nodup := fun x => (hdeps x).filter _
  obtain ⟨degree, hturn⟩ := kahn_turn (inverts_filter o.deps_perm hnames) hinner names.length
    (by simp) (turn_start o.deps_perm o.degrees_perm hnames)
  have hfree := hturn.free
  have hnodup := hturn.nodup
  simp only [append_nil] at hfree hnodup
  refine ⟨hnodup, fun x => ⟨fun hx => ((hfree x).1 hx).1, fun hx => ?_⟩, hturn.ordered⟩
  refine mem_of_acyclic hfree (fun x _ d hd => by simpa using (mem_filter.1 hd).2)
    (hacyclic.subset fun x d hd => (mem_filter.1 hd).1) hx

variable {l : List String} {d : StructDef} {tys : List Ty} {ty : Ty}

theorem filter_not_mem {names defs : List String} (hperm : defs.Perm names)
    (hall : ∀ x, x ∈ l ↔ x ∈ names) : l ++ defs.filter (· ∉ l) = l := by
  have hnil : defs.filter (· ∉ l) = [] := by
    rw [filter_eq_nil_iff]
    intro x hx
    simpa using (hall x).2 (hperm.mem_iff.1 hx)
  rw [hnil, append_nil]

/-! ## What a layout is computed from -/

def structsOf : Ty → List String
  | .struct name => [name]
  | .optional inner => structsOf inner
  | _ => []

def enumsOf : Ty → List String
  | .enum name => [name]
  | .optional inner => enumsOf inner
  | _ => []

section
variable {w : Nat → Nat} {reg reg' : TypeRegistry}

theorem typeSizeAlign_congr (hs : ∀ n ∈ structsOf ty, reg.structs n = reg'.structs n)
    (he : ∀ n ∈ enumsOf ty, reg.enums n = reg'.enums n) :
    typeSizeAlign w reg ty = typeSizeAlign w reg' ty := by
  induction ty with
  | struct name =>
    simp only [typeSizeAlign]
    rw [hs name mem_cons_self]
  | enum name =>
    simp only [typeSizeAlign]
    rw [he name mem_cons_self]
  | optional inner ih =>
    simp only [typeSizeAlign]
    rw [ih hs he]
  | _ => rfl

theorem placeFields_congr {fields : List FieldDef}
    (h : ∀ f ∈ fields, typeSizeAlign w reg f.ty = typeSizeAlign w reg' f.ty)
    (idx offset align : Nat) :
    placeFields w reg idx offset align fields = placeFields w reg' idx offset align fields := by
  induction fields generalizing idx offset align with
  | nil => rfl
  | cons field fields ih =>
    simp only [placeFields]
    rw [h field mem_cons_self, ih fun f hf => h f (mem_cons_of_mem _ hf)]

theorem computeStructLayout_congr
    (h : ∀ f ∈ d.fields, typeSizeAlign w reg f.ty = typeSizeAlign w reg' f.ty) :
    computeStructLayout w d reg = computeStructLayout w d reg' := by
  unfold computeStructLayout
  rw [placeFields_congr h]

theorem payload_congr (h : ∀ ty ∈ tys, typeSizeAlign w reg ty = typeSizeAlign w reg' ty) :
    payload w reg tys = payload w reg' tys := by
  refine foldl_ext _ _ _ fun p ty hty => ?_
  rw [h ty hty]

theorem computeEnumLayout_congr {d : EnumDef} (h : ∀ v ∈ d.variants, ∀ ty ∈ v.payloadTypes,
      typeSizeAlign w reg ty = typeSizeAlign w reg' ty) :
    computeEnumLayout w d reg = computeEnumLayout w d reg' := by
  have hpay : ∀ v ∈ d.variants, payload w reg v.payloadTypes = payload w reg' v.payloadTypes :=
    fun v hv => payload_congr (h v hv)
  have hmap : d.variants.map (fun v => payload w reg v.payloadTypes) =
      d.variants.map fun v => payload w reg' v.payloadTypes := map_congr_left hpay
  have hzip : d.variants.zipIdx.map (variantLayout w reg) =
      d.variants.zipIdx.map (variantLayout w reg') := by
    refine map_congr_left fun v hv => ?_
    unfold variantLayout
    rw [hpay v.1 (fst_mem_of_mem_zipIdx hv)]
  unfold computeEnumLayout
  rw [hmap, hzip]

end

/-! ## Names and definitions -/

namespace Module

variable {m : Module} {w : Nat → Nat}

theorem struct?_of_mem (hd : d ∈ m.structs) : m.struct? d.name = some d := by
  unfold struct?
  cases hf : m.structs.find? (·.name == d.name) with
  | none => exact absurd (find?_eq_none.1 hf d hd) (by simp)
  | some d' =>
    have hname : d'.name = d.name := by simpa using find?_some hf
    rw [inj_on_of_nodup_map m.structs_nodup (mem_of_find?_eq_some hf) hd hname]

theorem enum?_of_mem {d : EnumDef} (hd : d ∈ m.enums) : m.enum? d.name = some d := by
  unfold enum?
  cases hf : m.enums.find? (·.name == d.name) with
  | none => exact absurd (find?_eq_none.1 hf d hd) (by simp)
  | some d' =>
    have hname : d'.name = d.name := by simpa using find?_some hf
    rw [inj_on_of_nodup_map m.enums_nodup (mem_of_find?_eq_some hf) hd hname]

theorem mem_structNames {name : String} : name ∈ m.structNames ↔ ∃ d ∈ m.structs, d.name = name :=
  mem_map

theorem mem_enumNames {name : String} : name ∈ m.enumNames ↔ ∃ d ∈ m.enums, d.name = name :=
  mem_map

variable {withEnums : Bool}

theorem Defined.structsOf_subset (h : m.Defined withEnums ty) :
    ∀ n ∈ structsOf ty, n ∈ m.structNames := by
  induction ty with
  | struct name =>
    intro n hn
    rw [mem_singleton.1 hn]
    exact h
  | optional inner ih => exact ih h
  | _ => simp [structsOf]

theorem Defined.enumsOf_subset (h : m.Defined true ty) : ∀ n ∈ enumsOf ty, n ∈ m.enumNames := by
  induction ty with
  | enum name =>
    intro n hn
    rw [mem_singleton.1 hn]
    exact h.2
  | optional inner ih => exact ih h
  | _ => simp [enumsOf]

theorem Defined.not_mem_enumsOf {n : String} (h : m.Defined false ty) : n ∉ enumsOf ty := by
  induction ty with
  | enum name => cases h.1
  | optional inner ih => exact ih h
  | _ => exact not_mem_nil

theorem structsOf_subset_typeDeps (ty : Ty) : ∀ n ∈ structsOf ty, n ∈ typeDeps ty := by
  induction ty with
  | optional inner ih => exact ih
  | struct name => exact fun n hn => hn
  | _ => simp [structsOf]

theorem enumsOf_subset_typeDeps (ty : Ty) : ∀ n ∈ enumsOf ty, n ∈ typeDeps ty := by
  induction ty with
  | optional inner ih => exact ih
  | enum name => exact fun n hn => hn
  | _ => simp [enumsOf]

/-! ## The registry -/

theorem deps_ne (h : Acyclic deps) (x : String) : x ∉ deps x :=
  fun hx => h x (.single hx)

/-- The definition of a name. -/
def structOf (m : Module) (name : String) : StructDef := (m.struct? name).getD ⟨name, []⟩

def enumOf (m : Module) (name : String) : EnumDef := (m.enum? name).getD ⟨name, []⟩

theorem structOf_name (hd : d ∈ m.structs) : m.structOf d.name = d := by
  rw [structOf, struct?_of_mem hd, getD_some]

theorem enumOf_name {d : EnumDef} (hd : d ∈ m.enums) : m.enumOf d.name = d := by
  rw [enumOf, enum?_of_mem hd, getD_some]

theorem foldl_registerStruct (hl : ∀ n ∈ l, n ∈ m.structNames)
    (reg : TypeRegistry) : l.foldl (m.registerStruct w) reg =
      ⟨fill (fun n r => computeStructLayout w (m.structOf n) ⟨r, reg.enums⟩) reg.structs l,
        reg.enums⟩ := by
  induction l generalizing reg with
  | nil => rfl
  | cons n l ih =>
    obtain ⟨d, hd, rfl⟩ := mem_structNames.1 (hl n mem_cons_self)
    have hreg : m.registerStruct w reg d.name =
        ⟨Function.update reg.structs d.name (some (computeStructLayout w d reg)), reg.enums⟩ := by
      rw [registerStruct, struct?_of_mem hd]
    rw [foldl_cons, hreg, ih fun n hn => hl n (mem_cons_of_mem _ hn)]
    simp only [fill, foldl_cons, structOf_name hd]

theorem foldl_registerEnum (hl : ∀ n ∈ l, n ∈ m.enumNames)
    (reg : TypeRegistry) : l.foldl (m.registerEnum w) reg = ⟨reg.structs,
        fill (fun n r => computeEnumLayout w (m.enumOf n) ⟨reg.structs, r⟩) reg.enums l⟩ := by
  induction l generalizing reg with
  | nil => rfl
  | cons n l ih =>
    obtain ⟨d, hd, rfl⟩ := mem_enumNames.1 (hl n mem_cons_self)
    have hreg : m.registerEnum w reg d.name =
        ⟨reg.structs, Function.update reg.enums d.name (some (computeEnumLayout w d reg))⟩ := by
      rw [registerEnum, enum?_of_mem hd]
    rw [foldl_cons, hreg, ih fun n hn => hl n (mem_cons_of_mem _ hn)]
    simp only [fill, foldl_cons, enumOf_name hd]

section
variable (h : m.Plain) {P : String → Prop}

include h

theorem structDeps_spec : (∀ x, (m.structDeps x).Nodup) ∧ Acyclic m.structDeps ∧
    ∀ d ∈ m.structs, ∀ f ∈ d.fields, ∀ n ∈ structsOf f.ty,
      n ∈ (m.structDeps d.name).filter (· ∈ m.structNames) := by
  refine ⟨fun x => ?_, h.structs_acyclic.subset fun a b hb => ?_, ?_⟩
  · unfold structDeps
    cases m.struct? x with
    | none => simp
    | some d => exact (nodup_dedup _).filter _
  · unfold structDeps at hb
    cases hd : m.struct? a with
    | none => simp [hd] at hb
    | some d =>
      simp only [hd, map_some, getD_some, StructDef.deps] at hb ⊢
      exact mem_dedup.1 (mem_filter.1 hb).1
  · intro d hd f hf n hn
    have hraw : n ∈ d.fields.flatMap fun f => typeDeps f.ty :=
      mem_flatMap.2 ⟨f, hf, structsOf_subset_typeDeps f.ty n hn⟩
    have hne : n ≠ d.name := by
      rintro rfl
      refine deps_ne h.structs_acyclic d.name ?_
      simpa [struct?_of_mem hd] using hraw
    have hdeps : n ∈ m.structDeps d.name := by
      simp only [structDeps, struct?_of_mem hd, map_some, getD_some, StructDef.deps]
      exact mem_filter.2 ⟨mem_dedup.2 hraw, by simpa using hne⟩
    exact mem_filter.2 ⟨hdeps, by simpa using (h.structs d hd f hf).structsOf_subset n hn⟩

theorem enumDeps_spec : (∀ x, (m.enumDeps x).Nodup) ∧ Acyclic m.enumDeps ∧
    ∀ d ∈ m.enums, ∀ v ∈ d.variants, ∀ ty ∈ v.payloadTypes, ∀ n ∈ enumsOf ty,
      n ∈ (m.enumDeps d.name).filter (· ∈ m.enumNames) := by
  refine ⟨fun x => ?_, h.enums_acyclic.subset fun a b hb => ?_, ?_⟩
  · unfold enumDeps
    cases m.enum? x with
    | none => simp
    | some d => exact (nodup_dedup _).filter _
  · unfold enumDeps at hb
    cases hd : m.enum? a with
    | none => simp [hd] at hb
    | some d =>
      simp only [hd, map_some, getD_some, EnumDef.deps] at hb ⊢
      exact mem_dedup.1 (mem_filter.1 hb).1
  · intro d hd v hv ty hty n hn
    have hraw : n ∈ d.variants.flatMap fun v => v.payloadTypes.flatMap typeDeps :=
      mem_flatMap.2 ⟨v, hv, mem_flatMap.2 ⟨ty, hty, enumsOf_subset_typeDeps ty n hn⟩⟩
    have hne : n ≠ d.name := by
      rintro rfl
      refine deps_ne h.enums_acyclic d.name ?_
      simpa [enum?_of_mem hd] using hraw
    have hdeps : n ∈ m.enumDeps d.name := by
      simp only [enumDeps, enum?_of_mem hd, map_some, getD_some, EnumDef.deps]
      exact mem_filter.2 ⟨mem_dedup.2 hraw, by simpa using hne⟩
    exact mem_filter.2 ⟨hdeps, by simpa using (h.enums d hd v hv ty hty).enumsOf_subset n hn⟩

theorem structs_induction
    (hP : ∀ d ∈ m.structs, (∀ f ∈ d.fields, ∀ n ∈ structsOf f.ty, P n) → P d.name) :
    ∀ n ∈ m.structNames, P n := by
  obtain ⟨hnodup, hacyclic, hdeps⟩ := structDeps_spec h
  obtain ⟨-, hmem, hordered⟩ := topologicalSort_spec (show m.structNames.Nodup from m.structs_nodup)
    (HashOrder.self m.structNames) hnodup hacyclic
  have hall := hordered.induction (P := P) fun n hn ih => by
    obtain ⟨d, hd, rfl⟩ := mem_structNames.1 ((hmem n).1 hn)
    exact hP d hd fun f hf n hn => ih n (hdeps d hd f hf n hn)
  exact fun n hn => hall n ((hmem n).2 hn)

theorem enums_induction (hP : ∀ d ∈ m.enums,
      (∀ v ∈ d.variants, ∀ ty ∈ v.payloadTypes, ∀ n ∈ enumsOf ty, P n) → P d.name) :
    ∀ n ∈ m.enumNames, P n := by
  obtain ⟨hnodup, hacyclic, hdeps⟩ := enumDeps_spec h
  obtain ⟨-, hmem, hordered⟩ := topologicalSort_spec (show m.enumNames.Nodup from m.enums_nodup)
    (HashOrder.self m.enumNames) hnodup hacyclic
  have hall := hordered.induction (P := P) fun n hn ih => by
    obtain ⟨d, hd, rfl⟩ := mem_enumNames.1 ((hmem n).1 hn)
    exact hP d hd fun v hv ty hty n hn => ih n (hdeps d hd v hv ty hty n hn)
  exact fun n hn => hall n ((hmem n).2 hn)

/-- The registered names, the layout of each computed from all of them. -/
structure Complete (m : Module) (w : Nat → Nat) (reg : TypeRegistry) : Prop where
  structs : ∀ d ∈ m.structs, reg.structs d.name = some (computeStructLayout w d reg)
  enums : ∀ d ∈ m.enums, reg.enums d.name = some (computeEnumLayout w d reg)
  no_struct : ∀ n, n ∉ m.structNames → reg.structs n = none
  no_enum : ∀ n, n ∉ m.enumNames → reg.enums n = none

theorem build_complete (structs : HashOrder m.structNames) (enums : HashOrder m.enumNames) :
    m.Complete w (m.buildTypeRegistry w structs enums) := by
  obtain ⟨hsnodup, hsacyclic, hsdeps⟩ := structDeps_spec h
  obtain ⟨henodup, heacyclic, hedeps⟩ := enumDeps_spec h
  have hs := topologicalSort_spec (show m.structNames.Nodup from m.structs_nodup) structs hsnodup
    hsacyclic
  have he := topologicalSort_spec (show m.enumNames.Nodup from m.enums_nodup) enums henodup
    heacyclic
  unfold buildTypeRegistry
  generalize topologicalSort structs m.structDeps = ls at hs ⊢
  generalize topologicalSort enums m.enumDeps = le at he ⊢
  obtain ⟨hsorder, hsmem, hsordered⟩ := hs
  obtain ⟨heorder, hemem, heordered⟩ := he
  simp only [filter_not_mem structs.defs_perm hsmem, filter_not_mem enums.defs_perm hemem]
  rw [foldl_registerStruct fun n hn => (hsmem n).1 hn,
    foldl_registerEnum fun n hn => (hemem n).1 hn]
  simp only [TypeRegistry.new]
  obtain ⟨S, hS⟩ : ∃ S, S =
    fill (fun n r => computeStructLayout w (m.structOf n) ⟨r, fun _ => none⟩) (fun _ => none) ls :=
      ⟨_, rfl⟩
  rw [← hS]
  -- a struct has no enum in it, so its layout is the same before the enums are registered
  have hfields : ∀ d ∈ m.structs, ∀ f ∈ d.fields, ∀ r e r' e', (∀ n ∈ structsOf f.ty, r n = r' n) →
      typeSizeAlign w ⟨r, e⟩ f.ty = typeSizeAlign w ⟨r', e'⟩ f.ty := by
    intro d hd f hf r e r' e' hr
    exact typeSizeAlign_congr hr fun n hn => absurd hn (h.structs d hd f hf).not_mem_enumsOf
  refine ⟨fun d hd => ?_, fun d hd => ?_, fun n hn => ?_, fun n hn => ?_⟩
  · have hmem : d.name ∈ ls := (hsmem d.name).2 (mem_structNames.2 ⟨d, hd, rfl⟩)
    have hfill := fill_spec (r := fun _ => none) hsorder hsordered
      (f := fun n r => computeStructLayout w (m.structOf n) ⟨r, fun _ => none⟩)
      (fun x hx r r' hr => by
        obtain ⟨d', hd', rfl⟩ := mem_structNames.1 ((hsmem x).1 hx)
        simp only [structOf_name hd']
        exact computeStructLayout_congr fun f hf => hfields d' hd' f hf _ _ _ _ fun n hn =>
          hr n (hsdeps d' hd' f hf n hn)) d.name hmem
    rw [← hS, structOf_name hd] at hfill
    refine hfill.trans ?_
    exact congrArg some
      (computeStructLayout_congr fun f hf => hfields d hd f hf _ _ _ _ fun _ _ => rfl)
  · have hmem : d.name ∈ le := (hemem d.name).2 (mem_enumNames.2 ⟨d, hd, rfl⟩)
    have hfill := fill_spec (r := fun _ => none) heorder heordered
      (f := fun n r => computeEnumLayout w (m.enumOf n) ⟨S, r⟩) (fun x hx r r' hr => by
        obtain ⟨d', hd', rfl⟩ := mem_enumNames.1 ((hemem x).1 hx)
        simp only [enumOf_name hd']
        exact computeEnumLayout_congr fun v hv ty hty => typeSizeAlign_congr (fun _ _ => rfl)
          fun n hn => hr n (hedeps d' hd' v hv ty hty n hn)) d.name hmem
    rwa [enumOf_name hd] at hfill
  · rw [hS]
    exact fill_of_not_mem fun hmem => hn ((hsmem n).1 hmem)
  · exact fill_of_not_mem fun hmem => hn ((hemem n).1 hmem)

end

/-! ## The emitted definitions -/

theorem lookup_of_mem {l : List (String × List LType)} (hl : (l.map (·.1)).Nodup) {k : String}
    {v : List LType} (h : (k, v) ∈ l) : l.lookup k = some v := by
  induction l with
  | nil => exact absurd h not_mem_nil
  | cons e l ih =>
    obtain ⟨k', v'⟩ := e
    obtain ⟨hnot, hrest⟩ := nodup_cons.1 hl
    rcases mem_cons.1 h with he | h
    · cases he
      simp
    · have hmem : k ∈ l.map (·.1) := mem_map.2 ⟨(k, v), h, rfl⟩
      have hne : (k == k') = false := by
        rw [beq_eq_false_iff_ne]
        rintro rfl
        exact hnot hmem
      simp only [List.lookup, hne]
      exact ih hrest h

section
variable {w : Nat → Nat} {reg reg' : TypeRegistry}

theorem emitted_eq (hc : m.Complete w reg) : m.emitted reg =
    (m.structs.map fun d => (llvmName d.name, d.fields.map (typeToLlvm ·.ty))) ++
      m.enums.map fun d => (llvmName d.name, (computeEnumLayout w d reg).llvmTypeDef) := by
  unfold emitted structNames enumNames
  rw [filterMap_map, filterMap_map]
  congr 1
  · rw [← filterMap_eq_map]
    refine filterMap_congr fun d hd => ?_
    simp only [Function.comp_apply, hc.structs d hd]
    rfl
  · rw [← filterMap_eq_map]
    refine filterMap_congr fun d hd => ?_
    simp only [Function.comp_apply, hc.enums d hd]
    rfl

theorem emitted_nodup (h : m.Plain) (hc : m.Complete w reg) :
    ((m.emitted reg).map (·.1)).Nodup := by
  have hnames := h.names
  rw [emitted_eq hc]
  simpa [structNames, enumNames, Function.comp_def] using hnames

variable {d : StructDef}

theorem definition_struct (h : m.Plain) (hc : m.Complete w reg) (hd : d ∈ m.structs) :
    m.definition reg (llvmName d.name) = some (d.fields.map (typeToLlvm ·.ty)) := by
  refine lookup_of_mem (emitted_nodup h hc) ?_
  rw [emitted_eq hc]
  exact mem_append_left _ (mem_map.2 ⟨d, hd, rfl⟩)

theorem definition_enum (h : m.Plain) (hc : m.Complete w reg) {d : EnumDef} (hd : d ∈ m.enums) :
    m.definition reg (llvmName d.name) = some (computeEnumLayout w d reg).llvmTypeDef := by
  refine lookup_of_mem (emitted_nodup h hc) ?_
  rw [emitted_eq hc]
  exact mem_append_right _ (mem_map.2 ⟨d, hd, rfl⟩)

variable {n align : Nat} {l : Layout}

theorem alignUp_eq (h : 0 < align) : alignUp id n align = alignTo n align := by
  unfold alignUp alignTo
  rw [if_neg (by omega)]
  rfl

/-- The computed size and alignment of a type are those of the type emitted for it. -/
def Sound (m : Module) (reg : TypeRegistry) (ty : Ty) : Prop :=
  Assigns (m.definition reg) (typeToLlvm ty) (typeSizeAlign id reg ty) ∧
    0 < (typeSizeAlign id reg ty).align

theorem record_optional (h : 0 < l.align) : record [⟨1, 1⟩, l] =
    ⟨alignUp id (alignUp id 1 l.align + l.size) l.align, max l.align 1⟩ := by
  have hzero : alignTo 0 1 = 0 := rfl
  have hmax : max (max 1 1) l.align = l.align := by omega
  have hmax' : max l.align 1 = l.align := by omega
  simp only [record, endAt, maxAlign, foldl_cons, foldl_nil, hzero, hmax, hmax',
    alignUp_eq h, zero_add]

variable {ty : Ty} {ls : List Layout}

theorem Sound.of_names (hty : m.Defined withEnums ty)
    (hs : ∀ n ∈ structsOf ty, m.Sound reg (.struct n))
    (he : ∀ n ∈ enumsOf ty, m.Sound reg (.enum n)) : m.Sound reg ty := by
  induction ty with
  | i64 | f64 | i1 | ptr | string => exact ⟨⟨0, rfl⟩, by simp [typeSizeAlign]⟩
  | void => exact absurd hty (by simp [Defined])
  | struct name => exact hs name mem_cons_self
  | enum name => exact he name mem_cons_self
  | optional inner ih =>
    obtain ⟨hassigns, hpos⟩ := ih hty hs he
    have hpair := Assigns.pair (⟨0, rfl⟩ : Assigns (m.definition reg) .i8 ⟨1, 1⟩) hassigns
    rw [record_optional hpos] at hpair
    exact ⟨hpair, by simp only [typeSizeAlign]; omega⟩

/-! ## Structs -/

def fieldLayouts (w : Nat → Nat) (reg : TypeRegistry) (d : StructDef) : List Layout :=
  d.fields.map fun f => typeSizeAlign w reg f.ty

theorem placeFields_align (fields : List FieldDef) (idx offset align : Nat) :
    (placeFields w reg idx offset align fields).2.2 =
      maxAlign align (fields.map fun f => typeSizeAlign w reg f.ty) := by
  induction fields generalizing idx offset align with
  | nil => rfl
  | cons field fields ih => exact ih _ _ _

theorem placeFields_spec {fields : List FieldDef}
    (h : ∀ f ∈ fields, 0 < (typeSizeAlign id reg f.ty).align) (idx offset align : Nat) :
    (placeFields id reg idx offset align fields).1.map (·.byteOffset) =
        offsets offset (fields.map fun f => typeSizeAlign id reg f.ty) ∧
      (placeFields id reg idx offset align fields).2.1 =
        endAt offset (fields.map fun f => typeSizeAlign id reg f.ty) := by
  induction fields generalizing idx offset align with
  | nil => exact ⟨rfl, rfl⟩
  | cons field fields ih =>
    have hpos := h field mem_cons_self
    obtain ⟨hoff, hend⟩ := ih (fun f hf => h f (mem_cons_of_mem _ hf)) (idx + 1)
      (alignUp id offset (typeSizeAlign id reg field.ty).align +
        (typeSizeAlign id reg field.ty).size)
      (max align (typeSizeAlign id reg field.ty).align)
    rw [alignUp_eq hpos] at hoff hend
    simp only [placeFields, map_cons, offsets, endAt, id_eq, hoff, hend, alignUp_eq hpos, and_self]

theorem struct_alignment (hc : m.Complete w reg) (hd : d ∈ m.structs) :
    (typeSizeAlign w reg (.struct d.name)).align = maxAlign 1 (fieldLayouts w reg d) := by
  simp only [typeSizeAlign, hc.structs d hd, map_some, getD_some]
  exact placeFields_align _ _ _ _

theorem struct_record (h : ∀ f ∈ d.fields, 0 < (typeSizeAlign id reg f.ty).align) :
    (computeStructLayout id d reg).size = (record (fieldLayouts id reg d)).size ∧
      (computeStructLayout id d reg).alignment = (record (fieldLayouts id reg d)).align ∧
      (computeStructLayout id d reg).fields.map (·.byteOffset) =
        offsets 0 (fieldLayouts id reg d) := by
  obtain ⟨hoff, hend⟩ := placeFields_spec h 0 0 1
  have halign : (placeFields id reg 0 0 1 d.fields).2.2 = maxAlign 1 (fieldLayouts id reg d) :=
    placeFields_align d.fields 0 0 1
  have hpos : 0 < maxAlign 1 (fieldLayouts id reg d) := le_maxAlign 1 _
  refine ⟨?_, halign, hoff⟩
  simp only [computeStructLayout, halign, hend]
  exact alignUp_eq hpos

theorem struct_assigns (h : ∀ f ∈ d.fields, m.Sound reg f.ty) :
    AssignsAll (m.definition reg) (d.fields.map (typeToLlvm ·.ty)) (fieldLayouts id reg d) :=
  .map fun f hf => (h f hf).1

theorem struct_sound (h : m.Plain) (hc : m.Complete id reg) (hd : d ∈ m.structs)
    (hf : ∀ f ∈ d.fields, m.Sound reg f.ty) : m.Sound reg (.struct d.name) := by
  obtain ⟨hsize, halign, -⟩ := struct_record fun f hm => (hf f hm).2
  have hassigns := Assigns.named (definition_struct h hc hd) (struct_assigns hf)
  have hlayout : typeSizeAlign id reg (.struct d.name) = record (fieldLayouts id reg d) := by
    simp only [typeSizeAlign, hc.structs d hd, map_some, getD_some, hsize, halign]
  refine ⟨hlayout ▸ hassigns, ?_⟩
  rw [struct_alignment hc hd]
  exact le_maxAlign 1 _

theorem structs_sound (h : m.Plain) (hc : m.Complete id reg) :
    ∀ n ∈ m.structNames, m.Sound reg (.struct n) := by
  refine structs_induction h fun d hd ih => struct_sound h hc hd fun f hf => ?_
  exact .of_names (h.structs d hd f hf) (ih f hf) fun n hn =>
    absurd hn (h.structs d hd f hf).not_mem_enumsOf

theorem field_sound (h : m.Plain) (hc : m.Complete id reg) (hd : d ∈ m.structs)
    {f : FieldDef} (hf : f ∈ d.fields) : m.Sound reg f.ty := by
  have hdef := h.structs d hd f hf
  exact .of_names hdef (fun n hn => structs_sound h hc n (hdef.structsOf_subset n hn))
    fun n hn => absurd hn hdef.not_mem_enumsOf

theorem struct_agrees (h : m.Plain) (hc : m.Complete id reg) (hd : d ∈ m.structs) :
    (computeStructLayout id d reg).Agrees (m.definition reg) := by
  have hsound : ∀ f ∈ d.fields, m.Sound reg f.ty := fun f hf => field_sound h hc hd hf
  exact ⟨fieldLayouts id reg d, struct_assigns hsound, struct_record fun f hf => (hsound f hf).2⟩

/-! ## Enums -/

theorem payload_spec (h : ∀ ty ∈ tys, 0 < (typeSizeAlign id reg ty).align) :
    payload id reg tys = ⟨endAt 0 (tys.map (typeSizeAlign id reg)),
      maxAlign 1 (tys.map (typeSizeAlign id reg))⟩ := by
  have hfold : ∀ n a, tys.foldl (fun p ty =>
        (⟨alignUp id p.size (typeSizeAlign id reg ty).align + (typeSizeAlign id reg ty).size,
          max p.align (typeSizeAlign id reg ty).align⟩ : Layout)) ⟨n, a⟩ =
      ⟨endAt n (tys.map (typeSizeAlign id reg)), maxAlign a (tys.map (typeSizeAlign id reg))⟩ := by
    induction tys with
    | nil => exact fun n a => rfl
    | cons ty tys ih =>
      intro n a
      rw [foldl_cons, alignUp_eq (h ty mem_cons_self),
        ih fun ty hty => h ty (mem_cons_of_mem _ hty)]
      rfl
  exact hfold 0 1

theorem payload_align (tys : List Ty) :
    (payload w reg tys).align = maxAlign 1 (tys.map (typeSizeAlign w reg)) := by
  have hfold : ∀ p : Layout, (tys.foldl (fun p ty =>
        (⟨w (alignUp w p.size (typeSizeAlign w reg ty).align + (typeSizeAlign w reg ty).size),
          max p.align (typeSizeAlign w reg ty).align⟩ : Layout)) p).align =
      maxAlign p.align (tys.map (typeSizeAlign w reg)) := by
    induction tys with
    | nil => exact fun p => rfl
    | cons ty tys ih => exact fun p => ih _
  exact hfold ⟨0, 1⟩

/-- The payloads of the variants. -/
def payloads (w : Nat → Nat) (reg : TypeRegistry) (d : EnumDef) : List Layout :=
  d.variants.map fun v => payload w reg v.payloadTypes

theorem enum_alignment (hc : m.Complete w reg) {d : EnumDef} (hd : d ∈ m.enums) :
    (typeSizeAlign w reg (.enum d.name)).align = max 4 (maxAlign 1 (payloads w reg d)) := by
  simp only [typeSizeAlign, hc.enums d hd, map_some, getD_some]
  rfl

theorem le_foldl_max (n : Nat) (hl : l ∈ ls) : l.size ≤ ls.foldl (fun n p => max n p.size) n := by
  have hstart : ∀ (ls : List Layout) (n : Nat), n ≤ ls.foldl (fun n p => max n p.size) n := by
    intro ls
    induction ls with
    | nil => exact fun n => le_rfl
    | cons l ls ih => exact fun n => le_trans (le_max_left _ _) (ih _)
  induction ls generalizing n with
  | nil => exact absurd hl not_mem_nil
  | cons l' ls ih =>
    rcases mem_cons.1 hl with rfl | hl
    · exact le_trans (le_max_right _ _) (hstart ls _)
    · exact ih _ hl

/-- A byte or a word. -/
def IsSmall (align : Nat) : Prop := align = 1 ∨ align = 4

theorem enum_record {d : EnumDef} (h : IsSmall (maxAlign 1 (payloads id reg d))) :
    ∃ ls, AssignsAll (m.definition reg) (computeEnumLayout id d reg).llvmTypeDef ls ∧
      (computeEnumLayout id d reg).size = (record ls).size ∧
      (computeEnumLayout id d reg).alignment = (record ls).align := by
  obtain ⟨n, hn⟩ : ∃ n, n = (payloads id reg d).foldl (fun n p => max n p.size) 0 := ⟨_, rfl⟩
  obtain ⟨a, ha⟩ : ∃ a, a = maxAlign 1 (payloads id reg d) := ⟨_, rfl⟩
  have hdef : (computeEnumLayout id d reg).llvmTypeDef =
      if 0 < n then [.i32, .bytes n] else [.i32] := by rw [hn]; rfl
  have hsize : (computeEnumLayout id d reg).size = alignUp id (alignUp id 4 a + n) (max 4 a) := by
    rw [hn, ha]
    rfl
  have halign : (computeEnumLayout id d reg).alignment = max 4 a := by rw [ha]; rfl
  rw [← ha] at h
  have hmax : max 4 a = 4 := by rcases h with rfl | rfl <;> rfl
  have hup : alignUp id 4 a = 4 := by rcases h with rfl | rfl <;> rfl
  have hword : Assigns (m.definition reg) .i32 ⟨4, 4⟩ := ⟨0, rfl⟩
  have hbytes : Assigns (m.definition reg) (.bytes n) ⟨n, 1⟩ := ⟨0, rfl⟩
  rw [hdef, hsize, halign, hmax, hup]
  by_cases hpos : 0 < n
  · rw [if_pos hpos]
    have h4 : alignTo (alignTo 0 4 + 4) 1 = 4 := rfl
    refine ⟨[⟨4, 4⟩, ⟨n, 1⟩], .cons hword (.cons hbytes .nil), ?_, rfl⟩
    simp only [record, endAt, h4]
    exact alignUp_eq (by decide)
  · have hzero : n = 0 := by omega
    rw [if_neg hpos, hzero]
    exact ⟨[⟨4, 4⟩], .cons hword .nil, rfl, rfl⟩

theorem narrow_small (hc : m.Complete id reg) (h : m.Plain) (hn : m.Narrow ty)
    (he : ∀ n ∈ enumsOf ty, (typeSizeAlign id reg (.enum n)).align = 4) :
    IsSmall (typeSizeAlign id reg ty).align := by
  induction hn with
  | bool => exact .inl rfl
  | enum name => exact .inr (he name mem_cons_self)
  | optional _ ih =>
    rcases ih he with hi | hi
    · exact .inl (by simp [typeSizeAlign, hi])
    · exact .inr (by simp [typeSizeAlign, hi])
  | @struct d hd _ ih =>
    rw [struct_alignment hc hd]
    refine maxAlign_induction (.inl rfl) fun l hl => ?_
    obtain ⟨f, hf, rfl⟩ := mem_map.1 hl
    exact ih f hf fun n hn => absurd hn (h.structs d hd f hf).not_mem_enumsOf

theorem payloads_small {d : EnumDef}
    (h : ∀ v ∈ d.variants, ∀ ty ∈ v.payloadTypes, IsSmall (typeSizeAlign id reg ty).align) :
    IsSmall (maxAlign 1 (payloads id reg d)) := by
  refine maxAlign_induction (.inl rfl) fun p hp => ?_
  obtain ⟨v, hv, rfl⟩ := mem_map.1 hp
  rw [payload_align]
  refine maxAlign_induction (.inl rfl) fun l hl => ?_
  obtain ⟨ty, hty, rfl⟩ := mem_map.1 hl
  exact h v hv ty hty

theorem variant_fits {d : EnumDef} {v : VariantDef} (hv : v ∈ d.variants)
    (hsound : ∀ ty ∈ v.payloadTypes, m.Sound reg ty)
    (hsmall : ∀ ty ∈ v.payloadTypes, IsSmall (typeSizeAlign id reg ty).align) (tag size : Nat) :
    (VariantLayout.mk v.name tag v.payloadTypes size).Fits (m.definition reg)
      (computeEnumLayout id d reg).tagSize (computeEnumLayout id d reg).maxPayloadSize := by
  refine ⟨v.payloadTypes.map (typeSizeAlign id reg), .map fun ty hty => (hsound ty hty).1, ?_, ?_⟩
  · have hle := le_foldl_max 0 (mem_map_of_mem (f := fun v => payload id reg v.payloadTypes) hv)
    rwa [payload_spec fun ty hty => (hsound ty hty).2] at hle
  · intro i l off hl hoff
    have hmem := mem_of_getElem? hl
    obtain ⟨ty, hty, rfl⟩ := mem_map.1 hmem
    have htag : (typeSizeAlign id reg ty).align ∣ (computeEnumLayout id d reg).tagSize := by
      rcases hsmall ty hty with h | h
      · rw [h]
        exact one_dvd _
      · rw [h]
        exact dvd_rfl
    exact Nat.dvd_add htag (dvd_offsets hl hoff)

theorem enum_sound (h : m.Plain) (hc : m.Complete id reg) {d : EnumDef} (hd : d ∈ m.enums)
    (hsound : ∀ v ∈ d.variants, ∀ ty ∈ v.payloadTypes, m.Sound reg ty)
    (hsmall : ∀ v ∈ d.variants, ∀ ty ∈ v.payloadTypes, IsSmall (typeSizeAlign id reg ty).align) :
    (m.Sound reg (.enum d.name) ∧ (typeSizeAlign id reg (.enum d.name)).align = 4) ∧
      (computeEnumLayout id d reg).Agrees (m.definition reg) := by
  have hmax := payloads_small hsmall
  obtain ⟨ls, hassigns, hsize, halign⟩ := enum_record (m := m) hmax
  have hlayout : typeSizeAlign id reg (.enum d.name) = record ls := by
    simp only [typeSizeAlign, hc.enums d hd, map_some, getD_some, hsize, halign]
  have hfour : (typeSizeAlign id reg (.enum d.name)).align = 4 := by
    rw [enum_alignment hc hd]
    rcases hmax with hm | hm <;> rw [hm] <;> rfl
  refine ⟨⟨⟨?_, by omega⟩, hfour⟩, ⟨ls, hassigns, hsize, halign⟩, fun v hv => ?_⟩
  · rw [hlayout]
    exact Assigns.named (definition_enum h hc hd) hassigns
  · obtain ⟨⟨v', tag⟩, hv', rfl⟩ := mem_map.1 hv
    have hmem : v' ∈ d.variants := fst_mem_of_mem_zipIdx hv'
    exact variant_fits hmem (hsound v' hmem) (hsmall v' hmem) _ _

theorem enums_agree (h : m.Plain) (hb : m.Bytes) (hc : m.Complete id reg) :
    ∀ d ∈ m.enums, (computeEnumLayout id d reg).Agrees (m.definition reg) := by
  have hpayload : ∀ d ∈ m.enums, (∀ v ∈ d.variants, ∀ ty ∈ v.payloadTypes, ∀ n ∈ enumsOf ty,
      m.Sound reg (.enum n) ∧ (typeSizeAlign id reg (.enum n)).align = 4) →
      (m.Sound reg (.enum d.name) ∧ (typeSizeAlign id reg (.enum d.name)).align = 4) ∧
        (computeEnumLayout id d reg).Agrees (m.definition reg) := by
    intro d hd ih
    refine enum_sound h hc hd (fun v hv ty hty => ?_) fun v hv ty hty => ?_
    · have hdef := h.enums d hd v hv ty hty
      exact .of_names hdef (fun n hn => structs_sound h hc n (hdef.structsOf_subset n hn))
        fun n hn => (ih v hv ty hty n hn).1
    · exact narrow_small hc h (hb d hd v hv ty hty) fun n hn => (ih v hv ty hty n hn).2
  have hall := enums_induction h fun d hd ih => (hpayload d hd ih).1
  intro d hd
  refine (hpayload d hd fun v hv ty hty n hn => ?_).2
  exact hall n ((h.enums d hd v hv ty hty).enumsOf_subset n hn)

theorem agrees (h : m.Plain) (hb : m.Bytes) (hc : m.Complete id reg) : m.Agrees reg where
  distinct := emitted_nodup h hc
  structs := fun d hd => ⟨_, hc.structs d hd, struct_agrees h hc hd⟩
  enums := fun d hd => ⟨_, hc.enums d hd, enums_agree h hb hc d hd⟩

/-- The layouts are determined by the definitions, and by what is kept of a sum where it makes a
difference for them. -/
theorem Complete.unique {w' : Nat → Nat} (h : m.Plain) (hc : m.Complete w reg)
    (hc' : m.Complete w' reg')
    (hsw : ∀ d ∈ m.structs, computeStructLayout w d reg' = computeStructLayout w' d reg')
    (hew : ∀ d ∈ m.enums, computeEnumLayout w d reg' = computeEnumLayout w' d reg') :
    reg = reg' := by
  have hs := structs_induction h (P := fun n => reg.structs n = reg'.structs n) fun d hd ih => by
    rw [hc.structs d hd, hc'.structs d hd, ← hsw d hd]
    refine congrArg some (computeStructLayout_congr fun f hf => ?_)
    exact typeSizeAlign_congr (ih f hf) fun n hn =>
      absurd hn (h.structs d hd f hf).not_mem_enumsOf
  have hstructs : ∀ n, reg.structs n = reg'.structs n := by
    intro n
    by_cases hn : n ∈ m.structNames
    · exact hs n hn
    · rw [hc.no_struct n hn, hc'.no_struct n hn]
  have he := enums_induction h (P := fun n => reg.enums n = reg'.enums n) fun d hd ih => by
    rw [hc.enums d hd, hc'.enums d hd, ← hew d hd]
    refine congrArg some (computeEnumLayout_congr fun v hv ty hty => ?_)
    exact typeSizeAlign_congr (fun n _ => hstructs n) (ih v hv ty hty)
  have henums : ∀ n, reg.enums n = reg'.enums n := by
    intro n
    by_cases hn : n ∈ m.enumNames
    · exact he n hn
    · rw [hc.no_enum n hn, hc'.no_enum n hn]
  exact TypeRegistry.ext (funext hstructs) (funext henums)

/-! ## Sums that fit -/

theorem u32_of_lt (h : n < 2 ^ 32) : u32 n = n := Nat.mod_eq_of_lt h

theorem le_alignUp (n align : Nat) : n ≤ alignUp id n align := by
  unfold alignUp
  split_ifs with hne
  · exact le_rfl
  · have hdiv := Nat.div_add_mod (n + align - 1) align
    have hmod := Nat.mod_lt (n + align - 1) (pos_of_ne_zero hne)
    rw [mul_comm] at hdiv
    simp only [id_eq]
    omega

theorem alignUp_fits (h : alignUp id n align < 2 ^ 32) :
    alignUp u32 n align = alignUp id n align := by
  unfold alignUp at h ⊢
  by_cases hzero : align = 0
  · rw [if_pos hzero, if_pos hzero]
  · rw [if_neg hzero] at h ⊢
    rw [if_neg hzero]
    exact u32_of_lt h

theorem typeSizeAlign_fits (h : (typeSizeAlign id reg ty).size < 2 ^ 32) :
    typeSizeAlign u32 reg ty = typeSizeAlign id reg ty := by
  induction ty with
  | optional inner ih =>
    simp only [typeSizeAlign, id_eq] at h ⊢
    have hsum := le_alignUp (alignUp id 1 (typeSizeAlign id reg inner).align +
      (typeSizeAlign id reg inner).size) (typeSizeAlign id reg inner).align
    have hone : alignUp id 1 (typeSizeAlign id reg inner).align < 2 ^ 32 := by omega
    rw [ih (by omega), alignUp_fits hone, u32_of_lt (by omega), alignUp_fits h]
  | _ => rfl

theorem le_placeFields (fields : List FieldDef) (idx offset align : Nat) :
    offset ≤ (placeFields id reg idx offset align fields).2.1 := by
  induction fields generalizing idx offset align with
  | nil => exact le_rfl
  | cons field fields ih =>
    refine le_trans (le_trans (le_alignUp offset _) (Nat.le_add_right _ _)) (ih _ _ _)

theorem placeFields_fits {fields : List FieldDef} {idx offset : Nat}
    (h : (placeFields id reg idx offset align fields).2.1 < 2 ^ 32) :
    placeFields u32 reg idx offset align fields = placeFields id reg idx offset align fields := by
  induction fields generalizing idx offset align with
  | nil => rfl
  | cons field fields ih =>
    simp only [placeFields, id_eq] at h ⊢
    have hend := lt_of_le_of_lt (le_placeFields _ _ _ _) h
    have htype : typeSizeAlign u32 reg field.ty = typeSizeAlign id reg field.ty :=
      typeSizeAlign_fits (by omega)
    have hoff : alignUp id offset (typeSizeAlign id reg field.ty).align < 2 ^ 32 := by omega
    rw [htype, alignUp_fits hoff, u32_of_lt hend, ih h]

theorem computeStructLayout_fits (h : (computeStructLayout id d reg).size < 2 ^ 32) :
    computeStructLayout u32 d reg = computeStructLayout id d reg := by
  have hsize : alignUp id (placeFields id reg 0 0 1 d.fields).2.1
    (placeFields id reg 0 0 1 d.fields).2.2 < 2 ^ 32 := h
  have hend := lt_of_le_of_lt (le_alignUp _ _) hsize
  unfold computeStructLayout
  simp only [placeFields_fits hend, alignUp_fits hsize]

theorem payload_concat (w : Nat → Nat) (tys : List Ty) (ty : Ty) : payload w reg (tys ++ [ty]) =
    ⟨w (alignUp w (payload w reg tys).size (typeSizeAlign w reg ty).align +
        (typeSizeAlign w reg ty).size),
      max (payload w reg tys).align (typeSizeAlign w reg ty).align⟩ := by
  unfold payload
  rw [foldl_append]
  rfl

theorem payload_fits (h : (payload id reg tys).size < 2 ^ 32) :
    payload u32 reg tys = payload id reg tys := by
  induction tys using List.reverseRecOn with
  | nil => rfl
  | append_singleton tys ty ih =>
    rw [payload_concat] at h ⊢
    rw [payload_concat]
    simp only [id_eq] at h ⊢
    have hle := le_alignUp (payload id reg tys).size (typeSizeAlign id reg ty).align
    have htype : typeSizeAlign u32 reg ty = typeSizeAlign id reg ty :=
      typeSizeAlign_fits (by omega)
    rw [ih (by omega), htype, alignUp_fits (by omega), u32_of_lt h]

theorem computeEnumLayout_fits {d : EnumDef} (h : (computeEnumLayout id d reg).size < 2 ^ 32) :
    computeEnumLayout u32 d reg = computeEnumLayout id d reg := by
  obtain ⟨n, hn⟩ : ∃ n, n = (payloads id reg d).foldl (fun n p => max n p.size) 0 := ⟨_, rfl⟩
  obtain ⟨a, ha⟩ : ∃ a, a = maxAlign 1 (payloads id reg d) := ⟨_, rfl⟩
  have hsize : alignUp id (alignUp id 4 a + n) (max 4 a) < 2 ^ 32 := by
    rw [hn, ha]
    exact h
  have hsum := le_alignUp (alignUp id 4 a + n) (max 4 a)
  have hfour : alignUp id 4 a < 2 ^ 32 := by omega
  have hpay : ∀ v ∈ d.variants, payload u32 reg v.payloadTypes = payload id reg v.payloadTypes := by
    intro v hv
    have hle := le_foldl_max 0
      (mem_map_of_mem (f := fun v : VariantDef => payload id reg v.payloadTypes) hv)
    have hle' : (payload id reg v.payloadTypes).size ≤ n := hn ▸ hle
    exact payload_fits (by omega)
  have hmap : payloads u32 reg d = payloads id reg d := map_congr_left hpay
  have hzip : d.variants.zipIdx.map (variantLayout u32 reg) =
      d.variants.zipIdx.map (variantLayout id reg) := by
    refine map_congr_left fun v hv => ?_
    unfold variantLayout
    rw [hpay v.1 (fst_mem_of_mem_zipIdx hv)]
  have htotal : alignUp u32 (u32 (alignUp u32 4 a + n)) (max 4 a) =
      alignUp id (id (alignUp id 4 a + n)) (max 4 a) := by
    rw [alignUp_fits hfour, u32_of_lt (by omega), alignUp_fits hsize]
    rfl
  unfold payloads at hmap hn ha
  unfold computeEnumLayout
  rw [hmap, hzip]
  unfold maxAlign at ha
  dsimp only
  rw [← hn, ← ha, htotal]

/-! ## Why the payloads have to be narrow -/

theorem narrow_of_le (hty : m.Defined withEnums ty)
    (hs : ∀ n ∈ structsOf ty, (typeSizeAlign w reg (.struct n)).align ≤ 4 → m.Narrow (.struct n))
    (hle : (typeSizeAlign w reg ty).align ≤ 4) : m.Narrow ty := by
  induction ty with
  | i64 | f64 | ptr | string => exact absurd hle (by simp [typeSizeAlign])
  | i1 => exact .bool
  | void => exact absurd hty (by simp [Defined])
  | struct name => exact hs name mem_cons_self hle
  | enum name => exact .enum name
  | optional inner ih =>
    refine .optional (ih hty hs ?_)
    simp only [typeSizeAlign] at hle
    omega

theorem structs_narrow (h : m.Plain) (hc : m.Complete w reg) : ∀ n ∈ m.structNames,
    (typeSizeAlign w reg (.struct n)).align ≤ 4 → m.Narrow (.struct n) := by
  refine structs_induction h fun d hd ih hle => ?_
  rw [struct_alignment hc hd] at hle
  refine .struct hd fun f hf => narrow_of_le (h.structs d hd f hf) (ih f hf) ?_
  have hfield := le_maxAlign_of_mem 1
    (mem_map_of_mem (f := fun f : FieldDef => typeSizeAlign w reg f.ty) hf)
  exact le_trans hfield hle

theorem enum_record_align {defs : String → Option (List LType)} {d : EnumDef}
    (h : AssignsAll defs (computeEnumLayout w d reg).llvmTypeDef ls) : (record ls).align = 4 := by
  obtain ⟨fuel, h⟩ := h
  simp only [computeEnumLayout] at h
  split at h
  · simp [layoutsIn, layoutIn] at h
    rw [← h]
    rfl
  · simp [layoutsIn, layoutIn] at h
    rw [← h]
    rfl

theorem bytes_of_agrees (h : m.Plain) (hc : m.Complete w reg) (ha : m.Agrees reg) : m.Bytes := by
  intro d hd v hv ty hty
  obtain ⟨l, hl, ⟨ls, hassigns, -, halign⟩, -⟩ := ha.enums d hd
  obtain rfl : computeEnumLayout w d reg = l := some.inj ((hc.enums d hd).symm.trans hl)
  rw [enum_record_align hassigns] at halign
  have hmax : max 4 (maxAlign 1 (payloads w reg d)) = 4 := halign
  have hpayload := le_maxAlign_of_mem 1
    (mem_map_of_mem (f := fun v : VariantDef => payload w reg v.payloadTypes) hv)
  rw [payload_align] at hpayload
  have helem := le_maxAlign_of_mem 1 (mem_map_of_mem (f := typeSizeAlign w reg) hty)
  have hdef := h.enums d hd v hv ty hty
  refine narrow_of_le hdef (fun n hn => structs_narrow h hc n (hdef.structsOf_subset n hn)) ?_
  exact le_trans helem (le_trans hpayload (le_trans (le_max_right 4 _) hmax.le))

end

theorem bytes_of_native (h : m.Plain) (hn : m.Native) : m.Bytes :=
  bytes_of_agrees h (build_complete h (.self _) (.self _)) (hn.1 _ _)

theorem build_fits (h : m.Plain) (hsmall : m.Small) (structs structs' : HashOrder m.structNames)
    (enums enums' : HashOrder m.enumNames) :
    m.buildTypeRegistry u32 structs enums = m.buildTypeRegistry id structs' enums' := by
  have hc' := build_complete h (w := id) structs' enums'
  obtain ⟨hs, he⟩ := hsmall structs' enums'
  refine Complete.unique h (build_complete h structs enums) hc' (fun d hd => ?_) fun d hd => ?_
  · exact computeStructLayout_fits (hs d.name _ (hc'.structs d hd))
  · exact computeEnumLayout_fits (he d.name _ (hc'.enums d hd))

/-- **Native layouts.** In a module whose types are defined, without enums in structs, without
recursion and of less than 2^32 bytes, the layouts are those of the emitted types if and only if
the variants of its enums hold booleans and enums only. -/
theorem native_iff (h : m.Plain) (hsmall : m.Small) : m.Native ↔ m.Bytes := by
  constructor
  · exact bytes_of_native h
  · intro hb
    refine ⟨fun structs enums => ?_, fun structs enums structs' enums' => ?_⟩
    · rw [build_fits h hsmall structs structs enums enums]
      exact agrees h hb (build_complete h structs enums)
    · rw [build_fits h hsmall structs structs enums enums,
        build_fits h hsmall structs' structs enums' enums]

/-- A struct of a flag, a count and a value, and an enum with a flag. -/
def mixed : Module where
  structs := [⟨"Mixed", [⟨"flag", .i1⟩, ⟨"count", .i64⟩, ⟨"value", .f64⟩]⟩]
  enums := [⟨"Switch", [⟨"Off", []⟩, ⟨"On", [.i1]⟩]⟩]
  structs_nodup := by decide
  enums_nodup := by decide

/-- The enum `Option`, whose `Some` holds an integer. -/
def optionModule : Module where
  structs := []
  enums := [⟨"Option", [⟨"None", []⟩, ⟨"Some", [.i64]⟩]⟩]
  structs_nodup := by decide
  enums_nodup := by decide

theorem acyclic_of_empty (h : ∀ x, deps x = []) : Acyclic deps := by
  have hno : ∀ x y, ¬ Relation.TransGen (fun a b => b ∈ deps a) x y := by
    intro x y hxy
    obtain ⟨z, hz, -⟩ := Relation.TransGen.head'_iff.1 hxy
    rw [h x] at hz
    exact not_mem_nil hz
  exact fun x => hno x x

theorem mixed_plain : mixed.Plain where
  names := by decide
  structs := by simp [mixed, Defined]
  enums := by simp [mixed, Defined]
  structs_acyclic := acyclic_of_empty fun x => by
    simp only [mixed, struct?, List.find?]
    split <;> simp [typeDeps]
  enums_acyclic := acyclic_of_empty fun x => by
    simp only [mixed, enum?, List.find?]
    split <;> simp [typeDeps]

theorem optionModule_plain : optionModule.Plain where
  names := by decide
  structs := by simp [optionModule]
  enums := by simp [optionModule, Defined]
  structs_acyclic := acyclic_of_empty fun x => by simp [optionModule, struct?]
  enums_acyclic := acyclic_of_empty fun x => by
    simp only [optionModule, enum?, List.find?]
    split <;> simp [typeDeps]

theorem mixed_small : mixed.Small := by
  intro structs enums
  have hc := build_complete mixed_plain (w := id) structs enums
  constructor
  · intro name l hl
    by_cases hn : name ∈ mixed.structNames
    · obtain rfl : name = "Mixed" := by simpa [mixed, structNames] using hn
      have hs := hc.structs ⟨"Mixed", [⟨"flag", .i1⟩, ⟨"count", .i64⟩, ⟨"value", .f64⟩]⟩
        (by simp [mixed])
      cases hs.symm.trans hl
      simp [computeStructLayout, placeFields, typeSizeAlign, alignUp]
    · rw [hc.no_struct name hn] at hl
      cases hl
  · intro name l hl
    by_cases hn : name ∈ mixed.enumNames
    · obtain rfl : name = "Switch" := by simpa [mixed, enumNames] using hn
      have hs := hc.enums ⟨"Switch", [⟨"Off", []⟩, ⟨"On", [.i1]⟩]⟩ (by simp [mixed])
      cases hs.symm.trans hl
      simp [computeEnumLayout, payload, typeSizeAlign, alignUp]
    · rw [hc.no_enum name hn] at hl
      cases hl

theorem mixed_native : mixed.Native :=
  (native_iff mixed_plain mixed_small).2 fun d hd v hv ty hty => by
    simp only [mixed, List.mem_singleton] at hd
    subst hd
    have hi1 : ty = .i1 := by
      simp only [List.mem_cons, List.not_mem_nil, or_false] at hv
      rcases hv with rfl | rfl
      · exact absurd hty List.not_mem_nil
      · exact List.mem_singleton.1 hty
    rw [hi1]
    exact .bool

theorem optionModule_not_native : ¬ optionModule.Native := by
  intro hn
  have hnarrow := bytes_of_native optionModule_plain hn ⟨"Option", [⟨"None", []⟩, ⟨"Some", [.i64]⟩]⟩
    (by simp [optionModule]) ⟨"Some", [.i64]⟩ (by simp) .i64 (by simp)
  cases hnarrow

end Module

end Arth.LlvmTypes
