import Arth.Ir.Syntax
import Arth.Lib.DataLayout
import Arth.Lib.Worklist

/-!
# Native layouts of structs and enums

* `computeStructLayout`, `computeEnumLayout` — size, alignment, offsets, and the type emitted.
* `buildTypeRegistry` — the definitions of a module, registered in the order of what they depend
  on; the maps of names are iterated in any order.
* `Agrees` — the layouts are those of the emitted types.
* `Native` — they are in whatever order the maps are iterated, and always the same.
-/

namespace Arth.LlvmTypes

open Ir DataLayout Worklist

/-! ## Definitions and layouts -/

structure FieldDef where
  name : String
  ty : Ty

structure StructDef where
  name : String
  fields : List FieldDef

structure VariantDef where
  name : String
  payloadTypes : List Ty

structure EnumDef where
  name : String
  variants : List VariantDef

structure FieldLayout where
  name : String
  llvmTy : LType
  byteOffset : Nat
  llvmIndex : Nat
  size : Nat
  align : Nat

structure StructLayout where
  name : String
  llvmTypeName : String
  llvmTypeDef : List LType
  fields : List FieldLayout
  size : Nat
  alignment : Nat

structure VariantLayout where
  name : String
  tag : Nat
  payloadTypes : List Ty
  payloadSize : Nat

structure EnumLayout where
  name : String
  llvmTypeName : String
  llvmTypeDef : List LType
  variants : List VariantLayout
  size : Nat
  alignment : Nat
  tagSize : Nat
  maxPayloadSize : Nat

@[ext]
structure TypeRegistry where
  structs : String → Option StructLayout
  enums : String → Option EnumLayout

def TypeRegistry.new : TypeRegistry := ⟨fun _ => none, fun _ => none⟩

/-- `format!("%{}", sanitize_llvm_name(name))`. -/
def llvmName (name : String) : String :=
  "%" ++ String.ofList (name.toList.map fun c => if c = '.' ∨ c = ':' then '_' else c)

/-! ## Computing layouts

`word` is what is kept of a sum: the code keeps a `u32`, with the identity in its place the sums
have no limit. -/

def u32 (n : Nat) : Nat := n % 2 ^ 32

section
variable (word : Nat → Nat)

def alignUp (value align : Nat) : Nat :=
  if align = 0 then value else word ((value + align - 1) / align * align)

/-- `type_size_align`. What is not registered is taken for a pointer or an integer. -/
def typeSizeAlign (registry : TypeRegistry) : Ty → Layout
  | .i64 => ⟨8, 8⟩
  | .f64 => ⟨8, 8⟩
  | .i1 => ⟨1, 1⟩
  | .ptr => ⟨8, 8⟩
  | .string => ⟨16, 8⟩
  | .void => ⟨0, 1⟩
  | .struct name => ((registry.structs name).map fun l => ⟨l.size, l.alignment⟩).getD ⟨8, 8⟩
  | .enum name => ((registry.enums name).map fun l => ⟨l.size, l.alignment⟩).getD ⟨8, 8⟩
  | .optional inner =>
    let l := typeSizeAlign registry inner
    ⟨alignUp word (word (alignUp word 1 l.align + l.size)) l.align, max l.align 1⟩

def typeToLlvm : Ty → LType
  | .i64 => .i64
  | .f64 => .double
  | .i1 => .i8
  | .ptr => .ptr
  | .string => .pair .ptr .i64
  | .void => .void
  | .struct name => .named (llvmName name)
  | .enum name => .named (llvmName name)
  | .optional inner => .pair .i8 (typeToLlvm inner)

/-- The loop of `compute_struct_layout` from field `idx` on: the fields, the offset behind the
last one, and the largest alignment. -/
def placeFields (registry : TypeRegistry) :
    Nat → Nat → Nat → List FieldDef → List FieldLayout × Nat × Nat
  | _, offset, maxAlign, [] => ([], offset, maxAlign)
  | idx, offset, maxAlign, field :: fields =>
    let l := typeSizeAlign word registry field.ty
    let offset := alignUp word offset l.align
    let rest :=
      placeFields registry (idx + 1) (word (offset + l.size)) (max maxAlign l.align) fields
    (⟨field.name, typeToLlvm field.ty, offset, idx, l.size, l.align⟩ :: rest.1, rest.2)

def computeStructLayout (d : StructDef) (registry : TypeRegistry) : StructLayout :=
  let placed := placeFields word registry 0 0 1 d.fields
  { name := d.name
    llvmTypeName := llvmName d.name
    llvmTypeDef := d.fields.map (typeToLlvm ·.ty)
    fields := placed.1
    size := alignUp word placed.2.1 placed.2.2
    alignment := placed.2.2 }

/-- The size and the alignment of a variant's payload. -/
def payload (registry : TypeRegistry) (tys : List Ty) : Layout :=
  tys.foldl (fun p ty =>
    let l := typeSizeAlign word registry ty
    ⟨word (alignUp word p.size l.align + l.size), max p.align l.align⟩) ⟨0, 1⟩

/-- The layout of a variant with its tag. -/
def variantLayout (registry : TypeRegistry) (v : VariantDef × Nat) : VariantLayout where
  name := v.1.name
  tag := v.2
  payloadTypes := v.1.payloadTypes
  payloadSize := (payload word registry v.1.payloadTypes).size

def computeEnumLayout (d : EnumDef) (registry : TypeRegistry) : EnumLayout :=
  let payloads := d.variants.map fun v => payload word registry v.payloadTypes
  let maxPayloadSize := payloads.foldl (fun n p => max n p.size) 0
  let maxPayloadAlign := payloads.foldl (fun a p => max a p.align) 1
  let alignment := max 4 maxPayloadAlign
  { name := d.name
    llvmTypeName := llvmName d.name
    llvmTypeDef := if 0 < maxPayloadSize then [.i32, .bytes maxPayloadSize] else [.i32]
    variants := d.variants.zipIdx.map (variantLayout word registry)
    size := alignUp word (word (alignUp word 4 maxPayloadAlign + maxPayloadSize)) alignment
    alignment := alignment
    tagSize := 4
    maxPayloadSize := maxPayloadSize }

end

/-! ## The registry of a module -/

/-- The definitions of a module, one for a name. -/
structure Module where
  structs : List StructDef
  enums : List EnumDef
  structs_nodup : (structs.map (·.name)).Nodup
  enums_nodup : (enums.map (·.name)).Nodup

/-- `extract_type_deps`. -/
def typeDeps : Ty → List String
  | .struct name => [name]
  | .enum name => [name]
  | .optional inner => typeDeps inner
  | _ => []

def StructDef.deps (d : StructDef) : List String :=
  ((d.fields.flatMap fun f => typeDeps f.ty).dedup).filter (· ≠ d.name)

def EnumDef.deps (d : EnumDef) : List String :=
  ((d.variants.flatMap fun v => v.payloadTypes.flatMap typeDeps).dedup).filter (· ≠ d.name)

/-- The orders in which the hash maps over the names are iterated: the one of the dependencies,
the one of the degrees, the one of the definitions. -/
structure HashOrder (names : List String) where
  deps : List String
  degrees : List String
  defs : List String
  deps_perm : deps.Perm names
  degrees_perm : degrees.Perm names
  defs_perm : defs.Perm names

/-- The maps iterated in the order of the names. -/
def HashOrder.self (names : List String) : HashOrder names :=
  ⟨names, names, names, .refl _, .refl _, .refl _⟩

/-- `topological_sort`. Only what exists in the graph counts as a dependency. -/
def topologicalSort {names : List String} (o : HashOrder names) (deps : String → List String) :
    List String :=
  let inner := fun x => (deps x).filter (· ∈ names)
  kahn (fun x => o.deps.filter (x ∈ inner ·)) names.length (degrees o.deps inner)
    (o.degrees.filter fun x => (inner x).length == 0) []

namespace Module

variable (m : Module)

def structNames : List String := m.structs.map (·.name)

def enumNames : List String := m.enums.map (·.name)

def struct? (name : String) : Option StructDef := m.structs.find? (·.name == name)

def enum? (name : String) : Option EnumDef := m.enums.find? (·.name == name)

def structDeps (name : String) : List String := ((m.struct? name).map StructDef.deps).getD []

def enumDeps (name : String) : List String := ((m.enum? name).map EnumDef.deps).getD []

/-- `register_struct` with the definition of the name. -/
def registerStruct (word : Nat → Nat) (registry : TypeRegistry) (name : String) : TypeRegistry :=
  match m.struct? name with
  | some d =>
    { registry with
      structs :=
        Function.update registry.structs name (some (computeStructLayout word d registry)) }
  | none => registry

/-- `register_enum` with the definition of the name. -/
def registerEnum (word : Nat → Nat) (registry : TypeRegistry) (name : String) : TypeRegistry :=
  match m.enum? name with
  | some d =>
    { registry with
      enums := Function.update registry.enums name (some (computeEnumLayout word d registry)) }
  | none => registry

/-- The structs in the order of their dependencies, then those that are left, and then the
enums in the same way. -/
def buildTypeRegistry (word : Nat → Nat) (structs : HashOrder m.structNames)
    (enums : HashOrder m.enumNames) : TypeRegistry :=
  let structOrder := topologicalSort structs m.structDeps
  let registry := (structOrder ++ structs.defs.filter (· ∉ structOrder)).foldl
    (m.registerStruct word) .new
  let enumOrder := topologicalSort enums m.enumDeps
  (enumOrder ++ enums.defs.filter (· ∉ enumOrder)).foldl (m.registerEnum word) registry

/-- `emit_type_definitions`: the names and the types of the registered definitions. -/
def emitted (registry : TypeRegistry) : List (String × List LType) :=
  (m.structNames.filterMap fun name =>
      (registry.structs name).map fun l => (l.llvmTypeName, l.llvmTypeDef)) ++
    m.enumNames.filterMap fun name =>
      (registry.enums name).map fun l => (l.llvmTypeName, l.llvmTypeDef)

/-- The emitted type of a name. -/
def definition (registry : TypeRegistry) (name : String) : Option (List LType) :=
  (m.emitted registry).lookup name

end Module

/-- Size, alignment and offsets are those of the emitted type. -/
def StructLayout.Agrees (defs : String → Option (List LType)) (l : StructLayout) : Prop :=
  ∃ ls, AssignsAll defs l.llvmTypeDef ls ∧ l.size = (record ls).size ∧
    l.alignment = (record ls).align ∧ l.fields.map (·.byteOffset) = offsets 0 ls

/-- A variant's payload fits behind the tag, and each of its elements is aligned there. -/
def VariantLayout.Fits (defs : String → Option (List LType)) (tagSize maxPayloadSize : Nat)
    (v : VariantLayout) : Prop :=
  ∃ ls, AssignsAll defs (v.payloadTypes.map typeToLlvm) ls ∧ endAt 0 ls ≤ maxPayloadSize ∧
    ∀ (i : Nat) (l : Layout) (off : Nat), ls[i]? = some l → (offsets 0 ls)[i]? = some off →
      l.align ∣ tagSize + off

/-- Size and alignment are those of the emitted type, and every payload fits. -/
def EnumLayout.Agrees (defs : String → Option (List LType)) (l : EnumLayout) : Prop :=
  (∃ ls, AssignsAll defs l.llvmTypeDef ls ∧ l.size = (record ls).size ∧
    l.alignment = (record ls).align) ∧
  ∀ v ∈ l.variants, v.Fits defs l.tagSize l.maxPayloadSize

namespace Module

variable (m : Module)

/-- No type is emitted twice, and all definitions are registered with the layouts of their
types. -/
structure Agrees (registry : TypeRegistry) : Prop where
  distinct : ((m.emitted registry).map (·.1)).Nodup
  structs : ∀ d ∈ m.structs, ∃ l, registry.structs d.name = some l ∧
    l.Agrees (m.definition registry)
  enums : ∀ d ∈ m.enums, ∃ l, registry.enums d.name = some l ∧
    l.Agrees (m.definition registry)

/-- **Native layouts.** In whatever orders the hash maps are iterated, the layouts are those of
the emitted types, and the same. -/
def Native : Prop :=
  (∀ structs enums, m.Agrees (m.buildTypeRegistry u32 structs enums)) ∧
    ∀ structs enums structs' enums',
      m.buildTypeRegistry u32 structs enums = m.buildTypeRegistry u32 structs' enums'

/-- The type is no void and mentions defined names only, none of an enum unless `withEnums`. -/
def Defined (withEnums : Bool) : Ty → Prop
  | .void => False
  | .struct name => name ∈ m.structNames
  | .enum name => withEnums = true ∧ name ∈ m.enumNames
  | .optional inner => Defined withEnums inner
  | _ => True

/-- The type holds booleans, at whatever depth, and enums. -/
inductive Narrow : Ty → Prop
  | bool : Narrow .i1
  | enum (name : String) : Narrow (.enum name)
  | optional {inner : Ty} : Narrow inner → Narrow (.optional inner)
  | struct {d : StructDef} : d ∈ m.structs → (∀ f ∈ d.fields, Narrow f.ty) → Narrow (.struct d.name)

/-- No two definitions have one name in LLVM, every type is defined, no struct has an enum in it,
and nothing contains itself. -/
structure Plain : Prop where
  names : ((m.structNames ++ m.enumNames).map llvmName).Nodup
  structs : ∀ d ∈ m.structs, ∀ f ∈ d.fields, m.Defined false f.ty
  enums : ∀ d ∈ m.enums, ∀ v ∈ d.variants, ∀ ty ∈ v.payloadTypes, m.Defined true ty
  structs_acyclic : Acyclic fun name =>
    ((m.struct? name).map fun d => d.fields.flatMap fun f => typeDeps f.ty).getD []
  enums_acyclic : Acyclic fun name =>
    ((m.enum? name).map fun d =>
      d.variants.flatMap fun v => v.payloadTypes.flatMap typeDeps).getD []

/-- No layout computed without a limit has 2^32 bytes or more. -/
def Small : Prop :=
  ∀ structs enums, (∀ name l, (m.buildTypeRegistry id structs enums).structs name = some l →
      l.size < 2 ^ 32) ∧
    ∀ name l, (m.buildTypeRegistry id structs enums).enums name = some l → l.size < 2 ^ 32

/-- The variants of enums hold booleans and enums only. -/
def Bytes : Prop := ∀ d ∈ m.enums, ∀ v ∈ d.variants, ∀ ty ∈ v.payloadTypes, m.Narrow ty

end Module

end Arth.LlvmTypes
