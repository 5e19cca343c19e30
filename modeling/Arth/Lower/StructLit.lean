import Arth.Vm.Heap

/-!
# Struct literals and field access

* `lowerStructLit`, `lowerMember` — what a literal and a field access are lowered to, with
  runtime calls or with native structs.
* `LitInst.exec`, `FieldRead.read` — what that code does to the memory.
* `ReadsBack` — every field of the constructed value reads as the literal says.
-/

namespace Arth.Lower

/-- The heap of the runtime, and the native structs, whose slots start undefined. -/
structure Mem where
  heap : Heap
  native : HandleStore Int64 (List (Option Value))

/-- What evaluating an expression does to the memory, and its value. -/
abbrev Expr := Mem → Mem × Value

/-- `json_get_field_as_value`; `num` converts a number. -/
def jsonFieldValue (num : F64 → Value) (m : Heap) (h : Int64) (name : String) : Value :=
  match m.jsonField h name with
  | none => .i64 0
  | some (.string s) => .str s
  | some (.number x) => num x
  | some (.bool b) => .i64 (if b then 1 else 0)
  | some .null => .i64 0
  | some (.array _) => .i64 m.jsons.next
  | some (.object _) => .i64 m.jsons.next

/-- `struct_get_named`. It unwraps optionals one after another, which the fuel bounds. -/
def structGetNamed (num : F64 → Value) (m : Heap) (name : String) : Nat → Int64 → Option Value
  | 0, _ => none
  | fuel + 1, h =>
    if isListHandle h then
      some (if name = "length" then .i64 (Int64.ofNat (m.listLen h)) else .i64 0)
    else if isOptHandle h then
      match m.optUnwrap h with
      | .i64 inner =>
        if inner ≠ 0 then structGetNamed num m name fuel inner else some (.i64 0)
      | _ => some (.i64 0)
    else if isJsonHandle h then some (jsonFieldValue num m h name)
    else some (((m.structs.cells h).map (·.getNamed name)).getD (.i64 0))

/-! ## Lowering -/

structure StructLit where
  typeName : String
  fields : List (String × Expr)
  spread : Option Expr

structure LowerCtx where
  useNativeStructs : Bool
  structDefs : List (String × List String)

def LowerCtx.getFieldIndex (ctx : LowerCtx) (structName fieldName : String) : Option Nat :=
  (ctx.structDefs.lookup structName).bind (·.findIdx? (· == fieldName))

def LowerCtx.knows (ctx : LowerCtx) (structName : String) : Bool :=
  ctx.useNativeStructs && (ctx.structDefs.lookup structName).isSome

/-- The instructions of a literal; an expression is evaluated in front of the instruction
that uses it. -/
inductive LitInst where
  | structAlloc (slots : Nat)
  | structFieldSet (fieldIndex : Nat) (value : Expr)
  | structNew (typeName : String) (fieldCount : Nat)
  | structCopy (src : Expr)
  | structSet (idx : Nat) (value : Expr) (fieldName : String)

/-- `lower_expr` of a literal of a struct type. -/
def lowerStructLit (ctx : LowerCtx) (lit : StructLit) : List LitInst :=
  if ctx.knows lit.typeName && lit.spread.isNone then
    .structAlloc ((ctx.structDefs.lookup lit.typeName).getD []).length ::
      lit.fields.zipIdx.map fun (f, idx) => .structFieldSet idx f.2
  else
    .structNew lit.typeName lit.fields.length :: lit.spread.toList.map .structCopy ++
      lit.fields.zipIdx.map fun (f, idx) => .structSet idx f.2 f.1

/-- The ways a field is read: a native slot, by name, by index. -/
inductive FieldRead where
  | structFieldGet (fieldIndex : Nat)
  | structGetNamed (name : String)
  | structGet (idx : Nat)

/-- `lower_expr` of a member of a value of the struct type. -/
def lowerMember (ctx : LowerCtx) (structName member : String) : FieldRead :=
  if ctx.knows structName then
    match ctx.getFieldIndex structName member with
    | some idx => .structFieldGet idx
    | none => .structGetNamed member
  else .structGetNamed member

/-- The memory while a literal is built, the value under construction, the values of the
expressions so far, and the struct the spread expression gave. -/
structure LitState where
  mem : Mem
  self : Int64
  values : List Value
  base : Option NativeStruct

def LitInst.exec (s : LitState) : LitInst → LitState
  | .structAlloc slots =>
    { s with
      mem := { s.mem with native := s.mem.native.alloc (List.replicate slots none) }
      self := s.mem.native.next }
  | .structFieldSet idx e =>
    let (m, v) := e s.mem
    { s with
      mem := { m with native := m.native.modify s.self fun slots => slots.set idx (some v) }
      values := s.values ++ [v] }
  | .structNew typeName fieldCount =>
    { s with
      mem := { s.mem with heap := s.mem.heap.structNew typeName fieldCount }
      self := s.mem.heap.structs.next }
  | .structCopy e =>
    let (m, v) := e s.mem
    match v with
    | .i64 src =>
      { s with
        mem := { m with heap := m.heap.structCopy s.self src }
        base := m.heap.structs.cells src }
    | _ => { s with mem := m }
  | .structSet idx e name =>
    let (m, v) := e s.mem
    { s with
      mem := { m with heap := m.heap.structSet s.self idx v name }
      values := s.values ++ [v] }

/-- The literal, evaluated in a memory. -/
def StructLit.run (ctx : LowerCtx) (lit : StructLit) (m : Mem) : LitState :=
  (lowerStructLit ctx lit).foldl LitInst.exec ⟨m, 0, [], none⟩

def FieldRead.read (num : F64 → Value) (fuel : Nat) (m : Mem) (h : Int64) :
    FieldRead → Option Value
  | .structFieldGet idx => ((m.native.cells h).bind (·[idx]?)).join
  | .structGetNamed name => Lower.structGetNamed num m.heap name fuel h
  | .structGet idx => some (m.heap.structGet h idx)

/-- A struct type: its fields in the order of their declaration. -/
structure StructDecl where
  name : String
  fields : List String
  nodup : fields.Nodup
  named : ∀ f ∈ fields, f ≠ ""

/-- The names a literal of the type gives, in its order, and whether it has a spread base. -/
structure LitShape (decl : StructDecl) where
  names : List String
  nodup : names.Nodup
  declared : names ⊆ decl.fields
  spread : Bool

/-- The lowering context knows the type as it is declared, if it knows it. -/
structure Declares (ctx : LowerCtx) (decl : StructDecl) : Prop where
  fields : ∀ fs, ctx.structDefs.lookup decl.name = some fs → fs = decl.fields

/-- A literal of the given shape, evaluated in `m`: its expressions leave the value under
construction alone, and its spread base is another struct of the type. -/
structure LitOk {decl : StructDecl} (shape : LitShape decl) (m : Mem) (lit : StructLit) :
    Prop where
  typeName : lit.typeName = decl.name
  names : lit.fields.map (·.1) = shape.names
  spread : lit.spread.isSome = shape.spread
  frame : ∀ e, e ∈ lit.fields.map (·.2) ∨ lit.spread = some e → ∀ m',
    (e m').1.heap.structs.cells m.heap.structs.next = m'.heap.structs.cells m.heap.structs.next ∧
    (e m').1.native.cells m.native.next = m'.native.cells m.native.next
  base : ∀ e, lit.spread = some e → ∀ m', ∃ src st, (e m').2 = .i64 src ∧
    src ≠ m.heap.structs.next ∧ (e m').1.heap.structs.cells src = some st ∧
    st.fieldNames = decl.fields ∧ st.fields.length = decl.fields.length

/-- The value a field should have: that of the literal's expression, else the base's. -/
def LitState.expected (s : LitState) (names : List String) (f : String) : Option Value :=
  match (names.zip s.values).lookup f with
  | some v => some v
  | none => s.base.map (·.getNamed f)

/-- A read gives the value, with enough fuel. -/
def Reads (num : F64 → Value) (m : Mem) (h : Int64) (r : FieldRead) (v : Value) : Prop :=
  ∃ fuel, r.read num fuel m h = some v

/-- **Layout.** Whatever its expressions are, every field of the literal reads as it says:
as a member, and by its index in the declaration where the value lives in the runtime. -/
def ReadsBack (num : F64 → Value) (ctx : LowerCtx) {decl : StructDecl} (shape : LitShape decl)
    (m : Mem) : Prop :=
  ∀ lit, LitOk shape m lit → ∀ f ∈ decl.fields, ∀ v,
    (lit.run ctx m).expected shape.names f = some v →
      Reads num (lit.run ctx m).mem (lit.run ctx m).self (lowerMember ctx decl.name f) v ∧
      (ctx.knows decl.name = false → Reads num (lit.run ctx m).mem (lit.run ctx m).self
        (.structGet (decl.fields.idxOf f)) v)

/-- The handle is read as a struct. -/
def ReadAsStruct (h : Int64) : Prop :=
  isListHandle h = false ∧ isOptHandle h = false ∧ isJsonHandle h = false

/-- The literals that read back: without a spread base, the fields in the order of the
declaration, from the first one on; with one, all of them in that order. Native structs have
no spread, and the runtime's handle must be in no other range. -/
def LayoutAgrees (ctx : LowerCtx) {decl : StructDecl} (shape : LitShape decl) (m : Mem) : Prop :=
  if ctx.knows decl.name then
    if shape.spread then decl.fields = [] else shape.names <+: decl.fields
  else
    (if shape.spread then shape.names = decl.fields else shape.names <+: decl.fields) ∧
      (shape.names = [] ∨ ReadAsStruct m.heap.structs.next)

end Arth.Lower
