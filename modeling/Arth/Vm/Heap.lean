import Arth.Lib.HandleStore
import Arth.Vm.Signature

/-!
# The heap of the interpreter

Lists, maps, optionals, shared cells, closures, structs, reference cells, enums, parsed
JSON values and open files live in one store each, under integer handles from a counter of
their own.

* `listNew` … `fileClose` — the functions that make, free or change cells.
* `isListHandle` … `isJsonHandle` — the classification of a handle by its range.
* `HeapOp.run` — one operation on the heap.
-/

namespace Arth

structure NativeStruct where
  typeName : String
  fields : List Value
  fieldNames : List String
  deriving DecidableEq

structure NativeEnum where
  enumName : String
  variantName : String
  tag : Int64
  payload : List Value
  deriving DecidableEq

structure Closure where
  funcId : UInt32
  captures : List Value
  deriving DecidableEq

structure RcCell where
  value : Value
  count : Nat
  deriving DecidableEq

inductive JsonVal where
  | null
  | bool (b : Bool)
  | number (x : F64)
  | string (s : String)
  | array (items : List JsonVal)
  | object (pairs : List (String × JsonVal))

/-- An object or an array. -/
def JsonVal.isNested : JsonVal → Bool
  | .array _ => true
  | .object _ => true
  | _ => false

/-- The stores. No function of the model reads the entries of a map or a file. -/
structure Heap where
  lists : HandleStore Int64 (List Value)
  maps : HandleStore Int64 Unit
  opts : HandleStore Int64 (Option Value)
  shared : HandleStore Int64 Value
  namedShared : List (String × Int64)
  closures : HandleStore Int64 Closure
  structs : HandleStore Int64 NativeStruct
  rcs : HandleStore Int64 RcCell
  enums : HandleStore Int64 NativeEnum
  jsons : HandleStore Int64 JsonVal
  files : HandleStore Int64 Unit

/-- `struct_set`: an index out of range does nothing, an empty name keeps the old one. -/
def NativeStruct.setField (s : NativeStruct) (idx : Nat) (v : Value) (name : String) :
    NativeStruct :=
  if idx < s.fields.length then
    { s with
      fields := s.fields.set idx v
      fieldNames := if name.isEmpty then s.fieldNames else s.fieldNames.set idx name }
  else s

/-- The first field of the name. -/
def NativeStruct.getNamed (s : NativeStruct) (name : String) : Value :=
  ((s.fieldNames.findIdx? (· == name)).bind (s.fields[·]?)).getD (.i64 0)

def NativeStruct.setNamed (s : NativeStruct) (name : String) (v : Value) : NativeStruct :=
  match s.fieldNames.findIdx? (· == name) with
  | some idx => { s with fields := s.fields.set idx v }
  | none => s

/-- `struct_copy` of the fields and their names, as far as the destination has room. -/
def NativeStruct.copyFrom (dest src : NativeStruct) : NativeStruct :=
  { dest with
    fields := (src.fields.take dest.fields.length) ++ dest.fields.drop src.fields.length
    fieldNames := (src.fieldNames.take dest.fieldNames.length) ++
      dest.fieldNames.drop src.fieldNames.length }

namespace Heap

/-- The stores when the interpreter starts. -/
def initial : Heap where
  lists := .empty 50000
  maps := .empty 60000
  opts := .empty 70000
  shared := .empty 70000
  namedShared := []
  closures := .empty 80000
  structs := .empty 90000
  rcs := .empty 90000
  enums := .empty 100000
  jsons := .empty 110000
  files := .empty 160000

/-! ## Lists and maps -/

def listNew (m : Heap) : Heap := { m with lists := m.lists.alloc [] }

/-- `list_push`, up to the length limit. -/
def listPush (maxLen : Nat) (h : Int64) (v : Value) (m : Heap) : Heap :=
  { m with lists := m.lists.modify h fun vs => if maxLen ≤ vs.length then vs else vs ++ [v] }

def listSet (h : Int64) (idx : Nat) (v : Value) (m : Heap) : Heap :=
  { m with lists := m.lists.modify h fun vs => vs.set idx v }

def listRemove (h : Int64) (idx : Nat) (m : Heap) : Heap :=
  { m with lists := m.lists.modify h fun vs => vs.eraseIdx idx }

def listGet (h : Int64) (idx : Nat) (m : Heap) : Option Value :=
  (m.lists.cells h).bind (·[idx]?)

def listLen (h : Int64) (m : Heap) : Nat := ((m.lists.cells h).map (·.length)).getD 0

def mapNew (m : Heap) : Heap := { m with maps := m.maps.alloc () }

/-- `map_keys`: a new list of the keys. -/
def mapKeys (keys : List Value) (m : Heap) : Heap := { m with lists := m.lists.alloc keys }

/-! ## Optionals and shared cells -/

def optSome (v : Value) (m : Heap) : Heap := { m with opts := m.opts.alloc (some v) }

def optNone (m : Heap) : Heap := { m with opts := m.opts.alloc none }

def optIsSome (h : Int64) (m : Heap) : Bool := ((m.opts.cells h).join).isSome

def optUnwrap (h : Int64) (m : Heap) : Value := ((m.opts.cells h).join).getD (.i64 0)

def optOrElse (h : Int64) (default : Value) (m : Heap) : Value :=
  ((m.opts.cells h).join).getD default

def sharedNew (m : Heap) : Heap := { m with shared := m.shared.alloc (.i64 0) }

/-- `shared_store_val` makes the cell if there is none. -/
def sharedStoreVal (h : Int64) (v : Value) (m : Heap) : Heap :=
  { m with shared := m.shared.insert h v }

def sharedLoadVal (h : Int64) (m : Heap) : Value := (m.shared.cells h).getD (.i64 0)

/-- `Op::SharedGetByName`: a new cell for a new name. -/
def sharedGetByName (name : String) (m : Heap) : Heap :=
  match m.namedShared.lookup name with
  | some _ => m
  | none => { m.sharedNew with namedShared := (name, m.shared.next) :: m.namedShared }

/-! ## Closures, structs, enums -/

def closureNew (funcId : UInt32) (m : Heap) : Heap :=
  { m with closures := m.closures.alloc ⟨funcId, []⟩ }

def closureCapture (h : Int64) (v : Value) (m : Heap) : Heap :=
  { m with closures := m.closures.modify h fun c => { c with captures := c.captures ++ [v] } }

def structNew (typeName : String) (fieldCount : Nat) (m : Heap) : Heap :=
  { m with
    structs := m.structs.alloc
      ⟨typeName, List.replicate fieldCount (.i64 0), List.replicate fieldCount ""⟩ }

def structSet (h : Int64) (idx : Nat) (v : Value) (name : String) (m : Heap) : Heap :=
  { m with structs := m.structs.modify h fun s => s.setField idx v name }

def structGet (h : Int64) (idx : Nat) (m : Heap) : Value :=
  ((m.structs.cells h).bind (·.fields[idx]?)).getD (.i64 0)

def structSetNamed (h : Int64) (name : String) (v : Value) (m : Heap) : Heap :=
  { m with structs := m.structs.modify h fun s => s.setNamed name v }

def structCopy (dest src : Int64) (m : Heap) : Heap :=
  match m.structs.cells src with
  | some s => { m with structs := m.structs.modify dest fun d => d.copyFrom s }
  | none => m

def enumNew (enumName variantName : String) (tag : Int64) (payloadCount : Nat) (m : Heap) :
    Heap :=
  { m with
    enums := m.enums.alloc
      ⟨enumName, variantName, tag, List.replicate payloadCount (.i64 0)⟩ }

def enumSetPayload (h : Int64) (idx : Nat) (v : Value) (m : Heap) : Heap :=
  { m with enums := m.enums.modify h fun e => { e with payload := e.payload.set idx v } }

def rcAlloc (v : Value) (m : Heap) : Heap := { m with rcs := m.rcs.alloc ⟨v, 1⟩ }

/-- `rc_inc`: the count saturates. -/
def rcInc (h : Int64) (m : Heap) : Heap :=
  { m with rcs := m.rcs.modify h fun c => { c with count := min (c.count + 1) (2 ^ 64 - 1) } }

/-- `rc_dec`: the last reference frees the cell. -/
def rcDec (h : Int64) (m : Heap) : Heap :=
  match m.rcs.cells h with
  | some c =>
    if c.count - 1 = 0 then { m with rcs := m.rcs.erase h }
    else { m with rcs := m.rcs.insert h { c with count := c.count - 1 } }
  | none => m

def rcStoreValue (h : Int64) (v : Value) (m : Heap) : Heap :=
  { m with rcs := m.rcs.modify h fun c => { c with value := v } }

/-- `json_parse_and_store` of a text with the given parse. -/
def jsonParseAndStore (parsed : Option JsonVal) (m : Heap) : Heap :=
  match parsed with
  | some v => { m with jsons := m.jsons.alloc v }
  | none => m

def jsonField (h : Int64) (key : String) (m : Heap) : Option JsonVal :=
  match m.jsons.cells h with
  | some (.object pairs) => pairs.lookup key
  | _ => none

def jsonGetField (h : Int64) (key : String) (m : Heap) : Heap :=
  m.jsonParseAndStore (m.jsonField h key)

def jsonElem (h : Int64) (idx : Nat) (m : Heap) : Option JsonVal :=
  match m.jsons.cells h with
  | some (.array items) => items[idx]?
  | _ => none

def jsonGetIndex (h : Int64) (idx : Nat) (m : Heap) : Heap :=
  m.jsonParseAndStore (m.jsonElem h idx)

/-- `json_get_field_as_value`: a nested field gets a handle of its own. -/
def jsonGetFieldAsValue (h : Int64) (key : String) (m : Heap) : Heap :=
  m.jsonParseAndStore ((m.jsonField h key).filter JsonVal.isNested)

/-- `__arth_file_open` when the file could be opened. -/
def fileOpen (opened : Bool) (m : Heap) : Heap :=
  if opened then { m with files := m.files.alloc () } else m

def fileClose (h : Int64) (m : Heap) : Heap := { m with files := m.files.erase h }

end Heap

/-! ## The classification -/

def isListHandle (h : Int64) : Bool := 50000 ≤ h && h < 60000
def isMapHandle (h : Int64) : Bool := 60000 ≤ h && h < 70000
def isOptHandle (h : Int64) : Bool := 70000 ≤ h && h < 90000
def isStructHandle (h : Int64) : Bool := 90000 ≤ h && h < 100000
def isJsonHandle (h : Int64) : Bool := 110000 ≤ h

/-- The operations on the heap. -/
inductive HeapOp where
  | listNew
  | listPush (maxLen : Nat) (h : Int64) (v : Value)
  | listSet (h : Int64) (idx : Nat) (v : Value)
  | listRemove (h : Int64) (idx : Nat)
  | mapNew
  | mapKeys (keys : List Value)
  | optSome (v : Value)
  | optNone
  | sharedNew
  | sharedStoreVal (h : Int64) (v : Value)
  | sharedGetByName (name : String)
  | closureNew (funcId : UInt32)
  | closureCapture (h : Int64) (v : Value)
  | structNew (typeName : String) (fieldCount : Nat)
  | structSet (h : Int64) (idx : Nat) (v : Value) (name : String)
  | structSetNamed (h : Int64) (name : String) (v : Value)
  | structCopy (dest src : Int64)
  | enumNew (enumName variantName : String) (tag : Int64) (payloadCount : Nat)
  | enumSetPayload (h : Int64) (idx : Nat) (v : Value)
  | rcAlloc (v : Value)
  | rcInc (h : Int64)
  | rcDec (h : Int64)
  | rcStoreValue (h : Int64) (v : Value)
  | jsonParseAndStore (parsed : Option JsonVal)
  | jsonGetField (h : Int64) (key : String)
  | jsonGetIndex (h : Int64) (idx : Nat)
  | jsonGetFieldAsValue (h : Int64) (key : String)
  | fileOpen (opened : Bool)
  | fileClose (h : Int64)

def HeapOp.run (m : Heap) : HeapOp → Heap
  | .listNew => m.listNew
  | .listPush maxLen h v => m.listPush maxLen h v
  | .listSet h idx v => m.listSet h idx v
  | .listRemove h idx => m.listRemove h idx
  | .mapNew => m.mapNew
  | .mapKeys keys => m.mapKeys keys
  | .optSome v => m.optSome v
  | .optNone => m.optNone
  | .sharedNew => m.sharedNew
  | .sharedStoreVal h v => m.sharedStoreVal h v
  | .sharedGetByName name => m.sharedGetByName name
  | .closureNew funcId => m.closureNew funcId
  | .closureCapture h v => m.closureCapture h v
  | .structNew typeName fieldCount => m.structNew typeName fieldCount
  | .structSet h idx v name => m.structSet h idx v name
  | .structSetNamed h name v => m.structSetNamed h name v
  | .structCopy dest src => m.structCopy dest src
  | .enumNew enumName variantName tag n => m.enumNew enumName variantName tag n
  | .enumSetPayload h idx v => m.enumSetPayload h idx v
  | .rcAlloc v => m.rcAlloc v
  | .rcInc h => m.rcInc h
  | .rcDec h => m.rcDec h
  | .rcStoreValue h v => m.rcStoreValue h v
  | .jsonParseAndStore parsed => m.jsonParseAndStore parsed
  | .jsonGetField h key => m.jsonGetField h key
  | .jsonGetIndex h idx => m.jsonGetIndex h idx
  | .jsonGetFieldAsValue h key => m.jsonGetFieldAsValue h key
  | .fileOpen opened => m.fileOpen opened
  | .fileClose h => m.fileClose h

/-- A sequence of operations. -/
def HeapOp.runAll (m : Heap) (ops : List HeapOp) : Heap := ops.foldl HeapOp.run m

end Arth
