import Arth.Lib.Passes
import Arth.Typeck.Patterns

/-!
# Types with a deinit and types that are copied

Two tables that `typecheck_project` derives from the declarations of all files.

* `buildTypesNeedingDrop` — the types with a `deinit` in their companion module, and by passes over
  the structs those with a field of such a type, whose deinit drops the fields found droppable when
  the struct is entered, in the reverse of the order in which the map of the fields lists them.
* `buildCopyTypes` — the types with a module that implements `Copy`, the providers, and by passes
  over the structs those without a deinit whose fields are all copied.

A hash map lists its entries in any order: `iter` is the order in which the fields of a struct come.
-/

namespace Arth.Derive

open KeyTable Passes
open Arth.Patterns (Path)

/-- A written type: its path, and whether it has type arguments. -/
structure TypeName where
  path : Path
  hasArgs : Bool
deriving DecidableEq, Repr

structure FieldDecl where
  name : String
  ty : TypeName
deriving DecidableEq, Repr

/-- A function of a module, with the types of its parameters. -/
structure FuncSig where
  name : String
  params : List TypeName
deriving DecidableEq, Repr

inductive Decl where
  | struct (name : String) (fields : List FieldDecl)
  | provider (name : String) (fields : List FieldDecl)
  | module (name : String) (implements : List Path) (items : List FuncSig)
  | other
deriving DecidableEq, Repr

structure File where
  package : Option String
  decls : List Decl
deriving DecidableEq, Repr

/-- A type, by its package and its name. -/
abbrev Key := String × String

/-- The declarations of all files that name their package, in order. -/
def allDecls (files : List File) : List (String × Decl) :=
  files.flatMap fun file =>
    match file.package with
    | some pkg => file.decls.map fun d => (pkg, d)
    | none => []

/-- The name and the fields of a type that a declaration brings. -/
def Decl.fields? : Decl → Option (String × List FieldDecl)
  | .struct name fields => some (name, fields)
  | .provider name fields => some (name, fields)
  | _ => none

structure StructItem where
  pkg : String
  name : String
  fields : List FieldDecl
deriving DecidableEq, Repr

def StructItem.key (s : StructItem) : Key := (s.pkg, s.name)

/-- The structs, in the order in which a pass comes to them. -/
def structItems (files : List File) : List StructItem :=
  (allDecls files).filterMap fun (pkg, d) =>
    match d with
    | .struct name fields => some ⟨pkg, name, fields⟩
    | _ => none

/-- The functions of every module. -/
def buildModuleIndex (files : List File) : Table Key (List FuncSig) :=
  (allDecls files).foldl (fun t (pkg, d) =>
    match d with
    | .module name _ items => t.insert (pkg, name) items
    | _ => t) ∅

/-- The map of the fields of one type. -/
def fieldMap (fields : List FieldDecl) : Table String TypeName :=
  fields.foldl (fun t f => t.insert f.name f.ty) ∅

/-- The fields of every struct and provider. -/
def buildStructFields (files : List File) : Table Key (Table String TypeName) :=
  (allDecls files).foldl (fun t (pkg, d) =>
    match d.fields? with
    | some (name, fields) => t.insert (pkg, name) (fieldMap fields)
    | none => t) ∅

/-! ## Drop -/

inductive DeinitKind where
  | explicit (module : String)
  | synthetic (fields : List (String × String))
deriving DecidableEq, Repr

/-- Whether the companion module of a type has a `deinit` whose first parameter is of the type. -/
def hasDeinit (moduleIndex : Table Key (List FuncSig)) (pkg name : String) : Bool :=
  match moduleIndex.lookup (pkg, name ++ "Fns") with
  | some sigs => sigs.any fun sig =>
    sig.name == "deinit" && (sig.params.head?.map fun ty => ty.path.last) == some name
  | none => false

/-- The types with a deinit of their own. -/
def explicitDeinits (moduleIndex : Table Key (List FuncSig)) (files : List File) :
    Table Key DeinitKind :=
  (allDecls files).foldl (fun t (pkg, d) =>
    match d.fields? with
    | some (name, _) =>
      if hasDeinit moduleIndex pkg name then t.insert (pkg, name) (.explicit (name ++ "Fns")) else t
    | none => t) ∅

/-- The type that a field's type is looked up as. -/
def fieldTypeKey (pkg : String) (ty : TypeName) : Key :=
  ty.path.split (some pkg)

def dropTyName (key : Key) : String :=
  key.1 ++ "." ++ key.2

/-- The fields found droppable, with what drops them, the last of the map first. -/
def fieldsNeedingDrop (pkg : String) (fieldList : List (String × TypeName))
    (result : Table Key DeinitKind) : List (String × String) :=
  fieldList.reverse.filterMap fun (name, ty) =>
    let key := fieldTypeKey pkg ty
    if key ∈ result then some (name, dropTyName key) else none

section Tables

variable (iter : Table String TypeName → List (String × TypeName))

/-- When a struct is entered, and as what. -/
def dropRules (structFields : Table Key (Table String TypeName)) :
    Rules StructItem Key DeinitKind where
  key := StructItem.key
  fires result s :=
    let fields := match structFields.lookup s.key with
      | some fmap => fieldsNeedingDrop s.pkg (iter fmap) result
      | none => []
    if fields.isEmpty then none else some (.synthetic fields)

def buildTypesNeedingDrop (files : List File) : Table Key DeinitKind :=
  loop (dropRules iter (buildStructFields files)) (structItems files)
    (explicitDeinits (buildModuleIndex files) files)

end Tables

/-! ## Copy -/

inductive CopyKind where
  | explicit
  | derived
deriving DecidableEq, Repr

/-- The names of the primitive types, in any case. -/
def isPrimitive (name : String) : Bool :=
  let base := name.toLower
  let widths := ["8", "16", "32", "64", "128"]
  base ∈ ["int", "short", "long", "i32", "i64", "i16", "i8", "i128", "u8", "u16", "u32", "u64",
    "u128", "float", "double", "f32", "f64", "float32", "float64", "bool", "boolean", "string",
    "char", "bytes", "void", "never"] ∨
  base ∈ widths.map ("int" ++ ·) ∨ base ∈ widths.map ("uint" ++ ·)

def isFieldTypeCopy (ty : TypeName) (currentPkg : String) (copyTypes : Table Key CopyKind) : Bool :=
  if !ty.hasArgs && isPrimitive ty.path.last then true
  else if ty.path.last = "Owned" then false
  else fieldTypeKey currentPkg ty ∈ copyTypes

/-- The type of the first parameter that any function of the module has in front. -/
def inferTargetTypeFromMethods (items : List FuncSig) : Option String :=
  items.findSome? fun sig => sig.params.head?.map fun ty => ty.path.last

/-- The part of a module's name in front of a customary ending. -/
def inferTargetTypeFromModuleName (moduleName : String) : Option String :=
  ["Fns", "Ops", "Impl", "Module"].findSome? fun suffix =>
    if suffix.toList <:+ moduleName.toList ∧ suffix.length < moduleName.length then
      some (String.ofList (moduleName.toList.take (moduleName.length - suffix.length)))
    else none

/-- The types that a module declares to be copied. -/
def explicitCopies (files : List File) : Table Key CopyKind :=
  (allDecls files).foldl (fun t (pkg, d) =>
    match d with
    | .module name implements items =>
      if implements.any fun ifc => ifc.last == "Copy" then
        match (inferTargetTypeFromMethods items).or (inferTargetTypeFromModuleName name) with
        | some target => if target ≠ "" then t.insert (pkg, target) .explicit else t
        | none => t
      else t
    | _ => t) ∅

/-- The providers are copied as well. -/
def providerCopies (files : List File) (t : Table Key CopyKind) : Table Key CopyKind :=
  (allDecls files).foldl (fun t (pkg, d) =>
    match d with
    | .provider name _ => t.insert (pkg, name) .derived
    | _ => t) t

def copyRules (typesNeedingDrop : Table Key DeinitKind) : Rules StructItem Key CopyKind where
  key := StructItem.key
  fires result s :=
    if s.key ∈ typesNeedingDrop then none
    else if s.fields.all fun f => isFieldTypeCopy f.ty s.pkg result then some .derived
    else none

def buildCopyTypes (files : List File) (typesNeedingDrop : Table Key DeinitKind) :
    Table Key CopyKind :=
  loop (copyRules typesNeedingDrop) (structItems files) (providerCopies files (explicitCopies files))

end Arth.Derive
