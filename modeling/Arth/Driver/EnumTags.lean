import Arth.Lib.KeyTable
import Arth.Typeck.ConstEval

/-!
# The tags of enum variants

`compute_enum_tags` of the driver, the table of the tags of all enums by bare name, and the
three places of the lowering that read it: a variant without payload, the call of a variant,
and the patterns of a `switch`.

* `computeEnumTags`, `enumTable` — `none` is the overflow of `tag + 1`.
* `memberTag`, `callTag` — the tag of the value that a constructor builds.
* `armTag`, `dispatch` — the comparisons that a `switch` over patterns makes.
* `Consistent` — all of them agree, for every enum of a program.
-/

namespace Arth.EnumTags

open Lower (HirType HirPattern)
open ConstEval
open KeyTable (Table)

variable {F : Type}

inductive HirEnumVariant (F : Type) where
  | unit (name : String) (discriminant : Option (HirExpr F))
  | tuple (name : String) (types : List HirType) (discriminant : Option (HirExpr F))

def HirEnumVariant.name : HirEnumVariant F → String
  | .unit name _ => name
  | .tuple name _ _ => name

def HirEnumVariant.discriminant : HirEnumVariant F → Option (HirExpr F)
  | .unit _ discriminant => discriminant
  | .tuple _ _ discriminant => discriminant

/-- An enum whose variants have different names, as the type checker demands. -/
structure HirEnum (F : Type) where
  name : String
  variants : List (HirEnumVariant F)
  nodup : (variants.map (·.name)).Nodup

/-! ## The driver -/

variable (fl : FloatOps F)

abbrev Tags := Table String Int64

/-- `set_enum_variants`. -/
def setEnumVariants (ctx : ConstEvalContext F) (tags : Tags) : ConstEvalContext F :=
  { ctx with
    constants := fun name =>
      match tags.lookup name with
      | some value => some (.int value)
      | none => ctx.constants name }

/-- The tag of a variant, `nextImplicitTag` when its discriminant is missing or does not
evaluate. -/
def variantTag (ctx : ConstEvalContext F) (nextImplicitTag : Int64)
    (discriminant : Option (HirExpr F)) : Int64 :=
  match discriminant with
  | some disc =>
    match evalIntegralConst fl ctx disc with
    | .ok value => value
    | .error _ => nextImplicitTag
  | none => nextImplicitTag

/-- The loop of `compute_enum_tags`. -/
def computeFrom (ctx : ConstEvalContext F) (vmap : Tags) (nextImplicitTag : Int64) :
    List (HirEnumVariant F) → Option Tags
  | [] => some vmap
  | v :: vs =>
    let ctx := setEnumVariants ctx vmap
    let tag := variantTag fl ctx nextImplicitTag v.discriminant
    -- `tag + 1` panics, also after the last variant
    (checkedAdd tag 1).bind fun next => computeFrom ctx (vmap.insert v.name tag) next vs

def computeEnumTags (en : HirEnum F) : Option Tags :=
  computeFrom fl .new ∅ 0 en.variants

/-- The tags of all enums of a program, in the order of its declarations. A later enum takes
the place of an earlier one of the same name. -/
def tableFrom (tags : Table String Tags) : List (HirEnum F) → Option (Table String Tags)
  | [] => some tags
  | en :: decls => (computeEnumTags fl en).bind fun vmap =>
    tableFrom (tags.insert en.name vmap) decls

def enumTable (decls : List (HirEnum F)) : Option (Table String Tags) := tableFrom fl ∅ decls

/-! ## The lowering -/

def tagOf (tags : Table String Tags) (enumName variantName : String) : Option Int64 :=
  (tags.lookup enumName).bind (·.lookup variantName)

/-- The first character is an ASCII upper-case letter. -/
def looksType (name : String) : Bool := (name.toList.head?.map Char.isUpper).getD false

/-- The tag that `Enum.Variant` puts into its value; `none` when the expression is not taken
for a variant. -/
def memberTag (tags : Table String Tags) (enumName variantName : String) : Option Int64 :=
  if looksType enumName then tagOf tags enumName variantName else none

/-- A call `Enum.Variant(args)` that the lowering takes for a call of `Http.serve`, of the
`Optional` module or of a method of an optional value, before it looks for enums. -/
def intercepted (enumName variantName : String) (args : ℕ) : Bool :=
  (variantName = "serve" && args = 1 && enumName = "Http") ||
  (enumName = "Optional" && (variantName = "of" && args ≠ 0 || variantName = "empty")) ||
  (enumName ≠ "Optional" &&
    (variantName = "isPresent" || variantName = "isEmpty" ||
      variantName = "orElse" && args ≠ 0 || variantName = "orElseThrow" ||
      variantName = "ifPresent" && args = 1))

def callTag (tags : Table String Tags) (enumName variantName : String) (args : ℕ) :
    Option Int64 :=
  if intercepted enumName variantName args then none else memberTag tags enumName variantName

/-- The tag of the value that the constructor of a variant builds. -/
def constructorTag (tags : Table String Tags) (enumName : String) :
    HirEnumVariant F → Option Int64
  | .unit name _ => memberTag tags enumName name
  | .tuple name types _ => callTag tags enumName name types.length

variable {B : Type}

/-- The tag of an arm: `-1` for a wildcard and for an unknown variant, `-2` for a binding. A
literal has no arm. -/
def armTag (tags : Table String Tags) : HirPattern → Option Int64
  | .variant enumName variantName _ => some ((tagOf tags enumName variantName).getD (-1))
  | .wildcard => some (-1)
  | .binding _ => some (-2)
  | .literal => none

def armTags (tags : Table String Tags) (arms : List (HirPattern × B)) : List (Int64 × B) :=
  arms.filterMap fun a => (armTag tags a.1).map fun tag => (tag, a.2)

/-- Where the `default` block is, or where the checks end without one: the first arm with a
negative tag, or else the end of the statement. -/
def defaultBlock (cases : List (Int64 × B)) (default : Option B) (join : B) : B :=
  match default with
  | some b => b
  | none => ((cases.find? fun c => c.1 < 0).map (·.2)).getD join

/-- The block that a `switch` over patterns runs for a value with this tag: the arms with a
tag from 0 on are compared in order. -/
def dispatch (tags : Table String Tags) (arms : List (HirPattern × B)) (default : Option B)
    (join : B) (tag : Int64) : B :=
  let cases := armTags tags arms
  (((cases.filter fun c => 0 ≤ c.1).find? fun c => c.1 = tag).map (·.2)).getD
    (defaultBlock cases default join)

/-- The pattern is of the variant. -/
def names (enumName variantName : String) : HirPattern → Bool
  | .variant e v _ => e = enumName ∧ v = variantName
  | _ => false

/-- A pattern for values of the enum. -/
def FitsEnum (en : HirEnum F) : HirPattern → Prop
  | .variant enumName variantName _ =>
    enumName = en.name ∧ variantName ∈ en.variants.map (·.name)
  | _ => True

/-- The context in which the discriminant of a variant is evaluated, with the tags of the
variants before it. -/
def contextOf (tag : String → Option Int64) (earlier : List (HirEnumVariant F)) :
    ConstEvalContext F :=
  { constants := fun name =>
      if name ∈ earlier.map (·.name) then (tag name).map .int else none
    evaluating := [] }

/-- What the tags of one enum of a program should be. -/
structure TagsAgree (tags : Table String Tags) (en : HirEnum F) (vmap : Tags) : Prop where
  total : ∀ v ∈ en.variants, (vmap.lookup v.name).isSome
  distinct : ∀ v ∈ en.variants, ∀ w ∈ en.variants,
    vmap.lookup v.name = vmap.lookup w.name → v.name = w.name
  explicit : ∀ earlier v later disc, en.variants = earlier ++ v :: later →
    v.discriminant = some disc →
      ∃ k, evalIntegralConst fl (contextOf vmap.lookup earlier) disc = .ok k ∧
        vmap.lookup v.name = some k
  constructors : ∀ v ∈ en.variants, constructorTag tags en.name v = vmap.lookup v.name
  patterns : ∀ v ∈ en.variants, ∀ payloads,
    armTag tags (.variant en.name v.name payloads) = vmap.lookup v.name
  selects : ∀ v ∈ en.variants, ∀ k, vmap.lookup v.name = some k →
    ∀ (arms : List (HirPattern × ℕ)) (default : Option ℕ) (join : ℕ),
      (∀ a ∈ arms, FitsEnum en a.1) →
        ∀ a, arms.find? (fun a => names en.name v.name a.1) = some a →
          dispatch tags arms default join k = a.2

/-- No tag overflows, and the tags agree with the discriminants, the constructors and the
patterns of every enum of the program. -/
def Consistent (decls : List (HirEnum F)) : Prop :=
  ∃ tags, enumTable fl decls = some tags ∧
    ∀ en ∈ decls, ∃ vmap, computeEnumTags fl en = some vmap ∧ TagsAgree fl tags en vmap

end Arth.EnumTags
