import Arth.Lib.KeyTable

/-!
# The exhaustiveness checker of `switch`

`exhaustiveness.rs` decides with Maranget's recursion on pattern matrices whether the arms of a
`switch` cover its scrutinee and which arms are never reached.

* `Pattern`, `Pat` — the patterns of the syntax tree and the simpler ones of the checker; the
  arity that a constructor pattern carries is the number of its sub-patterns.
* `astToPat`, `normalizePatEnumPath` — from the ones to the others; a literal that is no boolean,
  integer or string becomes a wildcard.
* `typeConstructors`, `ctorFieldTypes` — the heads of a column and the types below a head, looked
  up by name.
* `isUseful` — the recursion. It ends because every call has fewer constructors in the matrix and
  the row together, or as many and a shorter row.
* `checkExhaustiveness` — the verdict on a list of arms.
-/

namespace Arth.Patterns

open KeyTable List

/-- A dotted name, which has at least one part. -/
structure Path where
  init : List String
  last : String
deriving DecidableEq, Repr

/-- The package and the name that a path stands for: a single part is looked up in the current
package. -/
def Path.split (currentPkg : Option String) (path : Path) : String × String :=
  if path.init = [] then (currentPkg.getD "", path.last)
  else (String.intercalate "." path.init, path.last)

/-- A run-time value as far as a pattern can see it. Numbers, characters, structs and all the rest
that the checker does not look into are `other`. -/
inductive Val where
  | bool (b : Bool)
  | int (n : Int64)
  | string (s : String)
  | variant (pkg enumName variant : String) (args : List Val)
  | other (n : ℕ)

/-- The expression of a literal pattern; `other` is any further expression, a negative number or a
character for instance, with the value it stands for. -/
inductive LitExpr where
  | bool (b : Bool)
  | int (n : Int64)
  | str (s : String)
  | other (value : Val)

/-- A pattern of the syntax tree. -/
inductive Pattern where
  | wildcard
  | binding (name : String)
  | literal (expr : LitExpr)
  | variant (enumTy : Path) (variant : String) (payloads : List Pattern)

/-- The types that the checker tells apart. -/
inductive Ty where
  | bool
  | int
  | string
  | named (path : Path)
  | generic (path : Path)
  | other
  | unknown
deriving DecidableEq, Repr

/-- The path of a named type, with or without arguments. -/
def Ty.path? : Ty → Option Path
  | .named path | .generic path => some path
  | _ => none

/-- The head of a pattern. -/
inductive Constructor where
  | wildcard
  | bool (b : Bool)
  | int (n : Int64)
  | string (s : String)
  | variant (enumPath : Path) (variant : String) (arity : ℕ)
deriving DecidableEq, Repr

/-- A pattern of the checker. -/
inductive Pat where
  | wildcard
  | bool (b : Bool)
  | int (n : Int64)
  | string (s : String)
  | variant (enumPath : Path) (variant : String) (fields : List Pat)

namespace Pat

def ctor : Pat → Constructor
  | .wildcard => .wildcard
  | .bool b => .bool b
  | .int n => .int n
  | .string s => .string s
  | .variant enumPath name fields => .variant enumPath name fields.length

def fields : Pat → List Pat
  | .variant _ _ fields => fields
  | _ => []

def isWildcard : Pat → Bool
  | .wildcard => true
  | _ => false

/-- The number of constructors in a pattern. -/
def weight : Pat → ℕ
  | .wildcard => 0
  | .variant _ _ fields => 1 + (fields.map weight).sum
  | _ => 1

end Pat

/-- The enums of the program, by package, enum and variant, with the types of the payloads, and
what else the file of the `switch` brings into scope. -/
structure Ctx where
  enumVariants : Table (String × String × String) (List Path)
  currentPkg : Option String
  starImportPkgs : List String
  importedModules : Table String String

section Context

variable (ctx : Ctx)

def Ctx.typeConstructors (ty : Ty) : List Constructor :=
  match ty with
  | .bool => [.bool true, .bool false]
  | .named path | .generic path =>
    let (pkg, enumName) := path.split ctx.currentPkg
    ctx.enumVariants.entries.filterMap fun entry =>
      if entry.1.1 = pkg ∧ entry.1.2.1 = enumName then
        some (.variant path entry.1.2.2 entry.2.length)
      else none
  | _ => []

def Ctx.hasFiniteConstructors (ty : Ty) : Bool :=
  match ty with
  | .bool => true
  | .named path | .generic path =>
    let (pkg, enumName) := path.split ctx.currentPkg
    ctx.enumVariants.entries.any fun entry => entry.1.1 = pkg ∧ entry.1.2.1 = enumName
  | _ => false

/-- The arity of a head, `ctor_arity`. -/
def Constructor.arity : Constructor → ℕ
  | .variant _ _ arity => arity
  | _ => 0

/-- The types below a head: a payload type is a name, also where it names a primitive. -/
def Ctx.ctorFieldTypes (ctor : Constructor) : List Ty :=
  match ctor with
  | .variant enumPath variant arity =>
    let (pkg, enumName) := enumPath.split ctx.currentPkg
    match ctx.enumVariants.lookup (pkg, enumName, variant) with
    | some payloads => payloads.map .named
    | none => List.replicate arity .unknown
  | _ => []

/-- Where an unqualified enum name of a pattern is found: the current package first, then the
packages imported whole, then a module imported under the name. -/
def Ctx.lookupEnumVariant (enumName variant : String) : Option (String × String) :=
  let has (pkg : String) := (ctx.enumVariants.lookup (pkg, enumName, variant)).isSome
  let current := ctx.currentPkg.getD ""
  if has current then some (current, enumName)
  else match ctx.starImportPkgs.find? has with
    | some pkg => some (pkg, enumName)
    | none => match ctx.importedModules.lookup enumName with
      | some pkg => if has pkg then some (pkg, enumName) else none
      | none => none

/-- The enum that a variant pattern names, as `typecheck_pattern` resolves it. -/
def Ctx.patternEnum (path : Path) (variant : String) : String × String :=
  if path.init = [] then
    (ctx.lookupEnumVariant path.last variant).getD (ctx.currentPkg.getD "", path.last)
  else path.split ctx.currentPkg

def astToPat : Pattern → Pat
  | .wildcard => .wildcard
  | .binding _ => .wildcard
  | .literal expr =>
    match expr with
    | .bool b => .bool b
    | .int n => .int n
    | .str s => .string s
    | .other _ => .wildcard
  | .variant enumTy variant payloads => .variant enumTy variant (payloads.map astToPat)

/-- The path under which a variant pattern goes on: an unqualified name that the scrutinee's type
ends in is replaced by the path of that type. -/
def normalizePath (scrutineeTy : Ty) (enumPath : Path) : Path :=
  match scrutineeTy.path? with
  | some path => if enumPath.init = [] ∧ path.last = enumPath.last then path else enumPath
  | none => enumPath

def normalizePatEnumPath (scrutineeTy : Ty) : Pat → Pat
  | .variant enumPath variant fields =>
    .variant (normalizePath scrutineeTy enumPath) variant
      (fields.map (normalizePatEnumPath scrutineeTy))
  | pat => pat

def astToPatWithScrutinee (pat : Pattern) (scrutineeTy : Ty) : Pat :=
  normalizePatEnumPath scrutineeTy (astToPat pat)

/-! ## Matrices -/

/-- Equality of heads, which leaves the arity out. -/
def constructorsEqual : Constructor → Constructor → Bool
  | .wildcard, .wildcard => true
  | .bool x, .bool y => x == y
  | .int x, .int y => x == y
  | .string x, .string y => x == y
  | .variant p₁ v₁ _, .variant p₂ v₂ _ => v₁ == v₂ && p₁ == p₂
  | _, _ => false

/-- One more row for the list of heads, which names no head twice. -/
def addHead (ctors : List Constructor) (row : List Pat) : List Constructor :=
  match row with
  | first :: _ =>
    if first.isWildcard || ctors.any fun c => constructorsEqual c first.ctor then ctors
    else ctors ++ [first.ctor]
  | [] => ctors

/-- The heads of the first column. -/
def collectHeadConstructors (matrix : List (List Pat)) : List Constructor :=
  matrix.foldl addHead []

def specializePattern (pat : Pat) (ctor : Constructor) : Option (List Pat) :=
  if pat.isWildcard then some (List.replicate ctor.arity .wildcard)
  else if constructorsEqual pat.ctor ctor then some pat.fields
  else none

def specialize (matrix : List (List Pat)) (ctor : Constructor) : List (List Pat) :=
  matrix.filterMap fun row =>
    match row with
    | first :: rest => (specializePattern first ctor).map (· ++ rest)
    | [] => none

def specializeRow (row : List Pat) (ctor : Constructor) : List Pat :=
  match row with
  | first :: rest => ((specializePattern first ctor).map (· ++ rest)).getD []
  | [] => []

def defaultSpecialize (matrix : List (List Pat)) : List (List Pat) :=
  matrix.filterMap fun row =>
    match row with
    | first :: rest => if first.isWildcard then some rest else none
    | [] => none

/-- Whether a row of the matrix starts with a wildcard. -/
def hasWildcard (matrix : List (List Pat)) : Bool :=
  matrix.any fun row => row.head?.any Pat.isWildcard

/-- The constructors of the type that no row of the matrix starts with. -/
def missingCtors (ctors : List Constructor) (matrix : List (List Pat)) : List Constructor :=
  ctors.filter fun c => !(collectHeadConstructors matrix).any fun cc => constructorsEqual c cc

/-- The constructors in all patterns of a row. -/
def rowWeight (row : List Pat) : ℕ :=
  (row.map Pat.weight).sum

/-- The constructors in all rows of a matrix. -/
def matrixWeight (matrix : List (List Pat)) : ℕ :=
  (matrix.map rowWeight).sum

@[simp] theorem rowWeight_nil : rowWeight [] = 0 := rfl

@[simp] theorem rowWeight_cons (pat : Pat) (row : List Pat) :
    rowWeight (pat :: row) = pat.weight + rowWeight row := by
  simp [rowWeight]

@[simp] theorem rowWeight_append (row row' : List Pat) :
    rowWeight (row ++ row') = rowWeight row + rowWeight row' := by
  simp [rowWeight]

@[simp] theorem rowWeight_replicate (n : ℕ) : rowWeight (replicate n .wildcard) = 0 := by
  simp [rowWeight, Pat.weight]

@[simp] theorem matrixWeight_cons (row : List Pat) (matrix : List (List Pat)) :
    matrixWeight (row :: matrix) = rowWeight row + matrixWeight matrix := by
  simp [matrixWeight]

variable {pat : Pat}

theorem weight_of_ctor (h : pat.isWildcard = false) : pat.weight = 1 + rowWeight pat.fields := by
  cases pat with
  | wildcard => exact Bool.noConfusion h
  | _ => simp [Pat.weight, Pat.fields, rowWeight]

theorem rowWeight_specializePattern {ctor : Constructor} {fields : List Pat}
    (h : specializePattern pat ctor = some fields) :
    rowWeight fields + (if pat.isWildcard then 0 else 1) = pat.weight := by
  unfold specializePattern at h
  by_cases hw : pat.isWildcard = true
  · rw [if_pos hw, Option.some.injEq] at h
    subst h
    cases pat with
    | wildcard => simp [Pat.isWildcard, Pat.weight]
    | _ => exact Bool.noConfusion hw
  · rw [if_neg hw] at h
    split at h
    · cases h
      rw [weight_of_ctor (by simpa using hw), if_neg hw, add_comm]
    · cases h

theorem matrixWeight_default (matrix : List (List Pat)) :
    matrixWeight (defaultSpecialize matrix) ≤ matrixWeight matrix := by
  induction matrix with
  | nil => exact le_rfl
  | cons row matrix ih =>
    cases row with
    | nil => simpa [defaultSpecialize] using ih
    | cons first rest =>
      by_cases hw : first.isWildcard = true
      · simp only [defaultSpecialize, filterMap_cons, hw, if_true, matrixWeight_cons,
          rowWeight_cons] at ih ⊢
        omega
      · simp only [defaultSpecialize, filterMap_cons, hw, matrixWeight_cons, rowWeight_cons] at ih ⊢
        exact ih.trans (Nat.le_add_left _ _)

theorem matrixWeight_specialize (matrix : List (List Pat)) (ctor : Constructor) :
    matrixWeight (specialize matrix ctor) ≤ matrixWeight matrix := by
  induction matrix with
  | nil => exact le_rfl
  | cons row matrix ih =>
    cases row with
    | nil => simpa [specialize] using ih
    | cons first rest =>
      cases hs : specializePattern first ctor with
      | none =>
        simp only [specialize, filterMap_cons, hs, Option.map_none, matrixWeight_cons] at ih ⊢
        exact ih.trans (Nat.le_add_left _ _)
      | some fields =>
        have hle := rowWeight_specializePattern hs
        simp only [specialize, filterMap_cons, hs, Option.map_some, matrixWeight_cons,
          rowWeight_append, rowWeight_cons] at ih ⊢
        omega

variable {matrix : List (List Pat)} {ctors : List Constructor}

theorem matrixWeight_specialize_lt (ctor : Constructor)
    (hne : matrix.any (fun row => row.head?.any fun pat => !pat.isWildcard) = true)
    (hw : hasWildcard matrix = false) :
    matrixWeight (specialize matrix ctor) < matrixWeight matrix := by
  induction matrix with
  | nil => exact Bool.noConfusion hne
  | cons row matrix ih =>
    have hmatrix := matrixWeight_specialize matrix ctor
    cases row with
    | nil =>
      have hlt := ih (by simpa using hne) (by simpa [hasWildcard] using hw)
      simpa [specialize, rowWeight] using hlt
    | cons first rest =>
      have hfirst : first.isWildcard = false := by
        simp only [hasWildcard, any_cons, head?_cons, Option.any_some, Bool.or_eq_false_iff] at hw
        exact hw.1
      cases hs : specializePattern first ctor with
      | none =>
        have hpos := weight_of_ctor hfirst
        simp only [specialize, filterMap_cons, hs, Option.map_none, matrixWeight_cons,
          rowWeight_cons] at hmatrix ⊢
        omega
      | some fields =>
        have heq := rowWeight_specializePattern hs
        rw [hfirst] at heq
        simp only [specialize, filterMap_cons, hs, Option.map_some, matrixWeight_cons,
          rowWeight_append, rowWeight_cons, Bool.false_eq_true, if_false] at hmatrix heq ⊢
        omega

theorem constructorsEqual_refl (c : Constructor) : constructorsEqual c c = true := by
  cases c <;> simp [constructorsEqual]

theorem constructorsEqual_symm (c d : Constructor) :
    constructorsEqual c d = constructorsEqual d c := by
  cases c <;> cases d <;> simp [constructorsEqual, Bool.beq_comm]

theorem constructorsEqual_trans {c d e : Constructor} (h : constructorsEqual c d = true)
    (h' : constructorsEqual d e = true) : constructorsEqual c e = true := by
  cases c <;> cases d <;> cases e <;> simp_all [constructorsEqual]

theorem specializePattern_self (h : pat.isWildcard = false) :
    specializePattern pat pat.ctor = some pat.fields := by
  simp [specializePattern, h, constructorsEqual_refl]

/-- Whether some row of the matrix starts with a constructor equal to `c`. -/
def Lists (matrix : List (List Pat)) (c : Constructor) : Prop :=
  ∃ first rest, first :: rest ∈ matrix ∧ first.isWildcard = false ∧
    constructorsEqual c first.ctor = true

theorem any_addHead (ctors : List Constructor) (row : List Pat) (c : Constructor) :
    ((addHead ctors row).any fun d => constructorsEqual c d) = true ↔
      (ctors.any fun d => constructorsEqual c d) = true ∨ Lists [row] c := by
  cases row with
  | nil => simp [addHead, Lists]
  | cons first rest =>
    have hrow : Lists [first :: rest] c ↔
        first.isWildcard = false ∧ constructorsEqual c first.ctor = true := by
      simp [Lists]
    rw [hrow]
    by_cases hold : (first.isWildcard || ctors.any fun c => constructorsEqual c first.ctor) = true
    · rw [addHead, if_pos hold]
      refine ⟨.inl, ?_⟩
      rintro (h | ⟨hw, heq⟩)
      · exact h
      -- a head under an equal name is listed already
      · rw [hw, Bool.false_or, any_eq_true] at hold
        obtain ⟨d, hd, heq'⟩ := hold
        rw [constructorsEqual_symm] at heq'
        exact any_eq_true.2 ⟨d, hd, constructorsEqual_trans heq heq'⟩
    · rw [addHead, if_neg hold]
      simp only [Bool.or_eq_true, not_or, Bool.not_eq_true] at hold
      simp [hold.1]

theorem lists_cons (row : List Pat) (matrix : List (List Pat)) (c : Constructor) :
    Lists (row :: matrix) c ↔ Lists [row] c ∨ Lists matrix c := by
  constructor
  · rintro ⟨first, rest, hmem, h⟩
    rcases mem_cons.1 hmem with heq | hmem
    · exact .inl ⟨first, rest, mem_singleton.2 heq, h⟩
    · exact .inr ⟨first, rest, hmem, h⟩
  · rintro (⟨first, rest, hmem, h⟩ | ⟨first, rest, hmem, h⟩)
    · exact ⟨first, rest, mem_cons.2 (.inl (mem_singleton.1 hmem)), h⟩
    · exact ⟨first, rest, mem_cons_of_mem _ hmem, h⟩

theorem any_collectHeadConstructors (matrix : List (List Pat)) (c : Constructor) :
    ((collectHeadConstructors matrix).any fun d => constructorsEqual c d) = true ↔
      Lists matrix c := by
  have hfold : ∀ ctors : List Constructor,
      ((matrix.foldl addHead ctors).any fun d => constructorsEqual c d) = true ↔
        (ctors.any fun d => constructorsEqual c d) = true ∨ Lists matrix c := by
    induction matrix with
    | nil => intro ctors; simp [Lists]
    | cons row matrix ih =>
      intro ctors
      rw [foldl_cons, ih, any_addHead, lists_cons row matrix, or_assoc]
  simpa [collectHeadConstructors] using hfold []

theorem missingCtors_eq_nil (ctors : List Constructor) (matrix : List (List Pat)) :
    missingCtors ctors matrix = [] ↔ ∀ c ∈ ctors, Lists matrix c := by
  simp only [missingCtors, filter_eq_nil_iff, ← any_collectHeadConstructors]
  simp

theorem matrixWeight_specialize_listed (hne : ctors ≠ []) (hw : hasWildcard matrix = false)
    (hmissing : missingCtors ctors matrix = []) (ctor : Constructor) :
    matrixWeight (specialize matrix ctor) < matrixWeight matrix := by
  obtain ⟨c, hc⟩ := exists_mem_of_ne_nil ctors hne
  obtain ⟨first, rest, hmem, hfirst, -⟩ := (missingCtors_eq_nil ctors matrix).1 hmissing c hc
  refine matrixWeight_specialize_lt ctor (any_eq_true.2 ⟨_, hmem, ?_⟩) hw
  simp [hfirst]

theorem size_default (first : Pat) (matrix : List (List Pat)) (rest : List Pat) :
    Prod.Lex (· < ·) (· < ·) (matrixWeight (defaultSpecialize matrix) + rowWeight rest, rest.length)
      (matrixWeight matrix + rowWeight (first :: rest), (first :: rest).length) := by
  have hmatrix := matrixWeight_default matrix
  have hrow : rowWeight rest ≤ rowWeight (first :: rest) := by simp
  rcases Nat.lt_or_ge (matrixWeight (defaultSpecialize matrix) + rowWeight rest)
      (matrixWeight matrix + rowWeight (first :: rest)) with hlt | hge
  · exact Prod.Lex.left _ _ hlt
  · have heq : matrixWeight (defaultSpecialize matrix) + rowWeight rest =
        matrixWeight matrix + rowWeight (first :: rest) := by omega
    rw [heq]
    exact Prod.Lex.right _ (Nat.lt_succ_self _)

theorem size_listed {first : Pat} (hfirst : first.isWildcard = true)
    (hne : ctors.isEmpty = false) (hw : hasWildcard matrix = false)
    (hmissing : (missingCtors ctors matrix).isEmpty = true) (rest : List Pat) (c : Constructor) :
    Prod.Lex (· < ·) (· < ·)
      (matrixWeight (specialize matrix c) + rowWeight (specializeRow (first :: rest) c),
        (specializeRow (first :: rest) c).length)
      (matrixWeight matrix + rowWeight (first :: rest), (first :: rest).length) := by
  have hlt := matrixWeight_specialize_listed (by simpa using hne) hw (by simpa using hmissing) c
  have hrow : rowWeight (specializeRow (first :: rest) c) ≤ rowWeight (first :: rest) := by
    simp [specializeRow, specializePattern, hfirst]
  exact Prod.Lex.left _ _ (by omega)

theorem size_own {first : Pat} (hfirst : first.isWildcard = false) (matrix : List (List Pat))
    (rest : List Pat) : Prod.Lex (· < ·) (· < ·) (matrixWeight (specialize matrix first.ctor) +
          rowWeight (specializeRow (first :: rest) first.ctor),
        (specializeRow (first :: rest) first.ctor).length)
      (matrixWeight matrix + rowWeight (first :: rest), (first :: rest).length) := by
  have hmatrix := matrixWeight_specialize matrix first.ctor
  have hweight := weight_of_ctor hfirst
  have hrow : rowWeight (specializeRow (first :: rest) first.ctor) =
      rowWeight first.fields + rowWeight rest := by
    simp [specializeRow, specializePattern_self hfirst]
  have hcons := rowWeight_cons first rest
  exact Prod.Lex.left _ _ (by omega)

/-- Whether `row` matches something that no row of `matrix` matches. -/
def isUseful (matrix : List (List Pat)) (row : List Pat) (types : List Ty) : Bool :=
  match row with
  | [] => matrix.isEmpty
  | first :: rest =>
    let firstTy := types.headD .unknown
    let restTypes := types.tail
    if first.isWildcard then
      let ctors := ctx.typeConstructors firstTy
      if ctors.isEmpty || !ctx.hasFiniteConstructors firstTy then
        isUseful (defaultSpecialize matrix) rest restTypes
      else if hasWildcard matrix then
        isUseful (defaultSpecialize matrix) rest restTypes
      else if (missingCtors ctors matrix).isEmpty then
        ctors.any fun c =>
          isUseful (specialize matrix c) (specializeRow (first :: rest) c)
            (ctx.ctorFieldTypes c ++ restTypes)
      else true
    else
      isUseful (specialize matrix first.ctor) (specializeRow (first :: rest) first.ctor)
        (ctx.ctorFieldTypes first.ctor ++ restTypes)
termination_by (matrixWeight matrix + rowWeight row, row.length)
decreasing_by
  · exact size_default first matrix rest
  · exact size_default first matrix rest
  · rename_i hfirst hdefault hwild hmissing
    simp only [Bool.or_eq_true, not_or, Bool.not_eq_true] at hdefault
    exact size_listed hfirst hdefault.1 (by simpa using hwild) hmissing rest c
  · rename_i hfirst
    exact size_own (by simpa using hfirst) matrix rest

/-- The text of a constructor in a message, `format_constructor`. -/
def formatConstructor : Constructor → String
  | .wildcard => "_"
  | .bool b => toString b
  | .int n => toString n
  | .string s => "\"" ++ s ++ "\""
  | .variant enumPath variant arity =>
    let base := String.intercalate "." (enumPath.init ++ [enumPath.last]) ++ "." ++ variant
    if 0 < arity then
      base ++ "(" ++ String.intercalate ", " (List.replicate arity "_") ++ ")"
    else base

/-- What a match that is not exhaustive leaves out: the constructors of the scrutinee's type that
no arm starts with. -/
def computeWitnesses (matrix : List (List Pat)) (ty : Ty) : List String :=
  let witnesses := (missingCtors (ctx.typeConstructors ty) matrix).map formatConstructor
  if witnesses.isEmpty && !ctx.hasFiniteConstructors ty then ["_"] else witnesses

structure ExhaustivenessResult where
  isExhaustive : Bool
  witnesses : List String
  redundantPatterns : List ℕ
deriving DecidableEq, Repr

/-- The indices, from `idx` on, of the patterns that match nothing new after the rows of
`matrix`. -/
def redundantFrom (ty : Ty) (matrix : List (List Pat)) (idx : ℕ) : List Pat → List ℕ
  | [] => []
  | pat :: pats =>
    let later := redundantFrom ty (matrix ++ [[pat]]) (idx + 1) pats
    if isUseful ctx matrix [pat] [ty] then later else idx :: later

def checkExhaustiveness (patterns : List Pat) (scrutineeTy : Ty) : ExhaustivenessResult :=
  let matrix := patterns.map ([·])
  let isExhaustive := !isUseful ctx matrix [.wildcard] [scrutineeTy]
  { isExhaustive
    witnesses := if isExhaustive then [] else computeWitnesses ctx matrix scrutineeTy
    redundantPatterns := redundantFrom ctx scrutineeTy [] 0 patterns }

/-- The check of the arms of a `switch`. -/
def checkSwitch (patterns : List Pattern) (scrutineeTy : Ty) : ExhaustivenessResult :=
  checkExhaustiveness ctx (patterns.map (astToPatWithScrutinee · scrutineeTy)) scrutineeTy

theorem mem_redundantFrom (ty : Ty) (matrix : List (List Pat)) (idx : ℕ) (pats : List Pat) (i : ℕ) :
    i ∈ redundantFrom ctx ty matrix idx pats ↔ ∃ j pat, i = idx + j ∧ pats[j]? = some pat ∧
        isUseful ctx (matrix ++ (pats.take j).map ([·])) [pat] [ty] = false := by
  induction pats generalizing matrix idx with
  | nil => simp [redundantFrom]
  | cons pat pats ih =>
    have hlater : i ∈ redundantFrom ctx ty (matrix ++ [[pat]]) (idx + 1) pats ↔
        ∃ j q, i = idx + (j + 1) ∧ pats[j]? = some q ∧
          isUseful ctx (matrix ++ ((pat :: pats).take (j + 1)).map ([·])) [q] [ty] = false := by
      rw [ih]
      simp [add_assoc, add_comm 1]
    rw [redundantFrom]
    constructor
    · intro h
      split_ifs at h with huse
      · obtain ⟨j, q, hi, hq, huseless⟩ := hlater.1 h
        exact ⟨j + 1, q, hi, hq, huseless⟩
      · rcases mem_cons.1 h with hi | h
        · exact ⟨0, pat, hi, rfl, by simpa using huse⟩
        · obtain ⟨j, q, hi, hq, huseless⟩ := hlater.1 h
          exact ⟨j + 1, q, hi, hq, huseless⟩
    · rintro ⟨j, q, hi, hq, huseless⟩
      cases j with
      | zero =>
        have hpat : pat = q := by simpa using hq
        subst hpat
        rw [if_neg (by simpa using huseless), hi]
        exact mem_cons_self
      | succ j =>
        have hmem := hlater.2 ⟨j, q, hi, hq, huseless⟩
        split
        · exact hmem
        · exact mem_cons_of_mem _ hmem

end Context

end Arth.Patterns
