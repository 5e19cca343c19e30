import Mathlib

/-!
# The constraint solver for generic calls

* `Ty` — the types; `sameType` — when two of them match.
* `applySubst` — a type with the bound type parameters replaced; `unify` — two types are made the
  same by binding type parameters. The first argument of both bounds the depth of their calls.
* `Run` — the calls of `unify` that are made on one solver.
-/

namespace Arth.Constraints

/-! ## Types -/

inductive BorrowMode where
  | shared | exclusive
  deriving DecidableEq

inductive Region where
  | concrete (id : ℕ)
  | var (id : ℕ)
  | static
  deriving DecidableEq

inductive Ty where
  | int | float | bool | string | char | bytes | void
  | function (params : List Ty) (ret : Ty)
  | named (path : List String)
  | generic (path : List String) (args : List Ty)
  | tuple (elems : List Ty)
  | never
  | ref (inner : Ty) (mode : BorrowMode) (region : Region)
  | unknown

def Region.compatible : Region → Region → Bool
  | .concrete a, .concrete b => a = b
  | .static, .static => true
  | .var _, _ => true
  | _, .var _ => true
  | _, _ => false

mutual

/-- `same_type`: `Unknown` and `Never` match every type. -/
def sameType : Ty → Ty → Bool
  | .unknown, _ => true
  | _, .unknown => true
  | .never, _ => true
  | _, .never => true
  | .function ap ar, .function bp br => ap.length = bp.length && (sameType ar br && sameTypes ap bp)
  | .named a, .named b => a = b
  | .generic ap aa, .generic bp ba => ap = bp && (aa.length = ba.length && sameTypes aa ba)
  | .generic path args, .named other => args.isEmpty && path = other
  | .named other, .generic path args => args.isEmpty && path = other
  | .tuple as, .tuple bs => as.length = bs.length && sameTypes as bs
  | .ref a m r, .ref b m' r' => m = m' && (sameType a b && r.compatible r')
  | .int, .int | .float, .float | .bool, .bool | .string, .string | .char, .char => true
  | .bytes, .bytes | .void, .void => true
  | _, _ => false

def sameTypes : List Ty → List Ty → Bool
  | a :: as, b :: bs => sameType a b && sameTypes as bs
  | _, _ => true

end

mutual

def occursIn (param : String) : Ty → Bool
  | .named path => path = [param]
  | .generic _ args => occursInAny param args
  | .function params ret => occursInAny param params || occursIn param ret
  | .tuple elems => occursInAny param elems
  | _ => false

def occursInAny (param : String) : List Ty → Bool
  | [] => false
  | t :: ts => occursIn param t || occursInAny param ts

end

abbrev Subst := String → Option Ty

/-- What a path is bound to, if it is the name of a type parameter that is bound. -/
def bound (σ : Subst) : List String → Option Ty
  | [x] => σ x
  | _ => none

def applySubst (σ : Subst) : ℕ → Ty → Option Ty
  | 0, _ => none
  | n + 1, .named path =>
    match bound σ path with
    | some t => applySubst σ n t
    | none => some (.named path)
  | n + 1, .generic path args =>
    match bound σ path with
    | some (.generic bp ba) =>
      ((if ba.isEmpty then args else ba).mapM (applySubst σ n)).map (.generic bp)
    | some t => applySubst σ n t
    | none => (args.mapM (applySubst σ n)).map (.generic path)
  | n + 1, .function params ret =>
    (params.mapM (applySubst σ n)).bind fun params =>
      (applySubst σ n ret).map (.function params)
  | n + 1, .tuple elems => (elems.mapM (applySubst σ n)).map .tuple
  | _ + 1, t => some t

/-! ## The solver -/

inductive ConstraintError where
  | occursCheck (typeParam : String) (inType : Ty)

structure Solver where
  typeParams : List String
  substitution : Subst
  errors : List ConstraintError

def fromNames (names : List String) : Solver := ⟨names, fun _ => none, []⟩

/-- The type parameter that a type is. -/
def Solver.param (s : Solver) : Ty → Option String
  | .named [x] => if x ∈ s.typeParams then some x else none
  | _ => none

def bindTypeParam (s : Solver) (param : String) (ty : Ty) : Bool × Solver :=
  match s.substitution param with
  | some existing => (sameType existing ty, s)
  | none =>
    if occursIn param ty then
      (false, { s with errors := s.errors ++ [.occursCheck param ty] })
    else (true, { s with substitution := Function.update s.substitution param (some ty) })

/-- The pairs of types that two types of one shape consist of, in the order in which they are
unified; the result of a function comes first. -/
def parts : Ty → Ty → Option (List (Ty × Ty))
  | .int, .int | .float, .float | .bool, .bool | .string, .string | .char, .char => some []
  | .bytes, .bytes | .void, .void => some []
  | .named a, .named b => if a = b then some [] else none
  | .generic pa aa, .generic pb ab =>
    if pa = pb ∧ aa.length = ab.length then some (aa.zip ab) else none
  -- a generic type without arguments is a name
  | .generic path args, .named other => if args = [] ∧ path = other then some [] else none
  | .named other, .generic path args => if args = [] ∧ path = other then some [] else none
  | .function pa ra, .function pb rb =>
    if pa.length = pb.length then some ((ra, rb) :: pa.zip pb) else none
  | .tuple ea, .tuple eb => if ea.length = eb.length then some (ea.zip eb) else none
  | _, _ => none

/-- One pair after another, up to the first that fails. -/
def inTurn (f : Solver → Ty → Ty → Option (Bool × Solver)) :
    Solver → List (Ty × Ty) → Option (Bool × Solver)
  | s, [] => some (true, s)
  | s, (a, b) :: ps => (f s a b).bind fun r => if r.1 then inTurn f r.2 ps else some (false, r.2)

def isUnknown : Ty → Bool
  | .unknown => true
  | _ => false

def isNever : Ty → Bool
  | .never => true
  | _ => false

/-- `unify` of two types whose bound parameters have been replaced; `f` unifies their parts. -/
def unifyResolved (f : Solver → Ty → Ty → Option (Bool × Solver)) (s : Solver) (lhs rhs : Ty) :
    Option (Bool × Solver) :=
  if isUnknown lhs || isUnknown rhs || isNever lhs || isNever rhs then some (true, s)
  else
    match s.param lhs with
    | some x => some (bindTypeParam s x rhs)
    | none =>
      match s.param rhs with
      | some x => some (bindTypeParam s x lhs)
      | none =>
        match parts lhs rhs with
        | some ps => inTurn f s ps
        | none => some (false, s)

def unify : ℕ → Solver → Ty → Ty → Option (Bool × Solver)
  | 0, _, _, _ => none
  | n + 1, s, lhs, rhs =>
    (applySubst s.substitution n lhs).bind fun lhs =>
      (applySubst s.substitution n rhs).bind fun rhs => unifyResolved (unify n) s lhs rhs

/-- The calls of `unify` that are made on a solver, one after another, and what becomes of it. -/
inductive Run : Solver → List (Ty × Ty) → Solver → Prop
  | nil {s : Solver} : Run s [] s
  | cons {s s₁ s₂ : Solver} {a b : Ty} {n : ℕ} {ok : Bool} {calls : List (Ty × Ty)} :
      unify n s a b = some (ok, s₁) → Run s₁ calls s₂ → Run s ((a, b) :: calls) s₂

end Arth.Constraints
