import Arth.Lib.Paths
import Arth.Typeck.Throws

/-!
# Exceptions at run time

The paths of a function body through its statements, with an event for every exception that
is raised. Values and conditions are left open: every branch may be taken and every loop may
go round any number of times.

* `Dynamics` — what names, calls and thrown expressions stand for.
* `Place` — where in the body a piece stands, as the two walkers of the check see it.
* `exprPaths`, `stmtPaths`, `blockPaths` — the first matching clause takes an exception, the
  finally block runs on every exit.
-/

namespace Arth.Throws

open Arth.Ast

/-- The types that names stand for, and the exceptions that calls and thrown expressions may
raise. -/
structure Dynamics (T : Type) where
  denotes : String → Option T
  callThrows : Expr → T → Prop
  typeOf : Expr → T → Prop

variable {T : Type}

/-- A name in a clause lets a type in: it stands for the type, or it is "Error". -/
def Dynamics.covers (d : Dynamics T) (name : String) (t : T) : Prop :=
  name = "Error" ∨ d.denotes name = some t

instance [DecidableEq T] (d : Dynamics T) (name : String) (t : T) : Decidable (d.covers name t) :=
  inferInstanceAs (Decidable (_ ∨ _))

/-- A clause without a type takes everything. -/
def Dynamics.takes (d : Dynamics T) (clause : Option String) (t : T) : Prop :=
  clause.elim True fun name => d.covers name t

instance [DecidableEq T] (d : Dynamics T) (clause : Option String) (t : T) : Decidable (d.takes clause t) :=
  match clause with
  | none => inferInstanceAs (Decidable True)
  | some name => inferInstanceAs (Decidable (d.covers name t))

/-- Where a piece of a body stands: whether `walk_block` looks at it, whether it is part of
what `collect_thrown_types_in_block` gathers for a try statement, the catch variables, and the
clauses of the try statements around it with the `throws` clause last. -/
structure Place where
  seen : Bool
  gathered : Bool
  vars : Vars
  clauses : List (Option String)

namespace Place

/-- The body of a function. -/
def start (declared : List String) : Place := ⟨true, false, [], declared.map some⟩

/-- A piece that neither walker looks at. -/
def unread (pl : Place) : Place := { pl with seen := false, gathered := false }

def unseen (pl : Place) : Place := { pl with seen := false }

def ungathered (pl : Place) : Place := { pl with gathered := false }

/-- Left out of the walk, and gathered only if the flag says so. -/
def aside (pl : Place) (gathers : Bool) : Place :=
  { pl with seen := false, gathered := pl.gathered && gathers }

def labeled (pl : Place) (enters : Bool) : Place :=
  { pl with seen := pl.seen && enters, gathered := false }

def inTry (pl : Place) (catches : List Catch) : Place :=
  { pl with
    gathered := pl.gathered || pl.seen
    clauses := (catches.map fun c => c.1.map typeText) ++ pl.clauses }

def inCatch (pl : Place) (ty : Option NamePath) (var : Option String) : Place :=
  { pl with vars := Catch.bind pl.vars ty var }

end Place

/-! ## Events and exits -/

inductive Exit (T : Type) where
  | breakTo (label : Option String)
  | continueTo (label : Option String)
  | returned
  | raised (t : T)
  | panicked

/-- What raises an exception: a call, a thrown expression, or a variable that holds an
exception which a typed clause caught. -/
inductive Site where
  | call (callee : Expr)
  | thrown (e : Expr)
  | rethrown (var : String)

structure Raise (T : Type) where
  place : Place
  site : Site
  type : T

/-- The exceptions that variables are known to hold since a typed clause bound them. What
other variables hold is left to `Dynamics.typeOf`. -/
abbrev Env (T : Type) := String → Option T

abbrev Run (T : Type) := Paths (Env T) (Raise T) (Exit T)

def forget (x : String) (s : Env T) : Env T := fun y => if y = x then none else s y

def raising (pl : Place) (site : Site) (types : T → Prop) : Run T :=
  Paths.failing fun ev a => ∃ t, types t ∧ ev = ⟨pl, site, t⟩ ∧ a = .raised t

mutual

/-- Operands first, then the call itself may raise. The right operand of `&&` and `||` may be
left out; the body of a function literal is not run here. -/
def exprPaths (d : Dynamics T) (pl : Place) : Expr → Run T
  | .call callee args =>
    (exprPaths d pl callee).seq ((exprListPaths d pl args).seq
      (Paths.skip.alt (raising pl (.call callee) (d.callThrows callee))))
  | .binary l op r =>
    if op = .and ∨ op = .or then (exprPaths d pl l).seq ((exprPaths d pl r).alt .skip)
    else (exprPaths d pl l).seq (exprPaths d pl r)
  | .unary _ inner => exprPaths d pl inner
  | .ternary c t f => (exprPaths d pl c).seq ((exprPaths d pl t).alt (exprPaths d pl f))
  | .member obj _ => exprPaths d pl obj
  | .optionalMember obj _ => exprPaths d pl.ungathered obj
  | .index obj idx => (exprPaths d pl obj).seq (exprPaths d pl idx)
  | .await inner => exprPaths d pl inner
  | .cast _ inner => exprPaths d pl inner
  | .listLit items => exprListPaths d pl items
  | .mapLit pairs spread => (exprPairPaths d pl pairs).seq (exprOptionPaths d pl spread)
  | .structLit _ fields spread =>
    (exprFieldPaths d pl fields).seq (exprOptionPaths d pl spread)
  | .int _ | .float _ | .str _ | .char _ | .bool _ | .ident _ | .fnLiteral _ _ => .skip

def exprListPaths (d : Dynamics T) (pl : Place) : List Expr → Run T
  | [] => .skip
  | e :: es => (exprPaths d pl e).seq (exprListPaths d pl es)

def exprOptionPaths (d : Dynamics T) (pl : Place) : Option Expr → Run T
  | none => .skip
  | some e => exprPaths d pl e

def exprPairPaths (d : Dynamics T) (pl : Place) : List (Expr × Expr) → Run T
  | [] => .skip
  | (k, v) :: rest =>
    (exprPaths d pl k).seq ((exprPaths d pl v).seq (exprPairPaths d pl rest))

def exprFieldPaths (d : Dynamics T) (pl : Place) : List (String × Expr) → Run T
  | [] => .skip
  | (_, v) :: rest => (exprPaths d pl v).seq (exprFieldPaths d pl rest)

end

/-! ## Statements -/

/-- The exception that the environment knows a thrown expression to be. -/
def held (s : Env T) : Expr → Option (String × T)
  | .ident x => (s x).map fun t => (x, t)
  | _ => none

def throwing (d : Dynamics T) (pl : Place) (e : Expr) : Run T :=
  Paths.depending fun s => (held s e).elim (raising pl (.thrown e) (d.typeOf e)) fun known =>
    raising pl (.rethrown known.1) fun t => t = known.2

def onBreak (label : Option String) : Exit T → Option (Run T)
  | .breakTo l => if l = label then some .skip else none
  | _ => none

/-- A continue that means this loop: the bare one and the one with the loop's label. -/
def onContinue (label : Option String) : Exit T → Option (Run T)
  | .continueTo l => if l = none ∨ l = label then some .skip else none
  | _ => none

def onRaise (handler : T → Option (Run T)) : Exit T → Option (Run T)
  | .raised t => handler t
  | _ => none

/-- A loop with its condition before each round. -/
def looping (cond body step : Run T) (label : Option String) : Run T :=
  (((cond.seq ((body.handle (onContinue label)).seq step)).loop).seq cond).handle (onBreak none)

/-- The clause's variable holds the exception; an untyped clause leaves it unknown. -/
def bindCatch (ty : Option NamePath) (var : Option String) (t : T) (s : Env T) : Env T :=
  match var, ty with
  | some x, some _ => fun y => if y = x then some t else s y
  | some x, none => forget x s
  | none, _ => s

def unbindCatch (var : Option String) (s : Env T) : Env T := var.elim s (forget · s)

/-- The initialisers and steps of a `for` that the exhaustiveness check gathers. -/
def gathersInit : Stmt → Bool
  | .varDecl _ _ _ _ _ _ _ | .assign _ _ | .expr _ => true
  | _ => false

def gathersStep : Stmt → Bool
  | .assign _ _ | .assignOp _ _ _ | .expr _ => true
  | _ => false

variable [DecidableEq T]

mutual

/-- The paths of a statement; `label` is the label on it. -/
def stmtPaths (d : Dynamics T) (pl : Place) (label : Option String) : Stmt → Run T
  | .printStr _ | .printRawStr _ => .skip
  | .printExpr e | .printRawExpr e => exprPaths d pl.unread e
  | .ifElse cond thenBlk elseBlk =>
    (exprPaths d pl cond).seq ((blockPaths d pl thenBlk).alt (optionPaths d pl elseBlk))
  | .whileLoop cond body => looping (exprPaths d pl cond) (blockPaths d pl body) .skip label
  | .forLoop init cond step body =>
    (oneOptionPaths d (pl.aside (init.elim true gathersInit)) init).seq
      (looping (exprOptionPaths d pl cond) (blockPaths d pl body)
        (oneOptionPaths d (pl.aside (step.elim true gathersStep)) step) label)
  | .labeled l stmt =>
    (stmtPaths d (pl.labeled (entersLabeled stmt)) (some l) stmt).handle (onBreak (some l))
  | .switch e cases patternCases default =>
    -- values are tried in turn, patterns match without running anything
    (exprPaths d pl e).seq ((casePaths d pl cases (optionPaths d pl default)).alt
      (patternCasePaths d pl.unseen patternCases))
  | .tryCatch tryBlk catches finallyBlk =>
    ((blockPaths d (pl.inTry catches) tryBlk).handle (onRaise (catchPaths d pl catches))).always
      (optionPaths d pl finallyBlk)
  | .assign x e => (exprPaths d pl e).seq (.update (forget x))
  | .fieldAssign obj _ e => (exprPaths d pl.unread obj).seq (exprPaths d pl e)
  | .assignOp x _ e => (exprPaths d pl e).seq (.update (forget x))
  | .varDecl _ _ _ _ _ x init => (exprOptionPaths d pl init).seq (.update (forget x))
  | .breakLoop l => .leave (.breakTo l)
  | .continueLoop l => .leave (.continueTo l)
  | .returnExpr e => (exprOptionPaths d pl e).seq (.leave .returned)
  | .throwExpr e => (exprPaths d pl.unread e).seq (throwing d pl e)
  | .panicExpr e => (exprPaths d pl.unread e).seq (.leave .panicked)
  | .block b => blockPaths d pl b
  | .expr e => exprPaths d pl e
  | .unsafeBlock b => blockPaths d pl b

def blockPaths (d : Dynamics T) (pl : Place) : List Stmt → Run T
  | [] => .skip
  | st :: rest => (stmtPaths d pl none st).seq (blockPaths d pl rest)

def optionPaths (d : Dynamics T) (pl : Place) : Option (List Stmt) → Run T
  | none => .skip
  | some b => blockPaths d pl b

def oneOptionPaths (d : Dynamics T) (pl : Place) : Option Stmt → Run T
  | none => .skip
  | some st => stmtPaths d pl none st

def casePaths (d : Dynamics T) (pl : Place) : List (Expr × List Stmt) → Run T → Run T
  | [], default => default
  | (e, b) :: rest, default =>
    (exprPaths d pl.unread e).seq ((blockPaths d pl b).alt (casePaths d pl rest default))

def patternCasePaths (d : Dynamics T) (pl : Place) : List (Pattern × List Stmt) → Run T
  | [] => .skip
  | (_, b) :: rest => (blockPaths d pl b).alt (patternCasePaths d pl rest)

/-- The first clause that takes the type, if there is one. -/
def catchPaths (d : Dynamics T) (pl : Place) : List Catch → T → Option (Run T)
  | [], _ => none
  | (ty, var, b) :: rest, t =>
    if d.takes (ty.map typeText) t then
      some (((Paths.update (bindCatch ty var t)).seq (blockPaths d (pl.inCatch ty var) b)).always
        (.update (unbindCatch var)))
    else catchPaths d pl rest t

end

end Arth.Throws
