import Arth.Lib.Paths
import Arth.Typeck.DefAssign

/-!
# Reads of locals at run time

The paths of a function body over a store that knows which locals have been assigned. A read of
a local without a value leaves the path with `unset`. Values and conditions are left open, and
operators, calls and indexing may raise an exception.

* `Local`, `Store` — the locals in scope, innermost first.
* `Event` — reads, declarations and breaks out of a switch, with what is said about them in the
  condition on runs.
* `exprPaths`, `stmtPaths`, `blockPaths`.
-/

namespace Arth.DefAssign

open Arth.Ast

/-- A local: whether it was declared with a value, and whether it has one now. -/
structure Local where
  name : String
  born : Bool
  set : Bool

abbrev Store := List Local

def Store.hasUnset (s : Store) (name : String) : Bool := s.any fun l => l.name == name && !l.set

def Store.setLocal : Store → String → Store
  | [], _ => []
  | l :: rest, name =>
    if l.name = name then { l with set := true } :: rest else l :: Store.setLocal rest name

/-- Back to the locals that were there before a scope was opened. -/
def Store.restore (s : Store) (depth : Nat) : Store := s.drop (s.length - depth)

inductive Exit where
  | breakTo (label : Option String)
  | continueTo (label : Option String)
  | returned
  | raised
  | panicked
  /-- A local was read that has no value. -/
  | unset (name : String)

inductive Event where
  /-- A read of a local: whether the check tests its name there, whether it had no value when
  the loop was entered to whose step a `continue` has jumped, and whether it was declared with
  a value. -/
  | read (name : String) (tested stale born : Bool)
  /-- A declaration: whether it hides a local that has no value. -/
  | declare (name : String) (hides : Bool)
  /-- A break out of a switch: whether one of its branches is always taken, and whether a local
  has no value. -/
  | leaveSwitch (complete unset : Bool)
  /-- No pattern of a switch without default matches. -/
  | noMatch

abbrev Run := Paths Store Event Exit

/-- The names that the check tests at a place, and the names that had no value when the loop was
entered to whose step a `continue` has jumped. -/
structure Place where
  tested : List String
  stale : String → Bool

def Place.testing (pl : Place) (names : List String) : Place := { pl with tested := names }

/-- The step of a loop that was entered with this store. -/
def Place.afterContinue (pl : Place) (entry : Store) : Place :=
  { pl with stale := fun name => pl.stale name || entry.hasUnset name }

/-! ## Expressions -/

def reading (pl : Place) (name : String) : Run :=
  Paths.depending fun s => (s.find? fun l => l.name == name).elim .skip fun l =>
    (Paths.event (.read name (pl.tested.contains name) (pl.stale name) l.born)).seq
      (if l.set then .skip else .leave (.unset name))

def readingAll (pl : Place) : List String → Run
  | [] => .skip
  | name :: rest => (reading pl name).seq (readingAll pl rest)

def mayRaise : Run := Paths.skip.alt (.leave .raised)

mutual

/-- The reads of an expression. A lambda reads what it captures; the key of a map literal may be
a field name, which is not read. -/
def exprPaths (tb : Tables) (pl : Place) : Expr → Run
  | .int _ | .float _ | .str _ | .char _ | .bool _ => .skip
  | .ident name => reading pl name
  | .await inner => (exprPaths tb pl inner).seq mayRaise
  | .cast _ inner => exprPaths tb pl inner
  | .fnLiteral params body => readingAll pl (tb.captures params body)
  | .ternary c t f => (exprPaths tb pl c).seq ((exprPaths tb pl t).alt (exprPaths tb pl f))
  | .binary l op r =>
    if op = .and ∨ op = .or then (exprPaths tb pl l).seq ((exprPaths tb pl r).alt .skip)
    else (exprPaths tb pl l).seq ((exprPaths tb pl r).seq mayRaise)
  | .unary _ inner => exprPaths tb pl inner
  | .call callee args => (exprPaths tb pl callee).seq ((exprListPaths tb pl args).seq mayRaise)
  | .member obj _ => exprPaths tb pl obj
  | .optionalMember obj _ => exprPaths tb pl obj
  | .index obj idx => (exprPaths tb pl obj).seq ((exprPaths tb pl idx).seq mayRaise)
  | .listLit items => exprListPaths tb pl items
  | .mapLit pairs spread => (exprOptionPaths tb pl spread).seq (exprPairPaths tb pl pairs)
  | .structLit _ fields spread =>
    (exprOptionPaths tb pl spread).seq (exprFieldPaths tb pl fields)

def exprListPaths (tb : Tables) (pl : Place) : List Expr → Run
  | [] => .skip
  | e :: es => (exprPaths tb pl e).seq (exprListPaths tb pl es)

def exprOptionPaths (tb : Tables) (pl : Place) : Option Expr → Run
  | none => .skip
  | some e => exprPaths tb pl e

def exprPairPaths (tb : Tables) (pl : Place) : List (Expr × Expr) → Run
  | [] => .skip
  | (k, v) :: rest =>
    ((exprPaths tb pl k).alt .skip).seq ((exprPaths tb pl v).seq (exprPairPaths tb pl rest))

def exprFieldPaths (tb : Tables) (pl : Place) : List (String × Expr) → Run
  | [] => .skip
  | (_, v) :: rest => (exprPaths tb pl v).seq (exprFieldPaths tb pl rest)

end

/-! ## Statements -/

/-- A new local in front; `born` says whether it has a value from the start. -/
def declaring (name : String) (born : Bool) : Run :=
  Paths.depending fun s => (Paths.event (.declare name (s.hasUnset name))).seq
    (.update fun s => ⟨name, born, born⟩ :: s)

def declaringAll : List String → Run
  | [] => .skip
  | name :: rest => (declaring name true).seq (declaringAll rest)

/-- A scope of its own. -/
def inScope (p : Run) : Run := Paths.depending fun s => p.always (.update (·.restore s.length))

def onBreak (label : Option String) : Exit → Option Run
  | .breakTo l => if l = none ∨ l = label then some .skip else none
  | _ => none

def onContinue (label : Option String) (step : Run) : Exit → Option Run
  | .continueTo l => if l = none ∨ l = label then some step else none
  | _ => none

def onRaise (handler : Run) : Exit → Option Run
  | .raised => some handler
  | _ => none

/-- A break out of a switch is an event. -/
def onSwitchBreak (label : Option String) (complete : Bool) : Exit → Option Run
  | .breakTo l =>
    if l = none ∨ l = label then
      some (.depending fun s => .event (.leaveSwitch complete (s.any fun l => !l.set)))
    else none
  | _ => none

/-- A loop: the step after the end of the body, or after a `continue`. -/
def looping (cond body step stepAfterContinue : Run) (label : Option String) : Run :=
  (((cond.seq (body.resume step (onContinue label stepAfterContinue))).loop).seq cond).handle
    (onBreak label)

/-- A handler may take an exit or leave it to the constructs around. -/
def maybeHandle (p : Run) (h : Exit → Option Run) : Run := (p.handle h).alt p

mutual

/-- The paths of a statement; `label` is the label on it and `ret` the function's return type. A
bare `break` in a switch may mean the switch or the loop around it. -/
def stmtPaths (tb : Tables) (ret : Option NamePath) (pl : Place) (label : Option String) :
    Stmt → Run
  | .printStr _ | .printRawStr _ => .skip
  | .printExpr e | .printRawExpr e => exprPaths tb (pl.testing (tb.printTests e)) e
  | .ifElse cond thenBlk elseBlk =>
    (exprPaths tb (pl.testing (tb.typeTests cond)) cond).seq
      ((inScope (blockPaths tb ret pl thenBlk)).alt (optionPaths tb ret pl elseBlk))
  | .whileLoop cond body =>
    looping (exprPaths tb (pl.testing (tb.exprTests cond)) cond)
      (inScope (blockPaths tb ret pl body)) .skip .skip label
  | .forLoop init cond step body =>
    inScope ((oneOptionPaths tb ret pl init).seq (.depending fun entry =>
      looping (exprOptionPaths tb (pl.testing (cond.elim [] tb.exprTests)) cond)
        (inScope (blockPaths tb ret pl body)) (inScope (oneOptionPaths tb ret pl step))
        (inScope (oneOptionPaths tb ret (pl.afterContinue entry) step)) label))
  | .labeled l stmt => stmtPaths tb ret pl (some l) stmt
  | .switch e cases patternCases default =>
    (exprPaths tb (pl.testing (tb.exprTests e)) e).seq (maybeHandle
      (casePaths tb ret pl cases (patternCasePaths tb ret pl patternCases
        (if default.isNone && !patternCases.isEmpty then .event .noMatch
          else optionPaths tb ret pl default)))
      (onSwitchBreak label (default.isSome || !patternCases.isEmpty)))
  | .tryCatch tryBlk catches finallyBlk =>
    (maybeHandle (inScope (blockPaths tb ret pl tryBlk))
      (onRaise (catchPaths tb ret pl catches))).always (optionPaths tb ret pl finallyBlk)
  | .assign name e =>
    (exprPaths tb (pl.testing (tb.exprTests e)) e).seq (.update (·.setLocal name))
  | .fieldAssign (.ident x) _ e =>
    (reading (pl.testing (tb.exprTests e)) x).seq (exprPaths tb (pl.testing (tb.exprTests e)) e)
  | .fieldAssign object _ e =>
    (exprPaths tb (pl.testing (tb.exprTests e ++ tb.typeTests object)) object).seq
      (exprPaths tb (pl.testing (tb.exprTests e ++ tb.typeTests object)) e)
  | .assignOp name _ e =>
    (reading (pl.testing (tb.exprTests e)) name).seq
      ((exprPaths tb (pl.testing (tb.exprTests e)) e).seq (.update (·.setLocal name)))
  | .varDecl _ _ _ _ _ name none => declaring name false
  | .varDecl _ _ ty _ _ name (some e) =>
    (exprPaths tb (pl.testing (tb.valueTests ty e)) e).seq (declaring name true)
  | .breakLoop l => .leave (.breakTo l)
  | .continueLoop l => .leave (.continueTo l)
  | .returnExpr e =>
    (exprOptionPaths tb (pl.testing
      (e.elim [] fun e => ret.elim (tb.exprTests e) fun ty => tb.valueTests ty e)) e).seq
        (.leave .returned)
  | .throwExpr e => (exprPaths tb (pl.testing (tb.exprTests e)) e).seq (.leave .raised)
  | .panicExpr e => (exprPaths tb (pl.testing (tb.exprTests e)) e).seq (.leave .panicked)
  | .block b => inScope (blockPaths tb ret pl b)
  | .expr e => exprPaths tb (pl.testing (tb.exprTests e)) e
  | .unsafeBlock b => inScope (blockPaths tb ret pl b)

def blockPaths (tb : Tables) (ret : Option NamePath) (pl : Place) : List Stmt → Run
  | [] => .skip
  | st :: rest => (stmtPaths tb ret pl none st).seq (blockPaths tb ret pl rest)

def optionPaths (tb : Tables) (ret : Option NamePath) (pl : Place) : Option (List Stmt) → Run
  | none => .skip
  | some b => inScope (blockPaths tb ret pl b)

def oneOptionPaths (tb : Tables) (ret : Option NamePath) (pl : Place) : Option Stmt → Run
  | none => .skip
  | some st => stmtPaths tb ret pl none st

/-- The first case that matches; the values compared with are not tested. -/
def casePaths (tb : Tables) (ret : Option NamePath) (pl : Place) :
    List (Expr × List Stmt) → Run → Run
  | [], otherwise => otherwise
  | (e, b) :: rest, otherwise =>
    (exprPaths tb (pl.testing []) e).seq
      ((inScope (blockPaths tb ret pl b)).alt (casePaths tb ret pl rest otherwise))

def patternCasePaths (tb : Tables) (ret : Option NamePath) (pl : Place) :
    List (Pattern × List Stmt) → Run → Run
  | [], otherwise => otherwise
  | (p, b) :: rest, otherwise =>
    (inScope ((declaringAll (patternBindings p)).seq (blockPaths tb ret pl b))).alt
      (patternCasePaths tb ret pl rest otherwise)

/-- A clause that takes the exception, or none of them. -/
def catchPaths (tb : Tables) (ret : Option NamePath) (pl : Place) :
    List (Option NamePath × Option String × List Stmt) → Run
  | [] => .leave .raised
  | (_, var, b) :: rest =>
    (inScope ((declaringAll var.toList).seq (blockPaths tb ret pl b))).alt
      (catchPaths tb ret pl rest)

end

end Arth.DefAssign
