import Arth.Ir.Syntax
import Arth.Lower.Optionals

/-!
# Conditions, lowered by control flow and by data flow

* `lowerExpr`, `lowerCond` — the two ways a boolean expression is lowered.
* `Code.exec` — what their code does; it records every operand and call it evaluates.
* `BoolExpr.value`, `BoolExpr.cond` — the meaning of the two, without ids and slots.
* `computes_value`, `computes_cond` — the code does what they say.
* `SameEvaluation` — both evaluate the same, whatever the operands and the calls do.
-/

namespace Arth.Conditions

open Function

open Ir (CmpPred)
open Arth.Optionals (eqI64)

/-- The order of the floats that are numbers, as integers: the two zeros are the same. -/
def F64.key (x : F64) : Int :=
  let magnitude : Int := (x.bits &&& 0x7FFFFFFFFFFFFFFF).toNat
  if x.bits >>> 63 = 0 then magnitude else -magnitude

/-- `<` of two floats: no NaN is less than anything. -/
def F64.lt (x y : F64) : Bool :=
  !Optionals.F64.isNaN x && !Optionals.F64.isNaN y && F64.key x < F64.key y

/-- `Op::LtI64`. -/
def ltI64 : Value → Value → Option Bool
  | .i64 a, .i64 b => some (a < b)
  | .f64 a, .f64 b => some (F64.lt a b)
  | .i64 a, .f64 b => some (F64.lt (Optionals.F64.ofInt64 a) b)
  | .f64 a, .i64 b => some (F64.lt a (Optionals.F64.ofInt64 b))
  | .str a, .str b => some (a < b)
  | _, _ => none

/-- The operations of a comparison. `Ne`, `Le` and `Ge` compare what another comparison gives
with `false`. -/
def compare : CmpPred → Value → Value → Option Bool
  | .eq, a, b => eqI64 a b
  | .lt, a, b => ltI64 a b
  | .gt, a, b => ltI64 b a
  | .le, a, b => (ltI64 b a).bind fun r => eqI64 (.bool r) (.bool false)
  | .ge, a, b => (ltI64 a b).bind fun r => eqI64 (.bool r) (.bool false)
  | .ne, a, b => (eqI64 a b).bind fun r => eqI64 (.bool r) (.bool false)

inductive BitOp where
  | and | or

/-- `Op::AndI64` and `Op::OrI64`, of two integers only. -/
def BitOp.apply : BitOp → Value → Value → Option Value
  | .and, .i64 a, .i64 b => some (.i64 (a &&& b))
  | .or, .i64 a, .i64 b => some (.i64 (a ||| b))
  | _, _, _ => none

/-- What a value says: a boolean itself, and a number that it is not zero. -/
def truth : Value → Option Bool
  | .bool b => some b
  | .str _ => none
  | v => compare .ne v (.i64 0)

/-- Boolean expressions over operands of type `E`, which both ways lower by `lower_expr`.
Comparisons and calls have their `HirId`. -/
inductive BoolExpr (E : Type) where
  | cmp (id : Nat) (pred : CmpPred) (left right : E)
  | call (id : Nat) (callee : String) (args : List E)
  | not (x : BoolExpr E)
  | and (left right : BoolExpr E)
  | or (left right : BoolExpr E)

variable {E : Type}

/-- The comparisons and calls of an expression, from left to right. -/
def BoolExpr.ids : BoolExpr E → List Nat
  | .cmp id .. | .call id .. => [id]
  | .not x => x.ids
  | .and l r | .or l r => l.ids ++ r.ids

/-- An expression whose ids are fresh, as `make_hir_file` gives them out. -/
structure Tree (E : Type) where
  expr : BoolExpr E
  fresh : expr.ids.Nodup

/-- One instruction; a value is named by its id. -/
inductive InstKind (E : Type) where
  | constI64 (n : Int64)
  | alloca
  | load (slot : Nat)
  | store (slot v : Nat)
  | cmp (pred : CmpPred) (a b : Nat)
  | binary (op : BitOp) (a b : Nat)
  | operand (id : Nat) (e : E)
  | call (id : Nat) (callee : String) (args : List Nat)

/-- Straight-line code with the id each instruction gives its value, and branches whose two
sides go on at one block. -/
inductive Code (E : Type) where
  | done
  | emit (result : Nat) (kind : InstKind E) (rest : Code E)
  | condBr (cond : Nat) (thenB elseB join : Code E)

/-- The code of an expression in front of what follows, the id of its value, and the next free
id. -/
structure Lowered (E : Type) where
  code : Code E → Code E
  value : Nat
  next : Nat

/-- The arguments of a call, from left to right. -/
def lowerArgs (id : Nat) : List E → Nat → (Code E → Code E) × List Nat
  | [], _ => (fun k => k, [])
  | e :: es, n =>
    let rest := lowerArgs id es (n + 1)
    (fun k => .emit n (.operand id e) (rest.1 k), n :: rest.2)

/-- The code of two operands and an operation on both. -/
def Lowered.binary (op : BitOp) (l r : Lowered E) : Lowered E :=
  ⟨fun k => l.code (r.code (.emit r.next (.binary op l.value r.value) k)), r.next, r.next + 1⟩

/-- The code of a value and its comparison with zero. -/
def Lowered.cmpZero (pred : CmpPred) (v : Lowered E) : Lowered E :=
  ⟨fun k => v.code (.emit v.next (.constI64 0) (.emit (v.next + 1)
    (.cmp pred v.value v.next) k)), v.next + 1, v.next + 2⟩

/-- `lower_expr`, the next free value id being `n`: both operands, whatever the operator. -/
def lowerExpr : BoolExpr E → Nat → Lowered E
  | .cmp id pred a b, n =>
    ⟨fun k => .emit n (.operand id a) (.emit (n + 1) (.operand id b)
      (.emit (n + 2) (.cmp pred n (n + 1)) k)), n + 2, n + 3⟩
  | .call id callee args, n =>
    let lowered := lowerArgs id args n
    let result := n + args.length
    ⟨fun k => lowered.1 (.emit result (.call id callee lowered.2) k), result, result + 1⟩
  | .not x, n => (lowerExpr x n).cmpZero .eq
  | .and left right, n =>
    let l := lowerExpr left n
    l.binary .and (lowerExpr right l.next)
  | .or left right, n =>
    let l := lowerExpr left n
    l.binary .or (lowerExpr right l.next)

/-- `lower_cond`. -/
def lowerCond : BoolExpr E → Nat → Lowered E
  | .and left right, n =>
    let slot := n
    let lval := lowerCond left (n + 1)
    let rval := lowerCond right lval.next
    let z0 := rval.next + 1
    let fval := z0 + 2
    let result := fval + 2
    ⟨fun k => .emit slot .alloca (lval.code (.condBr lval.value
      (rval.code (.emit rval.next (.store slot rval.value) .done))
      (.emit z0 (.constI64 0) (.emit (z0 + 1) (.constI64 1) (.emit fval (.cmp .eq z0 (z0 + 1))
        (.emit (fval + 1) (.store slot fval) .done))))
      (.emit result (.load slot) k))), result, result + 1⟩
  | .or left right, n =>
    let slot := n
    let lval := lowerCond left (n + 1)
    let o1a := lval.next
    let tval := o1a + 2
    let rval := lowerCond right (tval + 2)
    let result := rval.next + 1
    ⟨fun k => .emit slot .alloca (lval.code (.condBr lval.value
      (.emit o1a (.constI64 1) (.emit (o1a + 1) (.constI64 1) (.emit tval
        (.cmp .eq o1a (o1a + 1)) (.emit (tval + 1) (.store slot tval) .done))))
      (rval.code (.emit rval.next (.store slot rval.value) .done))
      (.emit result (.load slot) k))), result, result + 1⟩
  | .cmp id pred a b, n => lowerExpr (.cmp id pred a b) n
  | .not x, n => lowerExpr (.not x) n
  -- a call is compared with zero
  | .call id callee args, n => (lowerExpr (.call id callee args) n).cmpZero .ne

/-- What evaluates the operands and the calls: it may change the world, and it may fail. -/
structure Machine (E W : Type) where
  operand : E → W → W × Option Value
  call : String → List Value → W → W × Option Value

/-- The world, and the ids of the operands and calls evaluated so far. -/
structure Seen (W : Type) where
  world : W
  trace : List Nat

structure St (W : Type) where
  seen : Seen W
  vals : Nat → Value
  slots : Nat → Value

variable {W : Type}

/-- A step that fails leaves what was seen up to there. -/
abbrev Result (W A : Type) := Except (Seen W) (Seen W × A)

def Result.ofOption (s : Seen W) {A : Type} : Option A → Result W A
  | some a => .ok (s, a)
  | none => .error s

/-- An answer of the machine to the expression `id`. -/
def Seen.answer (s : Seen W) (id : Nat) (reply : W × Option Value) : Result W Value :=
  Result.ofOption ⟨reply.1, s.trace ++ [id]⟩ reply.2

variable (m : Machine E W)

def InstKind.exec (s : St W) : InstKind E → Result W Value
  | .constI64 n => .ok (s.seen, .i64 n)
  | .alloca => .ok (s.seen, .i64 0)
  | .load slot => .ok (s.seen, s.slots slot)
  | .store _ v => .ok (s.seen, s.vals v)
  | .cmp pred a b => Result.ofOption s.seen ((compare pred (s.vals a) (s.vals b)).map .bool)
  | .binary op a b => Result.ofOption s.seen (op.apply (s.vals a) (s.vals b))
  | .operand id e => s.seen.answer id (m.operand e s.seen.world)
  | .call id callee args => s.seen.answer id (m.call callee (args.map s.vals) s.seen.world)

/-- The state after an instruction that gave the value `v`. -/
def St.after (s : St W) (result : Nat) (kind : InstKind E) (seen : Seen W) (v : Value) : St W where
  seen := seen
  vals := Function.update s.vals result v
  slots :=
    match kind with
    | .store slot _ => Function.update s.slots slot v
    | _ => s.slots

/-- The run of a piece of code. A condition has to be a boolean (`Op::JumpIfFalse`). -/
def Code.exec : Code E → St W → Except (Seen W) (St W)
  | .done, s => .ok s
  | .emit result kind rest, s =>
    (kind.exec m s).bind fun a => rest.exec (s.after result kind a.1 a.2)
  | .condBr cond thenB elseB join, s =>
    match s.vals cond with
    | .bool true => (thenB.exec s).bind join.exec
    | .bool false => (elseB.exec s).bind join.exec
    | _ => .error s.seen

/-- The world and the trace at the end, and the truth of the value if there is one. -/
def Lowered.outcome (code : Lowered E) (w : W) : Seen W × Option Bool :=
  match (code.code .done).exec m ⟨⟨w, []⟩, fun _ => .i64 0, fun _ => .i64 0⟩ with
  | .ok s => (s.seen, truth (s.vals code.value))
  | .error seen => (seen, none)

/-- **Both ways of lowering evaluate the same**: the same operands and calls in the same order,
with the same effects, and the same truth value, whatever the operands and the calls do. -/
def SameEvaluation (e : BoolExpr E) : Prop :=
  ∀ (W : Type) (m : Machine E W) (w : W),
    (lowerCond e 0).outcome m w = (lowerExpr e 0).outcome m w

section Meaning
variable (m : Machine E W)

def evalArgs (id : Nat) : List E → Seen W → Result W (List Value)
  | [], s => .ok (s, [])
  | e :: es, s =>
    (s.answer id (m.operand e s.world)).bind fun x =>
      (evalArgs id es x.1).bind fun xs => .ok (xs.1, x.2 :: xs.2)

/-- The value by data flow: every operand is evaluated. -/
def BoolExpr.value : BoolExpr E → Seen W → Result W Value
  | .cmp id pred a b, s =>
    (s.answer id (m.operand a s.world)).bind fun x =>
      (x.1.answer id (m.operand b x.1.world)).bind fun y =>
        Result.ofOption y.1 ((compare pred x.2 y.2).map .bool)
  | .call id callee args, s =>
    (evalArgs m id args s).bind fun xs => xs.1.answer id (m.call callee xs.2 xs.1.world)
  | .not x, s =>
    (x.value s).bind fun v => Result.ofOption v.1 ((compare .eq v.2 (.i64 0)).map .bool)
  | .and l r, s =>
    (l.value s).bind fun a => (r.value a.1).bind fun b =>
      Result.ofOption b.1 (BitOp.and.apply a.2 b.2)
  | .or l r, s =>
    (l.value s).bind fun a => (r.value a.1).bind fun b =>
      Result.ofOption b.1 (BitOp.or.apply a.2 b.2)

/-- The condition by control flow: the right operand is evaluated if the left one leaves the
result open. -/
def BoolExpr.cond : BoolExpr E → Seen W → Result W Value
  | .and l r, s =>
    (l.cond s).bind fun a =>
      match a.2 with
      | .bool true => r.cond a.1
      | .bool false => .ok (a.1, .bool false)
      | _ => .error a.1
  | .or l r, s =>
    (l.cond s).bind fun a =>
      match a.2 with
      | .bool true => .ok (a.1, .bool true)
      | .bool false => r.cond a.1
      | _ => .error a.1
  | .call id callee args, s =>
    ((BoolExpr.call id callee args).value m s).bind fun v =>
      Result.ofOption v.1 ((compare .ne v.2 (.i64 0)).map .bool)
  | .cmp id pred a b, s => (BoolExpr.cmp id pred a b).value m s
  | .not x, s => (BoolExpr.not x).value m s

end Meaning

/-! ## The code does what it means -/

section Correct
variable {m : Machine E W} {s s' : St W} {n n' : Nat}

/-- What a state has in common with an earlier one, below the first free id. -/
def Keeps (n : Nat) (s s' : St W) : Prop :=
  ∀ i < n, s'.vals i = s.vals i ∧ s'.slots i = s.slots i

theorem Keeps.refl (n : Nat) (s : St W) : Keeps n s s := fun _ _ => ⟨rfl, rfl⟩

theorem Keeps.trans {s'' : St W} (h : Keeps n s s') (hn : n ≤ n')
    (h' : Keeps n' s' s'') : Keeps n s s'' := by
  intro i hi
  have h₁ := h i hi
  have h₂ := h' i (by omega)
  exact ⟨h₂.1.trans h₁.1, h₂.2.trans h₁.2⟩

theorem Keeps.after {r : Nat} (hk : Keeps n s s') (kind : InstKind E)
    (seen : Seen W) (v : Value) (hr : n ≤ r) (hs : ∀ slot a, kind = .store slot a → n ≤ slot) :
    Keeps n s (s'.after r kind seen v) := by
  intro i hi
  have h := hk i hi
  refine ⟨(update_of_ne (by omega) _ _).trans h.1, ?_⟩
  cases kind with
  | store slot a =>
    have := hs slot a rfl
    exact (update_of_ne (by omega) _ _).trans h.2
  | _ => exact h.2

@[simp] theorem after_seen (s : St W) (result : Nat) (kind : InstKind E) (seen : Seen W)
    (v : Value) : (s.after result kind seen v).seen = seen := rfl

@[simp] theorem after_vals (s : St W) (result : Nat) (kind : InstKind E) (seen : Seen W)
    (v : Value) : (s.after result kind seen v).vals result = v := update_self _ _ _

@[simp] theorem after_slots (s : St W) (result slot a : Nat) (seen : Seen W) (v : Value) :
    (s.after result (.store slot a : InstKind E) seen v).slots slot = v :=
  update_self _ _ _

/-- A run that ends as the meaning says: where `read` reads its answer, or failing as it does.
The state has kept what `s` has below `n`. -/
inductive Ends {A : Type} (n : Nat) (s : St W) (read : St W → A) :
    Except (Seen W) (St W) → Result W A → Prop
  | ok {s' : St W} (hk : Keeps n s s') : Ends n s read (.ok s') (.ok (s'.seen, read s'))
  | error (x : Seen W) : Ends n s read (.error x) (.error x)

/-- The code `c`, run from `s'`, does what `f` says before it goes on. -/
def Performs {A : Type} (m : Machine E W) (n : Nat) (s s' : St W) (c : Code E → Code E)
    (read : St W → A) (f : Result W A) : Prop :=
  ∃ r, (∀ k, (c k).exec m s' = r.bind (k.exec m)) ∧ Ends n s read r f

section
variable {A B : Type} {n : Nat} {s s' : St W} {c d : Code E → Code E} {p : St W → A}
  {q : St W → B} {f : Result W A}

theorem Performs.from (n' : Nat) (h : Performs m n' s' s' c p f) (hk : Keeps n s s') (hn : n ≤ n') :
    Performs m n s s' c p f := by
  obtain ⟨r, hrun, hend⟩ := h
  refine ⟨r, hrun, ?_⟩
  cases hend with
  | error x => exact .error x
  | ok hk' => exact .ok (hk.trans hn hk')

theorem Performs.bind (h : Performs m n s s' c p f) {g : Seen W × A → Result W B}
    (hg : ∀ s₁, Keeps n s s₁ → Performs m n s s₁ d q (g (s₁.seen, p s₁))) :
    Performs m n s s' (fun k => c (d k)) q (f.bind g) := by
  obtain ⟨r, hrun, hend⟩ := h
  cases hend with
  | error x => exact ⟨.error x, fun k => hrun _, .error x⟩
  | @ok s₁ hk =>
    obtain ⟨r', hrun', hend'⟩ := hg s₁ hk
    exact ⟨r', fun k => (hrun _).trans (hrun' k), hend'⟩

theorem Performs.skip (hk : Keeps n s s') :
    Performs m n s s' (fun k => k) p (.ok (s'.seen, p s')) :=
  ⟨.ok s', fun _ => rfl, .ok hk⟩

theorem Performs.step {result : Nat} {kind : InstKind E} (seen : Seen W) (v : Value)
    (hf : kind.exec m s' = .ok (seen, v)) (h : Performs m n s (s'.after result kind seen v) c p f) :
    Performs m n s s' (fun k => .emit result kind (c k)) p f := by
  obtain ⟨r, hrun, hend⟩ := h
  exact ⟨r, fun k => by rw [← hrun k]; simp [Code.exec, hf, Except.bind], hend⟩

theorem Performs.emit {result : Nat} (kind : InstKind E) {f : Result W Value}
    {p : St W → Value} (hk : Keeps n s s') (hr : n ≤ result)
    (hs : ∀ slot a, kind = .store slot a → n ≤ slot) (hf : kind.exec m s' = f)
    (hread : ∀ seen v, p (s'.after result kind seen v) = v) :
    Performs m n s s' (.emit result kind) p f := by
  subst hf
  cases h : kind.exec m s' with
  | error x => exact ⟨.error x, fun k => by simp [Code.exec, h, Except.bind], .error x⟩
  | ok a =>
    obtain ⟨seen, v⟩ := a
    refine ⟨.ok (s'.after result kind seen v), fun k => by simp [Code.exec, h, Except.bind], ?_⟩
    have hend : Ends n s p _ _ := Ends.ok (hk.after kind seen v hr hs)
    rwa [after_seen, hread] at hend

theorem Performs.condBr {cond slot result : Nat} {f : Result W Value} (hr : n ≤ result)
    (hthen : s'.vals cond = .bool true → Performs m n s s' c (fun t => t.slots slot) f)
    (helse : s'.vals cond = .bool false → Performs m n s s' d (fun t => t.slots slot) f)
    (hfail : (∀ b, s'.vals cond ≠ .bool b) → f = .error s'.seen) : Performs m n s s'
      (fun k => .condBr cond (c .done) (d .done) (.emit result (.load slot) k))
      (fun t => t.vals result) f := by
  -- either side, and then the load at the join
  have hjoin : ∀ {c : Code E → Code E}, Performs m n s s' c (fun t => t.slots slot) f →
      ∃ r, (∀ k, ((c .done).exec m s').bind
        ((Code.emit result (.load slot) k).exec m) = r.bind (k.exec m)) ∧
        Ends n s (fun t => t.vals result) r f := by
    intro c hc
    obtain ⟨r, hrun, hend⟩ := hc
    have hside : (c .done).exec m s' = r := by
      rw [hrun]
      cases r <;> rfl
    rw [hside]
    cases hend with
    | error x => exact ⟨.error x, fun k => rfl, .error x⟩
    | @ok s₁ hk =>
      exact Performs.emit (.load slot) hk hr (fun _ _ h => by simp at h) rfl
        fun _ _ => after_vals ..
  cases hv : s'.vals cond with
  | bool b =>
    cases b with
    | true =>
      obtain ⟨r, hrun, hend⟩ := hjoin (hthen hv)
      exact ⟨r, fun k => by simp only [Code.exec, hv]; exact hrun k, hend⟩
    | false =>
      obtain ⟨r, hrun, hend⟩ := hjoin (helse hv)
      exact ⟨r, fun k => by simp only [Code.exec, hv]; exact hrun k, hend⟩
  | i64 _ | f64 _ | str _ =>
    rw [hfail (by simp [hv])]
    exact ⟨.error s'.seen, fun k => by simp only [Code.exec, hv]; rfl, .error _⟩

end

/-- Code for `f` that uses the ids from `n` on. -/
structure Computes (m : Machine E W) (n : Nat) (c : Lowered E)
    (f : Seen W → Result W Value) : Prop where
  ge : n ≤ c.value
  lt : c.value < c.next
  performs : ∀ s, Performs m n s s c.code (fun t => t.vals c.value) (f s.seen)

variable {f : Seen W → Result W Value} {c : Lowered E}

theorem Computes.binary {l r : Lowered E} {g : Seen W → Result W Value} (op : BitOp)
    (hl : Computes m n l f) (hr : Computes m l.next r g) :
    Computes m n (l.binary op r) fun s => (f s).bind fun a => (g a.1).bind fun b =>
      Result.ofOption b.1 (op.apply a.2 b.2) := by
  have hlge := hl.ge
  have hllt := hl.lt
  have hrge := hr.ge
  have hrlt := hr.lt
  refine ⟨by simp only [Lowered.binary]; omega, by simp [Lowered.binary], fun s => ?_⟩
  refine (hl.performs s).bind fun s₁ hk₁ => ?_
  -- the left value has an id the right operand leaves alone
  refine Performs.from l.next ?_ hk₁ (by omega)
  refine (hr.performs s₁).bind fun s₂ hk₂ => ?_
  refine Performs.emit _ hk₂ (by omega) (fun _ _ h => by simp at h) ?_ fun _ _ => after_vals ..
  simp [InstKind.exec, (hk₂ l.value hllt).1]

theorem Computes.cmpZero (pred : CmpPred) (hc : Computes m n c f) :
    Computes m n (c.cmpZero pred) fun s => (f s).bind fun v =>
      Result.ofOption v.1 ((compare pred v.2 (.i64 0)).map .bool) := by
  have hge := hc.ge
  have hlt := hc.lt
  refine ⟨by simp only [Lowered.cmpZero]; omega, by simp [Lowered.cmpZero], fun s => ?_⟩
  refine (hc.performs s).bind fun s₁ hk => ?_
  refine Performs.step s₁.seen (.i64 0) rfl ?_
  refine Performs.emit _ (hk.after _ _ _ (by omega) fun _ _ h => by simp at h)
    (by omega) (fun _ _ h => by simp at h) ?_ fun _ _ => after_vals ..
  have hv : (s₁.after c.next (.constI64 0 : InstKind E) s₁.seen (.i64 0)).vals c.value =
      s₁.vals c.value := update_of_ne (by omega) _ _
  simp [InstKind.exec, hv]

theorem computes_cmp (n id : Nat) (pred : CmpPred) (a b : E) :
    Computes m n (lowerExpr (.cmp id pred a b) n) ((BoolExpr.cmp id pred a b).value m) := by
  refine ⟨by simp only [lowerExpr]; omega, by simp [lowerExpr], fun s => ?_⟩
  refine Performs.bind (p := fun t => t.vals n) (Performs.emit _ (Keeps.refl n s) le_rfl
    (fun _ _ h => by simp at h) rfl fun _ _ => after_vals ..) fun s₁ hk₁ => ?_
  refine Performs.from (n + 1) ?_ hk₁ (by omega)
  refine Performs.bind (p := fun t => t.vals (n + 1)) (Performs.emit _ (Keeps.refl (n + 1) s₁)
    le_rfl (fun _ _ h => by simp at h) rfl fun _ _ => after_vals ..) fun s₂ hk₂ => ?_
  refine Performs.emit _ hk₂ (by omega) (fun _ _ h => by simp at h) ?_ fun _ _ => after_vals ..
  simp [InstKind.exec, (hk₂ n (by omega)).1]

theorem performs_args (id : Nat) (args : List E) (n : Nat) (s : St W) :
    Performs m n s s (lowerArgs id args n).1 (fun t => (lowerArgs id args n).2.map t.vals)
      (evalArgs m id args s.seen) := by
  induction args generalizing n s with
  | nil => exact Performs.skip (Keeps.refl n s)
  | cons e es ih =>
    refine Performs.bind (p := fun t => t.vals n) (Performs.emit _ (Keeps.refl n s) le_rfl
      (fun _ _ h => by simp at h) rfl fun _ _ => after_vals ..) fun s₁ hk₁ => ?_
    refine Performs.from (n + 1) ?_ hk₁ (by omega)
    refine Performs.bind (ih (n + 1) s₁) (d := fun k => k) fun s₂ hk₂ => ?_
    have hskip := Performs.skip (E := E) (m := m)
      (p := fun t => (lowerArgs id (e :: es) n).2.map t.vals) hk₂
    simpa only [lowerArgs, List.map_cons, (hk₂ n (by omega)).1] using hskip

theorem computes_call (n id : Nat) (callee : String) (args : List E) :
    Computes m n (lowerExpr (.call id callee args) n) ((BoolExpr.call id callee args).value m) := by
  refine ⟨by simp only [lowerExpr]; omega, by simp [lowerExpr], fun s => ?_⟩
  refine (performs_args id args n s).bind fun s₁ hk => ?_
  exact Performs.emit _ hk (by omega) (fun _ _ h => by simp at h) rfl fun _ _ => after_vals ..

/-- **The value code does what the data-flow meaning says.** -/
theorem computes_value (e : BoolExpr E) (n : Nat) : Computes m n (lowerExpr e n) (e.value m) := by
  induction e generalizing n with
  | cmp id pred a b => exact computes_cmp n id pred a b
  | call id callee args => exact computes_call n id callee args
  | not x ih => exact (ih n).cmpZero .eq
  | and l r ihl ihr => exact (ihl n).binary .and (ihr _)
  | or l r ihl ihr => exact (ihl n).binary .or (ihr _)

theorem Computes.stored {slot : Nat}
    (hc : Computes m n' c f) (hk : Keeps n s s') (hn : n ≤ n') (hslot : n ≤ slot) :
    Performs m n s s' (fun k => c.code (.emit c.next (.store slot c.value) k))
      (fun t => t.slots slot) (f s'.seen) := by
  have hge := hc.ge
  have hlt := hc.lt
  have hbind := Performs.bind ((hc.performs s').from _ hk hn)
    (g := fun a => (.ok a : Result W Value)) (q := fun t => t.slots slot)
    (d := .emit c.next (.store slot c.value)) fun s₁ hk₁ => by
      refine Performs.emit _ hk₁ (by omega) (fun _ _ h => ?_) rfl fun _ _ => after_slots ..
      obtain ⟨rfl, -⟩ := h
      exact hslot
  cases hf : f s'.seen with
  | error | ok => simpa [hf, Except.bind] using hbind

theorem performs_const (slot : Nat) {z : Nat} {x y : Int64} {b : Bool}
    (hb : decide (x = y) = b) (hk : Keeps n s s') (hz : n ≤ z) (hslot : n ≤ slot) :
    Performs m n s s' (fun k => .emit z (.constI64 x) (.emit (z + 1) (.constI64 y)
      (.emit (z + 2) (.cmp .eq z (z + 1)) (.emit (z + 2 + 1) (.store slot (z + 2)) k))))
      (fun t => t.slots slot) (.ok (s'.seen, .bool b)) := by
  subst hb
  refine Performs.step s'.seen (.i64 x) rfl ?_
  refine Performs.step s'.seen (.i64 y) rfl ?_
  refine Performs.step s'.seen (.bool (x = y)) ?_ ?_
  · simp [InstKind.exec, St.after, compare, eqI64, Result.ofOption]
  · refine Performs.emit _ ?_ (by omega) (fun _ _ h => ?_) ?_ fun _ _ => after_slots ..
    · have h₁ := hk.after (.constI64 x : InstKind E) s'.seen (.i64 x) hz fun _ _ h => by simp at h
      have h₂ := h₁.after (r := z + 1) (.constI64 y : InstKind E) s'.seen (.i64 y) (by omega)
        fun _ _ h => by simp at h
      exact h₂.after _ _ _ (by omega) fun _ _ h => by simp at h
    · obtain ⟨rfl, -⟩ := h
      exact hslot
    · simp [InstKind.exec]

/-- **The condition code does what the control-flow meaning says.** -/
theorem computes_cond (e : BoolExpr E) (n : Nat) : Computes m n (lowerCond e n) (e.cond m) := by
  induction e generalizing n with
  | cmp id pred a b => exact computes_cmp n id pred a b
  | call id callee args => exact (computes_call n id callee args).cmpZero .ne
  | not x _ => exact computes_value x.not n
  | and l r ihl ihr =>
    have hl := ihl (n + 1)
    have hr := ihr (lowerCond l (n + 1)).next
    have hlge := hl.ge
    have hllt := hl.lt
    have hrge := hr.ge
    have hrlt := hr.lt
    refine ⟨by simp only [lowerCond]; omega, by simp [lowerCond], fun s => ?_⟩
    refine Performs.step s.seen (.i64 0) rfl ?_
    have hk := (Keeps.refl n s).after (.alloca : InstKind E) s.seen (.i64 0) le_rfl
      fun _ _ h => by simp at h
    refine Performs.bind ((hl.performs _).from _ hk (by omega)) fun s₁ hk₁ => ?_
    -- the right side is evaluated on one branch, a constant stored on the other
    refine Performs.condBr
      (c := fun k => (lowerCond r (lowerCond l (n + 1)).next).code (.emit _ (.store n _) k))
      (d := fun k => .emit _ (.constI64 0) (.emit _ (.constI64 1) (.emit _ (.cmp .eq _ _)
        (.emit _ (.store n _) k)))) ?_ (fun hv => ?_) (fun hv => ?_) fun hv => ?_
    · omega
    · simpa only [hv] using hr.stored hk₁ (by omega) le_rfl
    · have hconst := performs_const (m := m) n (x := 0) (y := 1) (b := false)
        (z := (lowerCond r (lowerCond l (n + 1)).next).next + 1) (by decide) hk₁ (by omega) le_rfl
      simpa only [hv] using hconst
    · cases hval : s₁.vals (lowerCond l (n + 1)).value with
      | bool b => exact absurd hval (hv b)
      | _ => rfl
  | or l r ihl ihr =>
    have hl := ihl (n + 1)
    have hr := ihr ((lowerCond l (n + 1)).next + 2 + 2)
    have hlge := hl.ge
    have hllt := hl.lt
    have hrge := hr.ge
    have hrlt := hr.lt
    refine ⟨by simp only [lowerCond]; omega, by simp [lowerCond], fun s => ?_⟩
    refine Performs.step s.seen (.i64 0) rfl ?_
    have hk := (Keeps.refl n s).after (.alloca : InstKind E) s.seen (.i64 0) le_rfl
      fun _ _ h => by simp at h
    refine Performs.bind ((hl.performs _).from _ hk (by omega)) fun s₁ hk₁ => ?_
    refine Performs.condBr
      (c := fun k => .emit _ (.constI64 1) (.emit _ (.constI64 1) (.emit _ (.cmp .eq _ _)
        (.emit _ (.store n _) k))))
      (d := fun k => (lowerCond r ((lowerCond l (n + 1)).next + 2 + 2)).code
        (.emit _ (.store n _) k)) ?_ (fun hv => ?_) (fun hv => ?_) fun hv => ?_
    · omega
    · have hconst := performs_const (m := m) n (x := 1) (y := 1) (b := true)
        (z := (lowerCond l (n + 1)).next) (by decide) hk₁ (by omega) le_rfl
      simpa only [hv] using hconst
    · simpa only [hv] using hr.stored hk₁ (by omega) le_rfl
    · cases hval : s₁.vals (lowerCond l (n + 1)).value with
      | bool b => exact absurd hval (hv b)
      | _ => rfl

/-- What a meaning leads to: the world and the trace, and the truth of the value. -/
def seenOf : Result W Value → Seen W × Option Bool
  | .ok a => (a.1, truth a.2)
  | .error seen => (seen, none)

theorem Computes.outcome (h : Computes m 0 c f) (w : W) : c.outcome m w = seenOf (f ⟨w, []⟩) := by
  obtain ⟨r, hrun, hend⟩ := h.performs ⟨⟨w, []⟩, fun _ => .i64 0, fun _ => .i64 0⟩
  unfold Lowered.outcome
  rw [hrun .done]
  revert hend
  generalize f ⟨w, []⟩ = g
  intro hend
  cases hend with
  | error | ok => rfl

end Correct

end Arth.Conditions
