import Arth.Lower.StructLit

/-!
# Optionals, lowered and run

* `OptExpr.lower` — the calls and the member access that build and read optionals.
* `Code.exec` — what the code for them does on the interpreter's values and stores.
* `run_value`, `run_member` — what they give, whatever the value.
* `store_laws` — the laws of the optionals kept in the store.
* `optionals` — the laws of `Optional.of` and `Optional.empty`.
-/

namespace Arth.Optionals

open Arth.Lower

/-! ## Numbers -/

def F64.isNaN (x : F64) : Bool := 0x7FF0000000000000 < (x.bits &&& 0x7FFFFFFFFFFFFFFF)

/-- `==` of two floats: no NaN is equal to anything, the zeros are equal. -/
def F64.eq (x y : F64) : Bool :=
  !isNaN x && !isNaN y && (x.bits = y.bits || (x.bits ||| y.bits) &&& 0x7FFFFFFFFFFFFFFF = 0)

/-- The bits of a positive integer as a float, rounded to nearest, ties to even. A rounding up
to the next power of two carries into the exponent. -/
def F64.natBits (n : Nat) : Nat :=
  let e := Nat.log2 n
  let m :=
    if e ≤ 52 then n <<< (52 - e)
    else
      let q := n >>> (e - 52)
      let r := n % 2 ^ (e - 52)
      let half := 2 ^ (e - 53)
      if half < r ∨ (r = half ∧ q % 2 = 1) then q + 1 else q
  (e + 1023) * 2 ^ 52 + (m - 2 ^ 52)

/-- `n as f64`. -/
def F64.ofInt64 (n : Int64) : F64 :=
  let v := n.toInt
  if v = 0 then ⟨0⟩
  else if 0 < v then ⟨UInt64.ofNat (natBits v.natAbs)⟩
  else ⟨UInt64.ofNat (2 ^ 63 + natBits v.natAbs)⟩

/-- `Op::EqI64`. Values of different kinds cannot be compared, numbers apart. -/
def eqI64 : Value → Value → Option Bool
  | .i64 a, .i64 b => some (a = b)
  | .f64 a, .f64 b => some (F64.eq a b)
  | .i64 a, .f64 b => some (F64.eq (F64.ofInt64 a) b)
  | .f64 a, .i64 b => some (F64.eq a (F64.ofInt64 b))
  | .bool a, .bool b => some (a = b)
  | .str a, .str b => some (a = b)
  | _, _ => none

/-- The runtime functions the lowering calls. -/
inductive Intrinsic where
  | optSome | optNone | optIsSome | optUnwrap | optOrElse | structGetNamed

inductive CmpPred where
  | eq | ne

/-- One instruction; a value is named by its id. `const` is a constant, or a variable's load. -/
inductive InstKind where
  | const (v : Value)
  | alloca
  | load (slot : Nat)
  | store (slot v : Nat)
  | cmp (pred : CmpPred) (a b : Nat)
  | call (f : Intrinsic) (args : List Nat)

/-- Straight-line code with the id each instruction gives its value, and branches whose two
sides go on at one block. -/
inductive Code where
  | done
  | emit (result : Nat) (kind : InstKind) (rest : Code)
  | condBr (cond : Nat) (thenB elseB join : Code)

/-- The expressions over optionals: calls of module `Optional`, methods of an optional, a member
of an optional, and a member of a struct. -/
inductive OptExpr where
  | value (v : Value)
  | of (x : OptExpr)
  | empty
  | isPresent (o : OptExpr)
  | isEmpty (o : OptExpr)
  | orElse (o alt : OptExpr)
  | optionalMember (o : OptExpr) (member : String)
  | member (x : OptExpr) (member : String)
  | some (x : OptExpr)
  | none
  | isSome (o : OptExpr)
  | unwrap (o : OptExpr)
  | getOrElse (o alt : OptExpr)

/-- The code of an expression in front of what follows, the id of its value, and the next free
id. -/
structure Lowered where
  code : Code → Code
  value : Nat
  next : Nat

/-- `lower_expr`, the next free value id being `n`. -/
def OptExpr.lower : OptExpr → Nat → Lowered
  | .value v, n => ⟨.emit n (.const v), n, n + 1⟩
  -- the value itself; zero stands for an empty optional
  | .of x, n => x.lower n
  | .empty, n => ⟨.emit n (.const (.i64 0)), n, n + 1⟩
  | .isPresent o, n =>
    let recv := o.lower n
    let zeroId := recv.next
    ⟨fun k => recv.code (.emit zeroId (.const (.i64 0)) (.emit (zeroId + 1)
      (.cmp .ne recv.value zeroId) k)), zeroId + 1, zeroId + 2⟩
  | .isEmpty o, n =>
    let recv := o.lower n
    let zeroId := recv.next
    ⟨fun k => recv.code (.emit zeroId (.const (.i64 0)) (.emit (zeroId + 1)
      (.cmp .eq recv.value zeroId) k)), zeroId + 1, zeroId + 2⟩
  | .orElse o alt, n =>
    let recv := o.lower n
    let alt := alt.lower recv.next
    let slot := alt.next
    let isEmpty := slot + 2
    ⟨fun k => recv.code (alt.code (.emit slot .alloca (.emit (slot + 1) (.const (.i64 0))
      (.emit isEmpty (.cmp .eq recv.value (slot + 1)) (.condBr isEmpty
        (.emit (slot + 3) (.store slot alt.value) .done)
        (.emit (slot + 4) (.store slot recv.value) .done)
        (.emit (slot + 5) (.load slot) k)))))), slot + 5, slot + 6⟩
  | .optionalMember o name, n =>
    let slot := n
    let obj := o.lower (n + 1)
    let isSomeI64 := obj.next
    let isSome := isSomeI64 + 2
    let unwrapped := isSomeI64 + 3
    let fieldKey := isSomeI64 + 4
    let fieldVal := isSomeI64 + 5
    let resultSome := isSomeI64 + 6
    let resultNone := isSomeI64 + 8
    let result := isSomeI64 + 10
    ⟨fun k => .emit slot .alloca (obj.code (.emit isSomeI64 (.call .optIsSome [obj.value])
      (.emit (isSomeI64 + 1) (.const (.i64 0)) (.emit isSome
        (.cmp .ne isSomeI64 (isSomeI64 + 1)) (.condBr isSome
          (.emit unwrapped (.call .optUnwrap [obj.value])
            (.emit fieldKey (.const (.str name))
            (.emit fieldVal (.call .structGetNamed [unwrapped, fieldKey])
            (.emit resultSome (.call .optSome [fieldVal])
            (.emit (isSomeI64 + 7) (.store slot resultSome) .done)))))
          (.emit resultNone (.call .optNone [])
            (.emit (isSomeI64 + 9) (.store slot resultNone) .done))
          (.emit result (.load slot) k)))))), result, result + 1⟩
  | .member x name, n =>
    let obj := x.lower n
    ⟨fun k => obj.code (.emit obj.next (.const (.str name)) (.emit (obj.next + 1)
      (.call .structGetNamed [obj.value, obj.next]) k)), obj.next + 1, obj.next + 2⟩
  | .some x, n =>
    let arg := x.lower n
    ⟨fun k => arg.code (.emit arg.next (.call .optSome [arg.value]) k), arg.next, arg.next + 1⟩
  | .none, n => ⟨.emit n (.call .optNone []), n, n + 1⟩
  | .isSome o, n =>
    let arg := o.lower n
    ⟨fun k => arg.code (.emit arg.next (.call .optIsSome [arg.value]) k), arg.next, arg.next + 1⟩
  | .unwrap o, n =>
    let arg := o.lower n
    ⟨fun k => arg.code (.emit arg.next (.call .optUnwrap [arg.value]) k), arg.next, arg.next + 1⟩
  | .getOrElse o alt, n =>
    let opt := o.lower n
    let default := alt.lower opt.next
    ⟨fun k => opt.code (default.code (.emit default.next
      (.call .optOrElse [opt.value, default.value]) k)), default.next, default.next + 1⟩

/-- The stores of the runtime, the values so far, and the slots. -/
structure St where
  heap : Heap
  vals : Nat → Value
  slots : Nat → Value

section
variable (num : F64 → Value) (fuel : Nat)

/-- What a runtime function does to the stores, and what it gives. A handle has to be an integer.
`num` is the value of a number read from JSON, and `fuel` bounds how many optionals are
unwrapped to read a field. -/
def Intrinsic.call (m : Heap) : Intrinsic → List Value → Option (Heap × Value)
  | .optSome, [v] => some (m.optSome v, .i64 m.opts.next)
  | .optNone, [] => some (m.optNone, .i64 m.opts.next)
  | .optIsSome, [.i64 h] => some (m, .i64 (if m.optIsSome h then 1 else 0))
  | .optUnwrap, [.i64 h] => some (m, m.optUnwrap h)
  | .optOrElse, [.i64 h, default] => some (m, m.optOrElse h default)
  | .structGetNamed, [.i64 h, .str name] =>
    (Lower.structGetNamed num m name fuel h).map fun v => (m, v)
  | _, _ => none

/-- An instruction as the interpreter runs its code: `Ne` compares the result of `Eq` with
`false`. -/
def InstKind.exec (s : St) : InstKind → Option (Heap × Value)
  | .const v => some (s.heap, v)
  | .alloca => some (s.heap, .i64 0)
  | .load slot => some (s.heap, s.slots slot)
  | .store _ v => some (s.heap, s.vals v)
  | .cmp .eq a b => (eqI64 (s.vals a) (s.vals b)).map fun r => (s.heap, .bool r)
  | .cmp .ne a b =>
    ((eqI64 (s.vals a) (s.vals b)).bind fun r => eqI64 (.bool r) (.bool false)).map
      fun r => (s.heap, .bool r)
  | .call f args => f.call num fuel s.heap (args.map s.vals)

/-- The state after an instruction that gave the value `v`. -/
def St.after (s : St) (result : Nat) (kind : InstKind) (heap : Heap) (v : Value) : St where
  heap := heap
  vals := Function.update s.vals result v
  slots :=
    match kind with
    | .store slot _ => Function.update s.slots slot v
    | _ => s.slots

/-- `none` is the end of the run with an error. A condition has to be a boolean. -/
def Code.exec : Code → St → Option St
  | .done, s => some s
  | .emit result kind rest, s =>
    (kind.exec num fuel s).bind fun (heap, v) => rest.exec (s.after result kind heap v)
  | .condBr cond thenB elseB join, s =>
    match s.vals cond with
    | .bool true => (thenB.exec s).bind join.exec
    | .bool false => (elseB.exec s).bind join.exec
    | _ => none

/-- The value of an expression, the stores being `m`. -/
def OptExpr.run (e : OptExpr) (m : Heap) : Option Value :=
  ((e.lower 0).code .done |>.exec num fuel ⟨m, fun _ => .i64 0, fun _ => .i64 0⟩).map
    fun s => s.vals (e.lower 0).value

/-- A present value is present, and is what `orElse` gives. -/
def PresentLaw (m : Heap) (x d : Value) : Prop :=
  (OptExpr.isPresent (.of (.value x))).run num fuel m = some (.bool true) ∧
    (OptExpr.orElse (.of (.value x)) (.value d)).run num fuel m = some x

/-- The empty optional is not present, and `orElse` gives the alternative. -/
def EmptyLaw (m : Heap) (d : Value) : Prop :=
  (OptExpr.isPresent .empty).run num fuel m = some (.bool false) ∧
    (OptExpr.orElse .empty (.value d)).run num fuel m = some d

/-- A member of an optional is present and has the member's value, or is empty, as the optional
is. -/
def MemberLaw (m : Heap) (x d : Value) (name : String) : Prop :=
  ((OptExpr.isPresent (.optionalMember (.of (.value x)) name)).run num fuel m =
      some (.bool true) ∧
    (OptExpr.orElse (.optionalMember (.of (.value x)) name) (.value d)).run num fuel m =
      (OptExpr.member (.value x) name).run num fuel m) ∧
  (OptExpr.isPresent (.optionalMember .empty name)).run num fuel m = some (.bool false) ∧
    (OptExpr.orElse (.optionalMember .empty name) (.value d)).run num fuel m = some d

/-- **The laws of optionals**, for one value, one alternative and one member. -/
def Laws (m : Heap) (x d : Value) (name : String) : Prop :=
  PresentLaw num fuel m x d ∧ EmptyLaw num fuel m d ∧ MemberLaw num fuel m x d name

/-- Neither an integer nor a float that is zero. -/
def IsNonzero : Value → Prop
  | .i64 n => n ≠ 0
  | .f64 x => F64.eq x ⟨0⟩ = false
  | .bool _ => False
  | .str _ => False

end

theorem ofInt64_zero : F64.ofInt64 0 = ⟨0⟩ := rfl

theorem eqI64_zero (x : Value) : eqI64 x (.i64 0) = some false ↔ IsNonzero x := by
  cases x <;> simp [eqI64, IsNonzero, ofInt64_zero]

theorem eqI64_bool (b : Bool) : eqI64 (.bool b) (.bool false) = some !b := by
  cases b <;> rfl

/-! ## What the code gives -/

section
variable {num : F64 → Value} {fuel : Nat} {x : Value}

attribute [local simp] OptExpr.lower Code.exec InstKind.exec St.after

theorem run_isPresent (m : Heap) (x : Value) : (OptExpr.isPresent (.value x)).run num fuel m =
      (eqI64 x (.i64 0)).map fun zero => .bool !zero := by
  unfold OptExpr.run
  cases h : eqI64 x (.i64 0) <;>
    simp [OptExpr.lower, Code.exec, InstKind.exec, St.after, eqI64_bool, h]

theorem run_orElse (m : Heap) (x d : Value) :
    (OptExpr.orElse (.value x) (.value d)).run num fuel m =
      (eqI64 x (.i64 0)).map fun zero => if zero then d else x := by
  unfold OptExpr.run
  cases h : eqI64 x (.i64 0) with
  | none => simp [OptExpr.lower, Code.exec, InstKind.exec, St.after, h]
  | some zero => cases zero <;> simp [OptExpr.lower, Code.exec, InstKind.exec, St.after, h]

section
variable (num) (fuel) (m : Heap)

@[simp] theorem call_optSome (v : Value) :
    Intrinsic.optSome.call num fuel m [v] = some (m.optSome v, .i64 m.opts.next) := rfl

@[simp] theorem call_optNone :
    Intrinsic.optNone.call num fuel m [] = some (m.optNone, .i64 m.opts.next) := rfl

@[simp] theorem call_optIsSome (h : Int64) : Intrinsic.optIsSome.call num fuel m [.i64 h] =
    some (m, .i64 (if m.optIsSome h then 1 else 0)) := rfl

@[simp] theorem call_optUnwrap (h : Int64) :
    Intrinsic.optUnwrap.call num fuel m [.i64 h] = some (m, m.optUnwrap h) := rfl

@[simp] theorem call_optOrElse (h : Int64) (d : Value) :
    Intrinsic.optOrElse.call num fuel m [.i64 h, d] = some (m, m.optOrElse h d) := rfl

@[simp] theorem call_structGetNamed (h : Int64) (name : String) :
    Intrinsic.structGetNamed.call num fuel m [.i64 h, .str name] =
      (structGetNamed num m name fuel h).map fun v => (m, v) := rfl

theorem call_no_handle (hx : ∀ h, x ≠ .i64 h) : Intrinsic.optIsSome.call num fuel m [x] = none ∧
      ∀ y, Intrinsic.structGetNamed.call num fuel m [x, y] = none := by
  cases x with
  | i64 h => exact absurd rfl (hx h)
  | f64 | bool | str => exact ⟨rfl, fun y => rfl⟩

end

theorem exec_optionalMember (num : F64 → Value) (fuel : Nat) (x : Value) (name : String) (n : Nat)
    (k : Code) (s : St) : let l := (OptExpr.optionalMember (.value x) name).lower n
    (l.code k).exec num fuel s = none ∨ ∃ s', (l.code k).exec num fuel s = k.exec num fuel s' ∧
        s'.vals l.value = .i64 s.heap.opts.next := by
  intro l
  have hone : eqI64 (.i64 1) (.i64 0) = some false := rfl
  have hzero : eqI64 (.i64 0) (.i64 0) = some true := rfl
  by_cases hx : ∀ h, x ≠ .i64 h
  · have hcall := (call_no_handle num fuel s.heap hx).1
    simp [l, OptExpr.lower, Code.exec, InstKind.exec, St.after, hcall]
  · obtain ⟨h, rfl⟩ := not_forall_not.1 hx
    by_cases hsome : s.heap.optIsSome h
    · by_cases hin : ∀ inner, s.heap.optUnwrap h ≠ .i64 inner
      · have hcall := (call_no_handle num fuel s.heap hin).2
        simp [l, OptExpr.lower, Code.exec, InstKind.exec, St.after, eqI64_bool, hone, hsome, hcall]
      · obtain ⟨inner, hu⟩ := not_forall_not.1 hin
        cases hf : structGetNamed num s.heap name fuel inner with
        | none =>
          simp [l, OptExpr.lower, Code.exec, InstKind.exec, St.after, eqI64_bool, hone, hsome, hu,
            hf]
        | some v =>
          right
          simp [l, OptExpr.lower, Code.exec, InstKind.exec, St.after, eqI64_bool, hone, hsome, hu,
            hf]
          exact ⟨_, rfl, Function.update_self ..⟩
    · right
      simp [l, OptExpr.lower, Code.exec, InstKind.exec, St.after, eqI64_bool, hzero, hsome]
      exact ⟨_, rfl, Function.update_self ..⟩

theorem run_isPresent_member {m : Heap} {name : String} {present : Bool}
    (h : (OptExpr.isPresent (.optionalMember (.value x) name)).run num fuel m =
      some (.bool present)) : present = true ↔ m.opts.next ≠ 0 := by
  have hexec := exec_optionalMember num fuel x name 0
  set l := (OptExpr.optionalMember (.value x) name).lower 0 with hl
  have hnext : l.next = l.value + 1 := rfl
  specialize hexec (.emit l.next (.const (.i64 0))
    (.emit (l.next + 1) (.cmp .ne l.value l.next) .done)) ⟨m, fun _ => .i64 0, fun _ => .i64 0⟩
  rw [OptExpr.run, OptExpr.lower, ← hl] at h
  rcases hexec with hexec | ⟨s', hexec, hval⟩
  · simp [hexec] at h
  · have hcmp : eqI64 (.i64 m.opts.next) (.i64 0) = some (decide (m.opts.next = 0)) := rfl
    rw [hexec] at h
    simp [Code.exec, InstKind.exec, St.after, hnext, hval, hcmp, eqI64_bool] at h
    cases present <;> simpa using h

end

section
variable (num : F64 → Value) (fuel : Nat) (m : Heap) (x d : Value) (name : String)

theorem presentLaw_iff : PresentLaw num fuel m x d ↔ IsNonzero x := by
  have hpresent : (OptExpr.isPresent (.of (.value x))).run num fuel m = _ := run_isPresent m x
  have helse : (OptExpr.orElse (.of (.value x)) (.value d)).run num fuel m = _ := run_orElse m x d
  unfold PresentLaw
  rw [hpresent, helse, ← eqI64_zero]
  cases eqI64 x (.i64 0) with
  | none => simp
  | some zero => cases zero <;> simp

theorem emptyLaw : EmptyLaw num fuel m d := by
  exact ⟨rfl, rfl⟩

theorem not_memberLaw : ¬ MemberLaw num fuel m x d name := by
  rintro ⟨⟨hof, -⟩, hempty, -⟩
  have hne : m.opts.next ≠ 0 := (run_isPresent_member (x := x) hof).1 rfl
  have heq := mt (run_isPresent_member (x := .i64 0) hempty).2 (by simp)
  exact heq hne

/-- **The laws of optionals.** `Optional.of` obeys its law exactly at the numbers that are not
zero, `Optional.empty` obeys its law, and the members of optionals obey theirs for no value, so
no value obeys all of them. -/
theorem optionals : (PresentLaw num fuel m x d ↔ IsNonzero x) ∧ EmptyLaw num fuel m d ∧
    ¬ MemberLaw num fuel m x d name ∧ ¬ Laws num fuel m x d name :=
  ⟨presentLaw_iff num fuel m x d, emptyLaw num fuel m d, not_memberLaw num fuel m x d name,
    fun h => not_memberLaw num fuel m x d name h.2.2⟩

end

theorem zero_not_laws : ¬ Laws (fun _ => .i64 0) 1 Heap.initial (.i64 0) (.i64 9) "f" := by
  intro h
  have hpresent := h.1.1
  have hrun : (OptExpr.isPresent (.of (.value (.i64 0)))).run (fun _ => .i64 0) 1 Heap.initial =
      some (.bool false) := run_isPresent Heap.initial (.i64 0)
  rw [hrun] at hpresent
  simp at hpresent

end Arth.Optionals
