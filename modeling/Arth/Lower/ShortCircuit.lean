import Arth.Lower.Conditions

/-!
# Where short-circuit evaluation is lost

* `BoolExpr.unaffected` — comparisons, negations, and what stops in its first operand.
* `Adds`, `Begins` — which operands and calls an evaluation records, and which first.
* `Diverges` — the value goes on with something the condition skips.
* `sameEvaluation_iff` — the expressions on which the two ways of lowering agree.
-/

namespace Arth.Conditions

open List

open Ir (CmpPred)
open Arth.Optionals (eqI64)

variable {E W : Type}

/-- Calls joined by `&&` and `||`: what can be a number. -/
def BoolExpr.numeric : BoolExpr E → Bool
  | .call .. => true
  | .and l r | .or l r => l.numeric && r.numeric
  | .cmp .. | .not _ => false

/-- The first operand in evaluation order that is neither `&&` nor `||` can have a value: the
negation of what is always a boolean cannot. -/
def BoolExpr.starts : BoolExpr E → Bool
  | .cmp .. | .call .. => true
  | .not x => x.numeric
  | .and l _ | .or l _ => l.starts

/-- A comparison, a negation, or an operation that stops in its first operand. -/
def BoolExpr.unaffected : BoolExpr E → Bool
  | .cmp .. | .not _ => true
  | .call .. => false
  | .and l _ | .or l _ => !l.starts

attribute [local simp] BoolExpr.ids BoolExpr.numeric BoolExpr.starts

/-! ## What is evaluated -/

section Traces
variable {m : Machine E W} {A B : Type}

/-- The operands and calls evaluated at the end, also if the evaluation failed. -/
def traceOf : Result W A → List Nat
  | .ok a => a.1.trace
  | .error seen => seen.trace

theorem traceOf_ofOption (s : Seen W) (o : Option A) : traceOf (Result.ofOption s o) = s.trace := by
  cases o <;> rfl

theorem traceOf_answer (s : Seen W) (id : Nat) (reply : W × Option Value) :
    traceOf (s.answer id reply) = s.trace ++ [id] :=
  traceOf_ofOption _ _

/-- Only expressions among `ids` are evaluated. -/
def Adds (ids : List Nat) (s : Seen W) (r : Result W A) : Prop :=
  ∃ τ, traceOf r = s.trace ++ τ ∧ ∀ i ∈ τ, i ∈ ids

theorem Adds.ofOption (ids : List Nat) (s : Seen W) (o : Option A) :
    Adds ids s (Result.ofOption s o) :=
  ⟨[], by simp [traceOf_ofOption], by simp⟩

variable {ids : List Nat} {id : Nat}

theorem Adds.answer (s : Seen W) (reply : W × Option Value)
    (h : id ∈ ids) : Adds ids s (s.answer id reply) :=
  ⟨[id], traceOf_answer s id reply, by simpa using h⟩

variable {r : Result W A} {s : Seen W} {g : Seen W × A → Result W B}

theorem Adds.mono {ids ids' : List Nat} (h : Adds ids s r)
    (hids : ∀ i ∈ ids, i ∈ ids') : Adds ids' s r := by
  obtain ⟨τ, htrace, hτ⟩ := h
  exact ⟨τ, htrace, fun i hi => hids i (hτ i hi)⟩

theorem Adds.bind (h : Adds ids s r) (hg : ∀ a, Adds ids a.1 (g a)) : Adds ids s (r.bind g) := by
  obtain ⟨τ, htrace, hτ⟩ := h
  cases r with
  | error x => exact ⟨τ, htrace, hτ⟩
  | ok a =>
    obtain ⟨τ', htrace', hτ'⟩ := hg a
    refine ⟨τ ++ τ', ?_, fun i hi => (mem_append.1 hi).elim (hτ i) (hτ' i)⟩
    change traceOf (g a) = _
    change a.1.trace = _ at htrace
    rw [htrace', htrace, append_assoc]

theorem adds_args (id : Nat) (args : List E) (s : Seen W) : Adds [id] s (evalArgs m id args s) := by
  induction args generalizing s with
  | nil => exact ⟨[], by simp [evalArgs, traceOf], by simp⟩
  | cons e es ih =>
    refine Adds.bind (Adds.answer s _ (by simp)) fun x => Adds.bind (ih x.1) fun xs => ?_
    exact ⟨[], by simp [traceOf], by simp⟩

theorem adds_value (e : BoolExpr E) (s : Seen W) : Adds e.ids s (e.value m s) := by
  induction e generalizing s with
  | cmp id pred a b =>
    exact Adds.bind (Adds.answer s _ (by simp)) fun x =>
      Adds.bind (Adds.answer x.1 _ (by simp)) fun y => Adds.ofOption _ _ _
  | call id callee args =>
    exact Adds.bind (adds_args id args s) fun xs => Adds.answer xs.1 _ (by simp)
  | not x ih => exact Adds.bind (ih s) fun v => Adds.ofOption _ _ _
  | and l r ihl ihr | or l r ihl ihr =>
    refine Adds.bind ((ihl s).mono fun i hi => mem_append_left _ hi) fun a => ?_
    exact Adds.bind ((ihr a.1).mono fun i hi => mem_append_right _ hi) fun b =>
      Adds.ofOption _ _ _

theorem adds_cond (e : BoolExpr E) (s : Seen W) : Adds e.ids s (e.cond m s) := by
  induction e generalizing s with
  | cmp id pred a b => exact adds_value (.cmp id pred a b) s
  | call id callee args =>
    exact Adds.bind (adds_value (.call id callee args) s) fun v => Adds.ofOption _ _ _
  | not x _ => exact adds_value x.not s
  | and l r ihl ihr =>
    refine Adds.bind ((ihl s).mono fun i hi => mem_append_left _ hi) fun a => ?_
    split
    · exact (ihr a.1).mono fun i hi => mem_append_right _ hi
    · exact Adds.ofOption _ a.1 (some (Value.bool false))
    · exact Adds.ofOption _ a.1 none
  | or l r ihl ihr =>
    refine Adds.bind ((ihl s).mono fun i hi => mem_append_left _ hi) fun a => ?_
    split
    · exact Adds.ofOption _ a.1 (some (Value.bool true))
    · exact (ihr a.1).mono fun i hi => mem_append_right _ hi
    · exact Adds.ofOption _ a.1 none

/-- Something among `ids` is evaluated first. -/
def Begins (ids : List Nat) (s : Seen W) (r : Result W A) : Prop :=
  ∃ i ∈ ids, ∃ τ, traceOf r = s.trace ++ i :: τ

theorem Begins.bind (ids' : List Nat) (h : Begins ids s r) (hg : ∀ a, Adds ids' a.1 (g a)) :
    Begins ids s (r.bind g) := by
  obtain ⟨i, hi, τ, htrace⟩ := h
  cases r with
  | error x => exact ⟨i, hi, τ, htrace⟩
  | ok a =>
    obtain ⟨τ', htrace', -⟩ := hg a
    change a.1.trace = _ at htrace
    refine ⟨i, hi, τ ++ τ', ?_⟩
    change traceOf (g a) = _
    rw [htrace', htrace, append_assoc, cons_append]

theorem Begins.answer (s : Seen W) (reply : W × Option Value)
    (h : id ∈ ids) : Begins ids s (s.answer id reply) :=
  ⟨id, h, [], traceOf_answer s id reply⟩

theorem begins_value (e : BoolExpr E) (s : Seen W) : Begins e.ids s (e.value m s) := by
  induction e generalizing s with
  | cmp id pred a b =>
    exact Begins.bind [id] (Begins.answer s _ (by simp)) fun x =>
      Adds.bind (Adds.answer x.1 _ (by simp)) fun y => Adds.ofOption _ _ _
  | call id callee args =>
    cases args with
    | nil => exact Begins.answer s _ (by simp)
    | cons e es =>
      refine Begins.bind [id] ?_ fun xs => Adds.answer xs.1 _ (by simp)
      refine Begins.bind [id] (Begins.answer s _ (by simp)) fun x => ?_
      exact Adds.bind (adds_args id es x.1) fun xs => ⟨[], by simp [traceOf], by simp⟩
  | not x ih => exact Begins.bind [] (ih s) fun v => Adds.ofOption _ _ _
  | and l r ihl _ | or l r ihl _ =>
    obtain ⟨i, hi, hbegins⟩ := Begins.bind r.ids (ihl s) fun a =>
      Adds.bind (adds_value r a.1) fun b => Adds.ofOption _ b.1 (BitOp.apply _ a.2 b.2)
    exact ⟨i, mem_append_left _ hi, hbegins⟩

end Traces

/-! ## Where the two ways part -/

theorem bind_eq_ok {A B : Type} {r : Result W A} {g : Seen W × A → Result W B} {b : Seen W × B} :
    r.bind g = .ok b ↔ ∃ a, r = .ok a ∧ g a = .ok b := by
  cases r <;> simp [Except.bind]

theorem ofOption_eq_ok {A : Type} {s : Seen W} {o : Option A} {a : Seen W × A} :
    Result.ofOption s o = .ok a ↔ ∃ v, o = some v ∧ (s, v) = a := by
  cases o <;> simp [Result.ofOption]

theorem apply_not_bool {op : BitOp} {a b v : Value} (h : op.apply a b = some v) :
    (∀ c, a ≠ .bool c) ∧ ∀ c, b ≠ .bool c := by
  cases op <;> cases a <;> cases b <;> simp_all [BitOp.apply]

variable {x : BoolExpr E} {e l r : BoolExpr E} {m : Machine E W}

theorem bool_of_not_numeric {s : Seen W} {a : Seen W × Value}
    (hx : x.numeric = false) (h : x.value m s = .ok a) : ∃ b, a.2 = .bool b := by
  induction x generalizing s a with
  | cmp id pred l r =>
    obtain ⟨x, -, h⟩ := bind_eq_ok.1 h
    obtain ⟨y, -, h⟩ := bind_eq_ok.1 h
    obtain ⟨v, hv, rfl⟩ := ofOption_eq_ok.1 h
    obtain ⟨b, -, rfl⟩ := Option.map_eq_some_iff.1 hv
    exact ⟨b, rfl⟩
  | call id callee args => simp at hx
  | not x _ =>
    obtain ⟨v, -, h⟩ := bind_eq_ok.1 h
    obtain ⟨w, hw, rfl⟩ := ofOption_eq_ok.1 h
    obtain ⟨b, -, rfl⟩ := Option.map_eq_some_iff.1 hw
    exact ⟨b, rfl⟩
  | and l r ihl ihr | or l r ihl ihr =>
    obtain ⟨a₁, hl, h⟩ := bind_eq_ok.1 h
    obtain ⟨a₂, hr, h⟩ := bind_eq_ok.1 h
    obtain ⟨v, hv, rfl⟩ := ofOption_eq_ok.1 h
    obtain ⟨hnl, hnr⟩ := apply_not_bool hv
    rcases Bool.and_eq_false_iff.1 hx with hx | hx
    · obtain ⟨b, hb⟩ := ihl hx hl
      exact absurd hb (hnl b)
    · obtain ⟨b, hb⟩ := ihr hx hr
      exact absurd hb (hnr b)

theorem stuck (e : BoolExpr E) (he : e.starts = false) (s : Seen W) :
    ∃ x, e.value m s = .error x ∧ e.cond m s = .error x := by
  induction e generalizing s with
  | cmp | call => simp at he
  | not x _ =>
    have hfail : ∃ y, x.not.value m s = .error y := by
      cases h : x.value m s with
      | error y => exact ⟨y, by simp [BoolExpr.value, h, Except.bind]⟩
      | ok a =>
        obtain ⟨b, hb⟩ := bool_of_not_numeric he h
        exact ⟨a.1, by simp [BoolExpr.value, h, Except.bind, hb, compare, eqI64, Result.ofOption]⟩
    obtain ⟨y, hy⟩ := hfail
    exact ⟨y, hy, hy⟩
  | and l r ihl _ | or l r ihl _ =>
    obtain ⟨x, hvalue, hcond⟩ := ihl he s
    exact ⟨x, by simp [BoolExpr.value, hvalue, Except.bind],
      by simp [BoolExpr.cond, hcond, Except.bind]⟩

/-- The operands and calls decide a condition: its value is the truth value `t`. -/
def Decides (e : BoolExpr E) (t : Bool) : Prop :=
  ∃ (m : Machine E Nat) (s : Seen Nat) (v : Value),
    e.value m ⟨0, []⟩ = .ok (s, v) ∧ e.cond m ⟨0, []⟩ = .ok (s, .bool t)

/-- The two ways part: the value goes on with something the condition skips. -/
def Diverges (e : BoolExpr E) : Prop :=
  ∃ (m : Machine E Nat) (τ skipped : List Nat), (∀ i ∈ skipped, i ∈ e.ids) ∧
    (∃ i ∈ skipped, ∃ ρ, traceOf (e.value m ⟨0, []⟩) = τ ++ i :: ρ) ∧
    ∃ ρ, traceOf (e.cond m ⟨0, []⟩) = τ ++ ρ ∧ ∀ i ∈ ρ, i ∉ skipped

theorem exists_compare (pred : CmpPred) (t : Bool) :
    ∃ x y : Int64, compare pred (.i64 x) (.i64 y) = some t := by
  cases pred <;> cases t
  · exact ⟨0, 1, by decide⟩
  · exact ⟨0, 0, by decide⟩
  · exact ⟨0, 0, by decide⟩
  · exact ⟨0, 1, by decide⟩
  · exact ⟨0, 0, by decide⟩
  · exact ⟨0, 1, by decide⟩
  · exact ⟨1, 0, by decide⟩
  · exact ⟨0, 0, by decide⟩
  · exact ⟨0, 0, by decide⟩
  · exact ⟨1, 0, by decide⟩
  · exact ⟨0, 1, by decide⟩
  · exact ⟨0, 0, by decide⟩

/-- The first operand is `x`, every later one `y`. -/
def pairs (x y : Int64) : Machine E Nat where
  operand _ n := (n + 1, some (.i64 (if n = 0 then x else y)))
  call _ _ n := (n, none)

/-- Every call gives `c`. -/
def number (c : Int64) : Machine E Nat where
  operand _ n := (n, some (.i64 0))
  call _ _ n := (n, some (.i64 c))

theorem evalArgs_number (c : Int64) (id : Nat) (args : List E) (s : Seen Nat) :
    ∃ a, evalArgs (number c) id args s = .ok a := by
  induction args generalizing s with
  | nil => exact ⟨_, rfl⟩
  | cons e es ih =>
    obtain ⟨a, ha⟩ := ih ⟨s.world, s.trace ++ [id]⟩
    refine ⟨(a.1, .i64 0 :: a.2), ?_⟩
    simp [evalArgs, number, Seen.answer, Result.ofOption, Except.bind] at ha ⊢
    simp [ha]

theorem value_number (c : Int64) (hx : x.numeric = true) (s : Seen Nat) :
    ∃ s', x.value (number c) s = .ok (s', .i64 c) := by
  induction x generalizing s with
  | cmp | not => simp at hx
  | call id callee args =>
    obtain ⟨a, ha⟩ := evalArgs_number c id args s
    exact ⟨⟨a.1.world, a.1.trace ++ [id]⟩, by
      simp only [BoolExpr.value, ha, Except.bind]
      rfl⟩
  | and l r ihl ihr | or l r ihl ihr =>
    obtain ⟨hl, hr⟩ := Bool.and_eq_true_iff.1 hx
    obtain ⟨s₁, h₁⟩ := ihl hl s
    obtain ⟨s₂, h₂⟩ := ihr hr s₁
    exact ⟨s₂, by simp [BoolExpr.value, h₁, h₂, Except.bind, BitOp.apply, Result.ofOption]⟩

theorem decides_cmp (id : Nat) (pred : CmpPred) (a b : E) (t : Bool) :
    Decides (.cmp id pred a b) t := by
  obtain ⟨x, y, hxy⟩ := exists_compare pred t
  refine ⟨pairs x y, ⟨2, [id, id]⟩, .bool t, ?_, ?_⟩ <;>
    simp [BoolExpr.cond, BoolExpr.value, pairs, Seen.answer, Result.ofOption, Except.bind, hxy]

theorem exists_number (t : Bool) : ∃ c : Int64, compare .ne (.i64 c) (.i64 0) = some t ∧
      compare .eq (.i64 c) (.i64 0) = some !t := by
  cases t
  · exact ⟨0, by decide, by decide⟩
  · exact ⟨1, by decide, by decide⟩

theorem decides_call (id : Nat) (callee : String) (args : List E) (t : Bool) :
    Decides (.call id callee args) t := by
  obtain ⟨c, hne, -⟩ := exists_number t
  obtain ⟨s, hs⟩ := value_number c (x := .call id callee args) rfl ⟨0, []⟩
  exact ⟨number c, s, .i64 c, hs, by
    simp [BoolExpr.cond, hs, Except.bind, hne, Result.ofOption]⟩

theorem decides_not (hx : x.numeric = true) (t : Bool) : Decides x.not t := by
  obtain ⟨c, -, heq⟩ := exists_number (!t)
  obtain ⟨s, hs⟩ := value_number c hx ⟨0, []⟩
  have hnot : x.not.value (number c) ⟨0, []⟩ = .ok (s, .bool t) := by
    simp [BoolExpr.value, hs, Except.bind, heq, Result.ofOption]
  exact ⟨number c, s, .bool t, hnot, hnot⟩

/-- An operation whose left operand `l` is decided as `t`, which leaves `r` out of the condition,
or parts in `l` already. -/
theorem diverges_of_left {t : Bool} (hids : e.ids = l.ids ++ r.ids) (hfresh : e.ids.Nodup)
    (hvalue : ∀ (m : Machine E Nat) (s : Seen Nat), ∃ g, (∀ a, Adds r.ids a.1 (g a)) ∧
      (∀ a, Begins r.ids a.1 (g a)) ∧ e.value m s = (l.value m s).bind g)
    (hcond : ∀ (m : Machine E Nat) (s : Seen Nat), ∃ g, (∀ a, Adds r.ids a.1 (g a)) ∧
      (∀ seen, g (seen, .bool t) = .ok (seen, .bool t)) ∧ e.cond m s = (l.cond m s).bind g)
    (h : Decides l t ∨ Diverges l) : Diverges e := by
  rw [hids] at hfresh
  obtain ⟨-, -, hdisjoint⟩ := nodup_append.1 hfresh
  rcases h with ⟨m, s, v, hv, hc⟩ | ⟨m, τ, skipped, hsub, ⟨i, hi, ρ, hv⟩, ρ', hc, hρ'⟩
  · -- the right operand is what is skipped
    obtain ⟨g, -, hbegins, hev⟩ := hvalue m ⟨0, []⟩
    obtain ⟨g', -, hdone, hec⟩ := hcond m ⟨0, []⟩
    refine ⟨m, s.trace, r.ids, fun i hi => by simp [hids, hi], ?_, [], ?_, by simp⟩
    · rw [hev, hv]
      exact hbegins (s, v)
    · rw [hec, hc]
      change traceOf (g' (s, .bool t)) = _
      simp [hdone, traceOf]
  · -- what follows on the left does not undo the difference
    obtain ⟨g, hadds, -, hev⟩ := hvalue m ⟨0, []⟩
    obtain ⟨g', hadds', -, hec⟩ := hcond m ⟨0, []⟩
    refine ⟨m, τ, skipped, fun i hi => by simp [hids, hsub i hi], ⟨i, hi, ?_⟩, ?_⟩
    · rw [hev]
      cases hl : l.value m ⟨0, []⟩ with
      | error x =>
        rw [hl] at hv
        exact ⟨ρ, hv⟩
      | ok a =>
        rw [hl] at hv
        obtain ⟨σ, hσ, -⟩ := hadds a
        refine ⟨ρ ++ σ, ?_⟩
        change a.1.trace = _ at hv
        change traceOf (g a) = _
        rw [hσ, hv, append_assoc, cons_append]
    · rw [hec]
      cases hl : l.cond m ⟨0, []⟩ with
      | error x =>
        rw [hl] at hc
        exact ⟨ρ', hc, hρ'⟩
      | ok a =>
        rw [hl] at hc
        obtain ⟨σ, hσ, hmem⟩ := hadds' a
        change a.1.trace = _ at hc
        refine ⟨ρ' ++ σ, ?_, fun i hi hskip => ?_⟩
        · change traceOf (g' a) = _
          rw [hσ, hc, append_assoc]
        · rcases mem_append.1 hi with hi | hi
          · exact hρ' i hi hskip
          · exact hdisjoint i (hsub i hskip) i (hmem i hi) rfl

theorem diverges_and (hfresh : (l.and r).ids.Nodup)
    (h : Decides l false ∨ Diverges l) : Diverges (l.and r) := by
  refine diverges_of_left rfl hfresh (fun m s => ⟨_, fun a => ?_, fun a => ?_, rfl⟩)
    (fun m s => ⟨_, fun a => ?_, fun seen => ?_, rfl⟩) h
  · exact Adds.bind (adds_value r a.1) fun b => Adds.ofOption _ _ _
  · exact Begins.bind [] (begins_value r a.1) fun b => Adds.ofOption _ _ _
  · split
    · exact adds_cond r a.1
    · exact Adds.ofOption _ a.1 (some (Value.bool false))
    · exact Adds.ofOption _ a.1 none
  · rfl

theorem diverges_or (hfresh : (l.or r).ids.Nodup)
    (h : Decides l true ∨ Diverges l) : Diverges (l.or r) := by
  refine diverges_of_left rfl hfresh (fun m s => ⟨_, fun a => ?_, fun a => ?_, rfl⟩)
    (fun m s => ⟨_, fun a => ?_, fun seen => ?_, rfl⟩) h
  · exact Adds.bind (adds_value r a.1) fun b => Adds.ofOption _ _ _
  · exact Begins.bind [] (begins_value r a.1) fun b => Adds.ofOption _ _ _
  · split
    · exact Adds.ofOption _ a.1 (some (Value.bool true))
    · exact adds_cond r a.1
    · exact Adds.ofOption _ a.1 none
  · rfl

theorem decides_or_diverges (e : BoolExpr E) (he : e.starts = true) (hfresh : e.ids.Nodup)
    (t : Bool) : Decides e t ∨ Diverges e := by
  induction e generalizing t with
  | cmp id pred a b => exact .inl (decides_cmp id pred a b t)
  | call id callee args => exact .inl (decides_call id callee args t)
  | not x _ => exact .inl (decides_not he t)
  | and l r ihl _ =>
    exact .inr (diverges_and hfresh (ihl he (nodup_append.1 hfresh).1 false))
  | or l r ihl _ =>
    exact .inr (diverges_or hfresh (ihl he (nodup_append.1 hfresh).1 true))

/-! ## Agreement -/

theorem SameEvaluation.meanings (h : SameEvaluation e) {W : Type}
    (m : Machine E W) (w : W) : seenOf (e.cond m ⟨w, []⟩) = seenOf (e.value m ⟨w, []⟩) := by
  rw [← (computes_cond e 0).outcome w, ← (computes_value e 0).outcome w]
  exact h W m w

theorem seenOf_trace (r : Result W Value) : (seenOf r).1.trace = traceOf r := by
  cases r <;> rfl

theorem not_same_of_diverges (h : Diverges e) : ¬ SameEvaluation e := by
  intro hsame
  obtain ⟨m, τ, skipped, -, ⟨i, hi, ρ, hvalue⟩, ρ', hcond, hρ'⟩ := h
  have htrace := congrArg (fun o => o.1.trace) (hsame.meanings m 0)
  simp only [seenOf_trace, hvalue, hcond, append_cancel_left_eq] at htrace
  exact hρ' i (by simp [htrace]) hi

theorem call_not_same (id : Nat) (callee : String) (args : List E) :
    ¬ SameEvaluation (.call id callee args) := by
  intro hsame
  let m : Machine E Unit := ⟨fun _ w => (w, some (.i64 0)), fun _ _ w => (w, some (.bool true))⟩
  have hargs : ∀ (args : List E) (s : Seen Unit), ∃ a, evalArgs m id args s = .ok a := by
    intro args
    induction args with
    | nil => exact fun s => ⟨_, rfl⟩
    | cons e es ih =>
      intro s
      obtain ⟨a, ha⟩ := ih ⟨(), s.trace ++ [id]⟩
      exact ⟨(a.1, .i64 0 :: a.2), by
        simp only [evalArgs, m, Seen.answer, Result.ofOption, Except.bind] at ha ⊢
        simp [ha]⟩
  obtain ⟨a, ha⟩ := hargs args ⟨(), []⟩
  have h := congrArg Prod.snd (hsame.meanings m ())
  simp [BoolExpr.cond, BoolExpr.value, ha, m, Except.bind, Seen.answer, Result.ofOption, seenOf,
    truth, compare, eqI64] at h

/-- **The two ways of lowering agree** on the comparisons, the negations, and the operations that
stop in their first operand, and on nothing else. -/
theorem sameEvaluation_iff (t : Tree E) : SameEvaluation t.expr ↔ t.expr.unaffected = true := by
  obtain ⟨e, hfresh⟩ := t
  constructor
  · intro hsame
    by_contra hnot
    cases e with
    | cmp | not => exact hnot rfl
    | call id callee args => exact call_not_same id callee args hsame
    | and l r =>
      have hl : l.starts = true := by simpa [BoolExpr.unaffected] using hnot
      refine not_same_of_diverges (diverges_and hfresh ?_) hsame
      exact decides_or_diverges l hl (List.nodup_append.1 hfresh).1 false
    | or l r =>
      have hl : l.starts = true := by simpa [BoolExpr.unaffected] using hnot
      refine not_same_of_diverges (diverges_or hfresh ?_) hsame
      exact decides_or_diverges l hl (List.nodup_append.1 hfresh).1 true
  · intro hun W m w
    rw [(computes_cond e 0).outcome w, (computes_value e 0).outcome w]
    cases e with
    | cmp | not => rfl
    | call id callee args => simp [BoolExpr.unaffected] at hun
    | and l r =>
      have hl : (l.and r).starts = false := by
        simpa [BoolExpr.unaffected, BoolExpr.starts] using hun
      obtain ⟨x, hvalue, hcond⟩ := stuck (m := m) (l.and r) hl ⟨w, []⟩
      rw [hvalue, hcond]
    | or l r =>
      have hl : (l.or r).starts = false := by
        simpa [BoolExpr.unaffected, BoolExpr.starts] using hun
      obtain ⟨x, hvalue, hcond⟩ := stuck (m := m) (l.or r) hl ⟨w, []⟩
      rw [hvalue, hcond]

/-- `f() && g()`, where `f` gives 0: as a condition it is false without `g`, as a value `g` is
called. -/
def falseAndTrue : Tree Unit := ⟨.and (.call 0 "f" []) (.call 1 "g" []), by decide⟩

def zeros : Machine Unit Unit := ⟨fun _ w => (w, some (.i64 0)), fun _ _ w => (w, some (.i64 0))⟩

/-- **The right operand is not skipped in both.** -/
theorem not_all_sameEvaluation : ¬ ∀ t : Tree Unit, SameEvaluation t.expr := by
  intro h
  have htrace := congrArg (fun o => o.1.trace) (h falseAndTrue Unit zeros ())
  cases htrace

end Arth.Conditions
