import Arth.Lib.Decimal
import Arth.Lib.HandleStore
import Arth.Vm.Json

/-!
# Big integers

* `bigintNew` — a text is checked, normalised and stored under a new handle.
* `bigintAdd`, `bigintSub`, `bigintMul`, `bigintDiv`, `bigintRem`, `bigintPow`,
  `bigintCompare` — the operations, which read the texts as 128-bit integers.
* `gives_iff` — what a handle holds after an operation.
* `bigint_iff` — the integers on which the operations are exact.
-/

namespace Arth.BigInt

open Decimal Option List

abbrev Text := List Char

/-- The values of `i128`. -/
def Fits (z : ℤ) : Prop := -2 ^ 127 ≤ z ∧ z < 2 ^ 127

instance (z : ℤ) : Decidable (Fits z) := inferInstanceAs (Decidable (_ ∧ _))

/-- A result of `+`, `-`, `*` or `pow`: an overflow panics if it is checked, and wraps otherwise. -/
def arith (checks : Bool) (z : ℤ) : Option ℤ :=
  if Fits z then some z else if checks then none else some (z.bmod (2 ^ 128))

/-- `s.parse::<i128>().unwrap_or(0)` -/
def parseOrZero (s : Text) : ℤ :=
  match ofText s with
  | some z => if Fits z then z else 0
  | none => 0

/-- The stored texts; the handles are those that the counter has handed out. -/
structure Store extends HandleStore ℤ Text where
  counted : 400000 ≤ next
  live : ∀ h, (cells h).isSome → 400000 ≤ h ∧ h < next

def Store.initial : Store where
  next := 400000
  cells := fun _ => none
  counted := le_rfl
  live := fun _ h => by cases h

def Store.alloc (st : Store) (s : Text) : Store where
  toHandleStore := st.toHandleStore.alloc s
  counted := by
    have := st.counted
    show 400000 ≤ st.next + 1
    omega
  live := by
    intro h hlive
    have hcounted := st.counted
    show 400000 ≤ h ∧ h < st.next + 1
    rcases HandleStore.live_alloc.1 hlive with rfl | hold
    · omega
    · have := st.live h hold
      omega

/-- `normalize_bigint` -/
def normalizeBigint (s : Text) : Text :=
  let (sign, digits) := splitSign (Json.trim s)
  let rest := strip digits
  if rest = ['0'] then ['0'] else if sign = some .minus then '-' :: rest else rest

/-- An optional sign and digits only, at least one. -/
def validBigint (s : Text) : Bool :=
  let digits := (splitSign s).2
  digits.all Char.isDigit && !digits.isEmpty

/-- `bigint_new`, with -1 for a text that is no integer. -/
def bigintNew (st : Store) (s : Text) : Store × ℤ :=
  if validBigint (Json.trim s) then (st.alloc (normalizeBigint (Json.trim s)), st.next)
  else (st, -1)

def bigintGet (st : Store) (h : ℤ) : Option Text := st.cells h

section
variable (checks : Bool) (st : Store) (h h₁ h₂ : ℤ)

/-- What the operations have in common. An `f` without a result panics, and with an empty result
it returns -1. -/
def binary (f : ℤ → ℤ → Option (Option ℤ)) : Option (Store × ℤ) :=
  match bigintGet st h₁, bigintGet st h₂ with
  | some s₁, some s₂ =>
    (f (parseOrZero s₁) (parseOrZero s₂)).map fun r =>
      match r with
      | some z => bigintNew st (text z)
      | none => (st, -1)
  | _, _ => some (st, -1)

def bigintAdd : Option (Store × ℤ) := binary st h₁ h₂ fun x y => (arith checks (x + y)).map some

def bigintSub : Option (Store × ℤ) := binary st h₁ h₂ fun x y => (arith checks (x - y)).map some

def bigintMul : Option (Store × ℤ) := binary st h₁ h₂ fun x y => (arith checks (x * y)).map some

/-- The quotient and the remainder of the least integer by -1 panic even without checks. -/
def divides (f : ℤ → ℤ → ℤ) (x y : ℤ) : Option (Option ℤ) :=
  if y = 0 then some none
  else if x = -2 ^ 127 ∧ y = -1 then none
  else some (some (f x y))

def bigintDiv : Option (Store × ℤ) := binary st h₁ h₂ (divides Int.tdiv)

def bigintRem : Option (Store × ℤ) := binary st h₁ h₂ (divides Int.tmod)

/-- `exp as u32` -/
def expU32 (exp : Int64) : ℕ := (exp.toInt % 2 ^ 32).toNat

def bigintPow (exp : Int64) : Option (Store × ℤ) :=
  match bigintGet st h with
  | some s => (arith checks (parseOrZero s ^ expU32 exp)).map fun z => bigintNew st (text z)
  | none => some (st, -1)

def bigintCompare : ℤ :=
  match bigintGet st h₁, bigintGet st h₂ with
  | some s₁, some s₂ =>
    let v₁ := parseOrZero s₁
    let v₂ := parseOrZero s₂
    if v₁ < v₂ then -1 else if v₁ = v₂ then 0 else 1
  | _, _ => 0

end

/-- The operation returns a handle that holds the decimal text of the integer. -/
def Gives (r : Option (Store × ℤ)) (z : ℤ) : Prop :=
  ∃ st h, r = some (st, h) ∧ bigintGet st h = some (text z)

/-- The three results of a comparison. -/
def order (x y : ℤ) : ℤ := if x < y then -1 else if x = y then 0 else 1

/-! ## The condition -/

def AddExact (x y : ℤ) : Prop :=
  Fits x ∧ Fits y ∧ Fits (x + y) ∨ ¬ Fits x ∧ ¬ Fits y ∧ x + y = 0

/-- The last case is an overflow that wraps to the right result. -/
def SubExact (checks : Bool) (x y : ℤ) : Prop :=
  Fits x ∧ Fits y ∧ Fits (x - y) ∨ ¬ Fits x ∧ ¬ Fits y ∧ x = y ∨
    checks = false ∧ x = -2 ^ 128 ∧ y = -2 ^ 127

def MulExact (x y : ℤ) : Prop := Fits x ∧ Fits y ∧ Fits (x * y) ∨ x = 0 ∨ y = 0

def DivExact (x y : ℤ) : Prop := Fits x ∧ Fits y ∧ ¬ (x = -2 ^ 127 ∧ y = -1)

def RemExact (x y : ℤ) : Prop :=
  Fits y ∧ (Fits x ∧ ¬ (x = -2 ^ 127 ∧ y = -1) ∨ ¬ Fits x ∧ y ∣ x)

def PowExact (x : ℤ) (n : ℕ) : Prop :=
  n = 0 ∨ Fits x ∧ n < 2 ^ 32 ∧ Fits (x ^ n) ∨ x = 1 ∨ x = -1 ∨ x = 0 ∧ n % 2 ^ 32 ≠ 0

def CompareExact (x y : ℤ) : Prop :=
  Fits x ∧ Fits y ∨ (Fits x ∨ Fits y) ∧ (x < 0 ∧ 0 < y ∨ 0 < x ∧ y < 0) ∨
    ¬ Fits x ∧ ¬ Fits y ∧ x = y

/-- What the operations read for an integer. -/
def read (z : ℤ) : ℤ := if Fits z then z else 0

theorem parseOrZero_text (z : ℤ) : parseOrZero (text z) = read z := by
  unfold parseOrZero
  rw [ofText_text]
  rfl

theorem isWhitespace_digit {c : Char} (hc : c.isDigit = true) : Json.isWhitespace c = false := by
  have hle : 48 ≤ c.toNat ∧ c.toNat ≤ 57 := by
    simpa [Char.isDigit, UInt32.le_iff_toNat_le] using hc
  unfold Json.isWhitespace
  simp only [Bool.or_eq_false_iff, Bool.and_eq_false_iff, decide_eq_false_iff_not,
    beq_eq_false_iff_ne]
  omega

theorem trim_eq {s : Text} (h : ∀ c ∈ s, Json.isWhitespace c = false) : Json.trim s = s := by
  have hdrop : ∀ t : Text, (∀ c ∈ t, Json.isWhitespace c = false) → Json.trimStart t = t := by
    intro t ht
    cases t with
    | nil => rfl
    | cons c t => simp [Json.trimStart, ht c mem_cons_self]
  unfold Json.trim
  rw [hdrop s h, hdrop s.reverse fun c hc => h c (mem_reverse.1 hc), reverse_reverse]

theorem strip_eq_zero {ds : List Char} (hd : ∀ c ∈ ds, c.isDigit = true) :
    strip ds = ['0'] ↔ value ds = 0 := by
  rw [← digits_value_eq_strip hd]
  constructor
  · intro h
    have hvalue := congrArg value h
    rwa [value_digits] at hvalue
  · intro h
    rw [h]
    rfl

section
variable (n : Numeral)

theorem isWhitespace_toText : ∀ c ∈ n.toText, Json.isWhitespace c = false := by
  have hdigits : ∀ c ∈ n.digits, Json.isWhitespace c = false := fun c hc =>
    isWhitespace_digit (n.isDigit c hc)
  intro c hc
  unfold Numeral.toText at hc
  split at hc
  · rcases mem_cons.1 hc with rfl | hc
    · rfl
    · exact hdigits c hc
  · rcases mem_cons.1 hc with rfl | hc
    · rfl
    · exact hdigits c hc
  · exact hdigits c hc

theorem validBigint_toText : validBigint n.toText = true := by
  have hall : n.digits.all Char.isDigit = true := all_eq_true.2 n.isDigit
  have hempty : n.digits.isEmpty = false := by simpa using n.ne_nil
  simp [validBigint, n.splitSign_toText, hall, hempty]

/-- **A decimal string is normalised to the text of its value.** -/
theorem normalizeBigint_toText : normalizeBigint n.toText = text n.val := by
  unfold normalizeBigint
  rw [trim_eq (isWhitespace_toText n), n.splitSign_toText]
  have hstrip := digits_value_eq_strip n.isDigit
  have hzero := strip_eq_zero n.isDigit
  unfold Numeral.val Sign.apply
  by_cases hvalue : value n.digits = 0
  · simp only [if_pos (hzero.2 hvalue), hvalue]
    split <;> rfl
  · simp only [if_neg (mt hzero.1 hvalue)]
    by_cases hsign : n.sign = some .minus
    · rw [if_pos hsign, if_pos hsign, text, if_pos (by omega), ← hstrip]
      simp
    · rw [if_neg hsign, if_neg hsign, text, if_neg (by omega), ← hstrip]
      simp

theorem bigintNew_toText (st : Store) :
    bigintNew st n.toText = (st.alloc (text n.val), st.next) := by
  unfold bigintNew
  rw [trim_eq (isWhitespace_toText n), if_pos (validBigint_toText n), normalizeBigint_toText]

end

theorem bigintNew_text (st : Store) (z : ℤ) :
    bigintNew st (text z) = (st.alloc (text z), st.next) := by
  have h := bigintNew_toText (Numeral.ofInt z) st
  rwa [Numeral.toText_ofInt, Numeral.val_ofInt] at h

/-! ## Handles -/

theorem bigintGet_alloc (st : Store) (s : Text) : bigintGet (st.alloc s) st.next = some s :=
  if_pos rfl

theorem bigintGet_alloc_of_lt {st : Store} {h : ℤ} (hlt : h < st.next) (s : Text) :
    bigintGet (st.alloc s) h = bigintGet st h := if_neg hlt.ne

theorem bigintGet_negative (st : Store) : bigintGet st (-1) = none := by
  by_contra hne
  have hlive := st.live (-1) (isSome_iff_ne_none.2 hne)
  omega

/-- The texts of `x` and `y` are stored under `h₁` and `h₂`. -/
structure Holds (st : Store) (h₁ h₂ x y : ℤ) : Prop where
  left : bigintGet st h₁ = some (text x)
  right : bigintGet st h₂ = some (text y)

theorem holds_new (st : Store) (a b : Numeral) :
    Holds (bigintNew (bigintNew st a.toText).1 b.toText).1 (bigintNew st a.toText).2
      (bigintNew (bigintNew st a.toText).1 b.toText).2 a.val b.val where
  left := by
    rw [bigintNew_toText, bigintNew_toText]
    have hlt : st.next < (st.alloc (text a.val)).next := Int.lt_succ st.next
    exact (bigintGet_alloc_of_lt hlt _).trans (bigintGet_alloc st _)
  right := by
    rw [bigintNew_toText, bigintNew_toText]
    exact bigintGet_alloc _ _

theorem gives_new (st : Store) (w z : ℤ) : Gives (some (bigintNew st (text w))) z ↔ w = z := by
  rw [bigintNew_text]
  constructor
  · rintro ⟨st', h, heq, hget⟩
    cases heq
    rw [bigintGet_alloc] at hget
    exact text_injective (some.inj hget)
  · rintro rfl
    exact ⟨_, _, rfl, bigintGet_alloc st _⟩

section
variable {st : Store} {h₁ h₂ x y : ℤ}

/-- **What a binary operation leaves under its handle.** -/
theorem gives_binary (h : Holds st h₁ h₂ x y) (f : ℤ → ℤ → Option (Option ℤ)) (z : ℤ) :
    Gives (binary st h₁ h₂ f) z ↔ f (read x) (read y) = some (some z) := by
  unfold binary
  rw [h.left, h.right]
  simp only [parseOrZero_text]
  cases hf : f (read x) (read y) with
  | none => simp [Gives]
  | some r =>
    cases r with
    | none =>
      refine iff_of_false ?_ (by simp)
      rintro ⟨st', h', heq, hget⟩
      cases heq
      rw [bigintGet_negative] at hget
      cases hget
    | some w => simpa using gives_new st w z

theorem gives_bigintPow (checks : Bool) (hget : bigintGet st h₁ = some (text x)) (exp : Int64)
    (z : ℤ) : Gives (bigintPow checks st h₁ exp) z ↔
      arith checks (read x ^ expU32 exp) = some z := by
  unfold bigintPow
  rw [hget]
  simp only [parseOrZero_text]
  cases hf : arith checks (read x ^ expU32 exp) with
  | none => simp [Gives]
  | some w => simpa using gives_new st w z

theorem bigintCompare_eq (h : Holds st h₁ h₂ x y) :
    bigintCompare st h₁ h₂ = order (read x) (read y) := by
  unfold bigintCompare
  rw [h.left, h.right]
  simp only [parseOrZero_text]
  rfl

end

/-! ## Arithmetic -/

variable {z x y : ℤ} {checks : Bool}

theorem fits_of_arith {w : ℤ} (h : arith checks z = some w) : Fits w := by
  unfold arith at h
  split at h
  · cases h
    assumption
  · cases checks
    · cases h
      unfold Fits Int.bmod
      dsimp only
      split <;> omega
    · cases h

theorem arith_of_fits (h : Fits z) : arith checks z = some z := if_pos h

theorem arith_exact (checks : Bool) (z : ℤ) : arith checks z = some z ↔ Fits z :=
  ⟨fits_of_arith, arith_of_fits⟩

theorem add_iff (checks : Bool) (x y : ℤ) :
    arith checks (read x + read y) = some (x + y) ↔ AddExact x y := by
  unfold AddExact read
  by_cases hx : Fits x
  · by_cases hy : Fits y
    · simp [hx, hy, arith_exact]
    · have hzero : y ≠ 0 := by rintro rfl; exact hy (by decide)
      simp [hx, hy, arith_of_fits, hzero]
  · have hxzero : x ≠ 0 := by rintro rfl; exact hx (by decide)
    by_cases hy : Fits y
    · simp [hx, hy, arith_of_fits, hxzero]
    · have hfits : Fits 0 := by decide
      simp [hx, hy, arith_of_fits hfits, eq_comm]

theorem mul_iff (checks : Bool) (x y : ℤ) :
    arith checks (read x * read y) = some (x * y) ↔ MulExact x y := by
  have hfits : Fits 0 := by decide
  unfold MulExact read
  by_cases hx : Fits x
  · by_cases hy : Fits y
    · simp only [hx, hy, if_true, arith_exact, true_and]
      constructor
      · exact .inl
      · rintro (h | rfl | rfl)
        · exact h
        · rwa [zero_mul]
        · rwa [mul_zero]
    · simp [hx, hy, arith_of_fits hfits, eq_comm]
  · simp [hx, arith_of_fits hfits, eq_comm]

theorem sub_iff (checks : Bool) (x y : ℤ) :
    arith checks (read x - read y) = some (x - y) ↔ SubExact checks x y := by
  have hfits : Fits 0 := by decide
  unfold SubExact read
  by_cases hx : Fits x
  · have hlow : x ≠ -2 ^ 128 := by unfold Fits at hx; omega
    by_cases hy : Fits y
    · simp only [hx, hy, hlow, if_true, arith_exact, true_and, not_true_eq_false, false_and,
        and_false, or_false]
    · have hzero : y ≠ 0 := by rintro rfl; exact hy hfits
      simp only [hx, hy, hlow, if_true, if_false, sub_zero, arith_of_fits, some.injEq,
        not_true_eq_false, false_and, and_false, or_false, iff_false]
      omega
  · have hxzero : x ≠ 0 := by rintro rfl; exact hx hfits
    by_cases hy : Fits y
    · simp only [hx, hy, if_true, if_false, zero_sub, false_and, and_false, not_true, false_or]
      unfold arith
      by_cases hneg : Fits (-y)
      · rw [if_pos hneg]
        refine iff_of_false (fun h => hxzero ?_) fun h => ?_
        · have := some.inj h
          omega
        · unfold Fits at hneg
          omega
      · have hmin : y = -2 ^ 127 := by unfold Fits at hy hneg; omega
        rw [if_neg hneg]
        subst hmin
        cases checks with
        | true => simp
        | false =>
          have hwrap : (-(-2 ^ 127) : ℤ).bmod (2 ^ 128) = -2 ^ 127 := by decide
          simp only [hwrap, Bool.false_eq_true, if_false, some.injEq]
          constructor
          · intro h
            exact ⟨trivial, by omega, trivial⟩
          · rintro ⟨-, rfl, -⟩
            norm_num
    · have hlow : y ≠ -2 ^ 127 := by unfold Fits at hy; omega
      simp only [hx, hy, if_false, sub_zero, arith_of_fits hfits, hlow]
      simp [sub_eq_zero, eq_comm]

theorem divides_iff {f : ℤ → ℤ → ℤ} (hf : f 0 y = 0) (hy : y ≠ 0) :
    divides f (read x) (read y) = some (some (f x y)) ↔
      Fits y ∧ (Fits x ∧ ¬ (x = -2 ^ 127 ∧ y = -1) ∨ ¬ Fits x ∧ f x y = 0) := by
  unfold divides read
  by_cases hfy : Fits y
  · rw [if_pos hfy, if_neg hy]
    by_cases hfx : Fits x
    · rw [if_pos hfx]
      split_ifs with hmin
      · exact iff_of_false (by simp) fun h => by tauto
      · exact iff_of_true rfl ⟨hfy, .inl ⟨hfx, hmin⟩⟩
    · rw [if_neg hfx, if_neg (by omega), hf]
      simp [hfx, hfy, eq_comm]
  · simp [hfy]

theorem tdiv_ne_zero (hx : ¬ Fits x) (hy : Fits y) (hzero : y ≠ 0) : x.tdiv y ≠ 0 := by
  intro h
  have hquot : x.natAbs / y.natAbs = 0 := by
    have := Int.natAbs_tdiv x y
    rw [h, Int.natAbs_zero] at this
    exact this.symm
  rw [Nat.div_eq_zero_iff] at hquot
  unfold Fits at hx hy
  omega

theorem div_iff (hy : y ≠ 0) :
    divides Int.tdiv (read x) (read y) = some (some (x.tdiv y)) ↔ DivExact x y := by
  rw [divides_iff (Int.zero_tdiv y) hy]
  constructor
  · rintro ⟨hfy, ⟨hfx, hmin⟩ | ⟨hfx, hquot⟩⟩
    · exact ⟨hfx, hfy, hmin⟩
    · exact absurd hquot (tdiv_ne_zero hfx hfy hy)
  · rintro ⟨hfx, hfy, hmin⟩
    exact ⟨hfy, .inl ⟨hfx, hmin⟩⟩

theorem rem_iff (hy : y ≠ 0) :
    divides Int.tmod (read x) (read y) = some (some (x.tmod y)) ↔ RemExact x y := by
  rw [divides_iff (Int.zero_tmod y) hy, RemExact, Int.dvd_iff_tmod_eq_zero]

theorem compare_iff (x y : ℤ) : order (read x) (read y) = order x y ↔ CompareExact x y := by
  unfold CompareExact read
  by_cases hx : Fits x
  · by_cases hy : Fits y
    · simp [hx, hy]
    · simp only [hx, hy, if_true, if_false, order]
      unfold Fits at hx hy
      split_ifs <;> simp <;> omega
  · by_cases hy : Fits y
    · simp only [hx, hy, if_true, if_false, order]
      unfold Fits at hx hy
      split_ifs <;> simp <;> omega
    · simp only [hx, hy, if_false, order]
      split_ifs <;> simp <;> omega

theorem not_fits_pow {n : ℕ} (hx : 2 ≤ x.natAbs) (hn : 2 ^ 32 ≤ n) : ¬ Fits (x ^ n) := by
  intro h
  have hpow : 2 ^ 128 ≤ (x ^ n).natAbs := by
    rw [Int.natAbs_pow]
    calc 2 ^ 128 ≤ 2 ^ n := Nat.pow_le_pow_right (by omega) (by omega)
      _ ≤ x.natAbs ^ n := Nat.pow_le_pow_left hx n
  unfold Fits at h
  omega

theorem pow_iff (checks : Bool) (x : ℤ) (n : ℕ) :
    arith checks (read x ^ (n % 2 ^ 32)) = some (x ^ n) ↔ PowExact x n := by
  have hzero : Fits 0 := by decide
  have hone : Fits 1 := by decide
  unfold PowExact
  by_cases hn : n = 0
  · subst hn
    simp [arith_of_fits hone]
  by_cases hx : Fits x
  · rw [read, if_pos hx]
    by_cases hsmall : n < 2 ^ 32
    · rw [Nat.mod_eq_of_lt hsmall, arith_exact]
      constructor
      · intro h
        exact .inr (.inl ⟨hx, hsmall, h⟩)
      · rintro (h | ⟨-, -, h⟩ | rfl | rfl | ⟨rfl, -⟩)
        · exact absurd h hn
        · exact h
        · rwa [one_pow]
        · rcases neg_one_pow_eq_or ℤ n with h | h <;> rw [h] <;> decide
        · rwa [zero_pow hn]
    · by_cases hbig : 2 ≤ x.natAbs
      · refine iff_of_false (fun h => not_fits_pow hbig (not_lt.1 hsmall) (fits_of_arith h)) ?_
        omega
      · have hcases : x = 0 ∨ x = 1 ∨ x = -1 := by omega
        rcases hcases with rfl | rfl | rfl
        · rw [zero_pow hn]
          by_cases hmod : n % 2 ^ 32 = 0
          · rw [hmod, pow_zero, arith_of_fits hone]
            refine iff_of_false (by simp) ?_
            omega
          · rw [zero_pow hmod, arith_of_fits hzero]
            exact iff_of_true rfl (.inr (.inr (.inr (.inr ⟨rfl, hmod⟩))))
        · rw [one_pow, one_pow, arith_of_fits hone]
          exact iff_of_true rfl (.inr (.inr (.inl rfl)))
        · have hparity : (-1 : ℤ) ^ (n % 2 ^ 32) = (-1) ^ n := by
            rw [neg_one_pow_eq_pow_mod_two, neg_one_pow_eq_pow_mod_two n,
              Nat.mod_mod_of_dvd n (by norm_num)]
          have hfits : Fits ((-1) ^ n) := by
            rcases neg_one_pow_eq_or ℤ n with h | h <;> rw [h] <;> decide
          rw [hparity, arith_of_fits hfits]
          exact iff_of_true rfl (.inr (.inr (.inr (.inl rfl))))
  · have hxzero : x ≠ 0 := by rintro rfl; exact hx hzero
    have hlarge : 2 ≤ x.natAbs := by unfold Fits at hx; omega
    rw [read, if_neg hx]
    refine iff_of_false (fun h => ?_) ?_
    · -- the power of an integer that does not fit is neither zero nor one
      have hpow : 2 ≤ (x ^ n).natAbs := by
        rw [Int.natAbs_pow]
        calc 2 ≤ x.natAbs ^ 1 := by rwa [pow_one]
          _ ≤ x.natAbs ^ n := Nat.pow_le_pow_right (by omega) (by omega)
      by_cases hmod : n % 2 ^ 32 = 0
      · rw [hmod, pow_zero, arith_of_fits hone] at h
        have := some.inj h
        omega
      · rw [zero_pow hmod, arith_of_fits hzero] at h
        have := some.inj h
        omega
    · simp only [hn, hx, hxzero, false_and, false_or, or_false]
      omega

/-- **Which operations are exact.** For every two decimal strings, whatever their length and
sign, and every exponent that is not negative. -/
theorem bigint_iff (checks : Bool) (st : Store) (a b : Numeral) (exp : Int64) :
    let h₁ := (bigintNew st a.toText).2
    let st₁ := (bigintNew st a.toText).1
    let h₂ := (bigintNew st₁ b.toText).2
    let st₂ := (bigintNew st₁ b.toText).1
    (Gives (bigintAdd checks st₂ h₁ h₂) (a.val + b.val) ↔ AddExact a.val b.val) ∧
    (Gives (bigintSub checks st₂ h₁ h₂) (a.val - b.val) ↔ SubExact checks a.val b.val) ∧
    (Gives (bigintMul checks st₂ h₁ h₂) (a.val * b.val) ↔ MulExact a.val b.val) ∧
    (b.val ≠ 0 → (Gives (bigintDiv st₂ h₁ h₂) (a.val.tdiv b.val) ↔ DivExact a.val b.val)) ∧
    (b.val ≠ 0 → (Gives (bigintRem st₂ h₁ h₂) (a.val.tmod b.val) ↔ RemExact a.val b.val)) ∧
    (0 ≤ exp.toInt → (Gives (bigintPow checks st₂ h₁ exp) (a.val ^ exp.toInt.toNat) ↔
      PowExact a.val exp.toInt.toNat)) ∧
    (bigintCompare st₂ h₁ h₂ = order a.val b.val ↔ CompareExact a.val b.val) := by
  intro h₁ st₁ h₂ st₂
  have h : Holds st₂ h₁ h₂ a.val b.val := holds_new st a b
  have hmap : ∀ (r : Option ℤ) z, r.map some = some (some z) ↔ r = some z := by
    intro r z
    cases r <;> simp
  refine ⟨?_, ?_, ?_, fun hb => ?_, fun hb => ?_, fun hexp => ?_, ?_⟩
  · rw [bigintAdd, gives_binary h, hmap, add_iff]
  · rw [bigintSub, gives_binary h, hmap, sub_iff]
  · rw [bigintMul, gives_binary h, hmap, mul_iff]
  · rw [bigintDiv, gives_binary h, div_iff hb]
  · rw [bigintRem, gives_binary h, rem_iff hb]
  · have hexp' : expU32 exp = exp.toInt.toNat % 2 ^ 32 := by
      unfold expU32
      omega
    rw [gives_bigintPow checks h.left, hexp', pow_iff]
  · rw [bigintCompare_eq h, compare_iff]

def beyond : Numeral := Numeral.ofInt (2 ^ 127)

def one : Numeral := Numeral.ofInt 1

/-- **A sum that loses an operand.** 2¹²⁷ + 1 is 1, with and without checks. -/
theorem sum_lost : ¬ ∃ checks, Gives (bigintAdd checks
    (bigintNew (bigintNew Store.initial beyond.toText).1 one.toText).1
    (bigintNew Store.initial beyond.toText).2
    (bigintNew (bigintNew Store.initial beyond.toText).1 one.toText).2) (beyond.val + one.val) := by
  rintro ⟨checks, h⟩
  have hexact := (bigint_iff checks Store.initial beyond one 0).1.1 h
  unfold beyond one at hexact
  rw [Numeral.val_ofInt, Numeral.val_ofInt] at hexact
  unfold AddExact Fits at hexact
  omega

end Arth.BigInt
