import Arth.Lower.Optionals

/-!
# Floats that are whole numbers

* `exponent`, `significand` — the parts of a float; `magnitude` — its value without the sign and
  without a fraction.
* `integral` — the integer a float is, if it is one that an `i64` can hold.
* `Exact` — the integers that are floats; `integral_ofInt64` — they come back from the float.
-/

namespace Arth.Integral

open Optionals

/-! ## The parts of a float -/

def exponent (x : F64) : ℕ := x.bits.toNat / 2 ^ 52 % 2 ^ 11

def mantissa (x : F64) : ℕ := x.bits.toNat % 2 ^ 52

/-- The digits of a float as a whole number. -/
def significand (x : F64) : ℕ :=
  if exponent x = 0 then mantissa x else 2 ^ 52 + mantissa x

/-- The float is its significand times two to this power, less 1075. -/
def power (x : F64) : ℕ := max (exponent x) 1

/-- `fract() == 0.0`, which is false of what is not finite. -/
def isWhole (x : F64) : Bool :=
  exponent x ≠ 2047 ∧ significand x % 2 ^ (1075 - power x) = 0

/-- A float without its sign and its fraction. -/
def magnitude (x : F64) : ℕ := significand x * 2 ^ (power x - 1075) / 2 ^ (1075 - power x)

def toInt (x : F64) : ℤ := if 2 ^ 63 ≤ x.bits.toNat then -magnitude x else magnitude x

/-- A whole number between `i64::MIN as f64` and `i64::MAX as f64`, as an `i64`. The upper bound
is 2^63, which becomes `i64::MAX`. -/
def integral (x : F64) : Option Int64 :=
  if isWhole x ∧ -2 ^ 63 ≤ toInt x ∧ toInt x ≤ 2 ^ 63 then
    some (Int64.ofInt (min (toInt x) (2 ^ 63 - 1)))
  else none

/-- No more than 53 binary digits, apart from zeros at the end. -/
def ExactNat (n : ℕ) : Prop := n % 2 ^ (Nat.log2 n - 52) = 0

/-- The integer is a float. -/
def Exact (n : Int64) : Prop := ExactNat n.toInt.natAbs

instance (n : Int64) : Decidable (Exact n) := inferInstanceAs (Decidable (_ = _))

/-- The 53 digits of a number that has no more. -/
def leading (n : ℕ) : ℕ :=
  if Nat.log2 n ≤ 52 then n * 2 ^ (52 - Nat.log2 n) else n / 2 ^ (Nat.log2 n - 52)

variable {n : ℕ} {x : F64}

theorem leading_bounds (hn : n ≠ 0) : 2 ^ 52 ≤ leading n ∧ leading n < 2 ^ 53 := by
  have hle : 2 ^ Nat.log2 n ≤ n := Nat.log2_self_le hn
  have hlt : n < 2 ^ (Nat.log2 n + 1) := Nat.lt_log2_self
  unfold leading
  generalize Nat.log2 n = e at hle hlt
  split
  · have hsplit : 2 ^ e * 2 ^ (52 - e) = 2 ^ 52 := by rw [← pow_add]; congr 1; omega
    have hsplit' : 2 ^ (e + 1) * 2 ^ (52 - e) = 2 ^ 53 := by rw [← pow_add]; congr 1; omega
    refine ⟨?_, ?_⟩
    · rw [← hsplit]
      exact Nat.mul_le_mul_right _ hle
    · rw [← hsplit']
      exact Nat.mul_lt_mul_of_pos_right hlt (by positivity)
  · have hsplit : 2 ^ 52 * 2 ^ (e - 52) = 2 ^ e := by rw [← pow_add]; congr 1; omega
    have hsplit' : 2 ^ 53 * 2 ^ (e - 52) = 2 ^ (e + 1) := by rw [← pow_add]; congr 1; omega
    refine ⟨?_, ?_⟩
    · rw [Nat.le_div_iff_mul_le (by positivity), hsplit]
      exact hle
    · rw [Nat.div_lt_iff_lt_mul (by positivity), hsplit']
      exact hlt

theorem natBits_exact (h : ExactNat n) :
    F64.natBits n = (Nat.log2 n + 1023) * 2 ^ 52 + (leading n - 2 ^ 52) := by
  unfold F64.natBits leading
  dsimp only
  by_cases he : Nat.log2 n ≤ 52
  · rw [if_pos he, if_pos he, Nat.shiftLeft_eq]
  · have hhalf : 0 < 2 ^ (Nat.log2 n - 53) := by positivity
    rw [if_neg he, if_neg he, h, if_neg (by omega), Nat.shiftRight_eq_div_pow]

theorem log2_lt (hn : n ≠ 0) (hlt : n ≤ 2 ^ 63) : Nat.log2 n < 64 := by
  rw [Nat.log2_lt hn]
  omega

theorem parts_exact (hn : n ≠ 0) (hle : n ≤ 2 ^ 63) (h : ExactNat n)
    (hx : x.bits.toNat % 2 ^ 63 = F64.natBits n) :
    exponent x = Nat.log2 n + 1023 ∧ significand x = leading n := by
  obtain ⟨hlow, hhigh⟩ := leading_bounds hn
  rw [natBits_exact h] at hx
  have hexp : exponent x = Nat.log2 n + 1023 := by
    unfold exponent
    omega
  refine ⟨hexp, ?_⟩
  have hman : mantissa x = leading n - 2 ^ 52 := by
    unfold mantissa
    omega
  unfold significand
  rw [hexp, if_neg (by omega), hman]
  omega

theorem magnitude_exact (hn : n ≠ 0) (hle : n ≤ 2 ^ 63) (h : ExactNat n)
    (hx : x.bits.toNat % 2 ^ 63 = F64.natBits n) : isWhole x = true ∧ magnitude x = n := by
  obtain ⟨hexp, hsig⟩ := parts_exact hn hle h hx
  have hlog := log2_lt hn hle
  have hpower : power x = Nat.log2 n + 1023 := by
    unfold power
    omega
  have hfinite : exponent x ≠ 2047 := by omega
  unfold isWhole magnitude
  rw [hsig]
  unfold leading
  by_cases he : Nat.log2 n ≤ 52
  · have hshift : 1075 - power x = 52 - Nat.log2 n := by omega
    have hnone : power x - 1075 = 0 := by omega
    have hpos : 0 < 2 ^ (52 - Nat.log2 n) := by positivity
    have hdiv : n * 2 ^ (52 - Nat.log2 n) / 2 ^ (52 - Nat.log2 n) = n :=
      Nat.mul_div_cancel n hpos
    simp only [if_pos he, hshift, hnone, pow_zero, mul_one, Nat.mul_mod_left, and_true,
      decide_eq_true_eq]
    exact ⟨hfinite, hdiv⟩
  · have hnone : 1075 - power x = 0 := by omega
    have hshift : power x - 1075 = Nat.log2 n - 52 := by omega
    have hmul : n / 2 ^ (Nat.log2 n - 52) * 2 ^ (Nat.log2 n - 52) = n :=
      Nat.div_mul_cancel (Nat.dvd_of_mod_eq_zero h)
    simp only [if_neg he, hnone, hshift, pow_zero, Nat.div_one, Nat.mod_one, and_true,
      decide_eq_true_eq]
    exact ⟨hfinite, hmul⟩

theorem natBits_lt (hn : n ≠ 0) (hle : n ≤ 2 ^ 63) (h : ExactNat n) : F64.natBits n < 2 ^ 63 := by
  obtain ⟨hlow, hhigh⟩ := leading_bounds hn
  have hlog := log2_lt hn hle
  rw [natBits_exact h]
  omega

/-- **An integer that is a float comes back from it.** -/
theorem integral_ofInt64 {n : Int64} (h : Exact n) : integral (F64.ofInt64 n) = some n := by
  have hlow : -2 ^ 63 ≤ n.toInt := Int64.le_toInt n
  have hhigh : n.toInt < 2 ^ 63 := Int64.toInt_lt n
  have hback : ∀ x : F64, isWhole x = true → toInt x = n.toInt → integral x = some n := by
    intro x hwhole hint
    unfold integral
    rw [hint, if_pos ⟨hwhole, hlow, by omega⟩, min_eq_left (by omega), Int64.ofInt_toInt]
  unfold F64.ofInt64
  by_cases hzero : n.toInt = 0
  · rw [if_pos hzero]
    refine hback _ (by decide +kernel) ?_
    rw [hzero]
    decide +kernel
  · have hne : n.toInt.natAbs ≠ 0 := by omega
    have hle : n.toInt.natAbs ≤ 2 ^ 63 := by omega
    have hbits := natBits_lt hne hle h
    rw [if_neg hzero]
    split_ifs with hpos
    · have htoNat : (UInt64.ofNat (F64.natBits n.toInt.natAbs)).toNat =
          F64.natBits n.toInt.natAbs := by
        rw [UInt64.toNat_ofNat']
        omega
      obtain ⟨hwhole, hmag⟩ := magnitude_exact hne hle h
        (x := ⟨UInt64.ofNat (F64.natBits n.toInt.natAbs)⟩) (by dsimp only; omega)
      refine hback _ hwhole ?_
      unfold toInt
      rw [hmag, if_neg (by dsimp only; omega)]
      omega
    · have htoNat : (UInt64.ofNat (2 ^ 63 + F64.natBits n.toInt.natAbs)).toNat =
          2 ^ 63 + F64.natBits n.toInt.natAbs := by
        rw [UInt64.toNat_ofNat']
        omega
      obtain ⟨hwhole, hmag⟩ := magnitude_exact hne hle h
        (x := ⟨UInt64.ofNat (2 ^ 63 + F64.natBits n.toInt.natAbs)⟩) (by dsimp only; omega)
      refine hback _ hwhole ?_
      unfold toInt
      rw [hmag, if_pos (by dsimp only; omega)]
      omega

end Arth.Integral
