import Mathlib

/-!
# Decimal texts

* `ofText` — the integer that an optional sign and digits denote.
* `text` — the text of an integer: no plus, no leading zeros, no negative zero.
* `toDigits_value` — writing the value of some digits drops their leading zeros.
* `text_injective`, `ofText_text` — texts and integers correspond.
* `pad`, `ofText_pad` — texts filled with zeros up to a width.
* `fixed`, `fixed_inj` — digits before and after a point, and when two such are equal numbers.
-/

namespace Decimal

open List Option

/-- The number that a list of digits denotes. -/
def value (ds : List Char) : ℕ := Nat.ofDigitChars 10 ds 0

def digits (n : ℕ) : List Char := Nat.toDigits 10 n

/-- What the text of an integer looks like. -/
def text (z : ℤ) : List Char :=
  if z < 0 then '-' :: digits z.natAbs else digits z.natAbs

/-- Digits without their leading zeros; at least one stays. -/
def strip (ds : List Char) : List Char :=
  let rest := ds.dropWhile (· = '0')
  if rest = [] then ['0'] else rest

inductive Sign where
  | plus | minus
  deriving DecidableEq

/-- The sign in front of a text, and the rest. -/
def splitSign : List Char → Option Sign × List Char
  | '-' :: ds => (some .minus, ds)
  | '+' :: ds => (some .plus, ds)
  | ds => (none, ds)

def Sign.apply (sign : Option Sign) (n : ℕ) : ℤ := if sign = some .minus then -n else n

/-- Some digits, and nothing else. -/
def natOfText (ds : List Char) : Option ℕ :=
  if ds ≠ [] ∧ ds.all Char.isDigit then some (value ds) else none

/-- An optional sign and some digits. -/
def ofText (s : List Char) : Option ℤ :=
  (natOfText (splitSign s).2).map (Sign.apply (splitSign s).1)

/-- A numeral: an optional sign and some digits. -/
structure Numeral where
  sign : Option Sign
  digits : List Char
  isDigit : ∀ c ∈ digits, c.isDigit = true
  ne_nil : digits ≠ []

namespace Numeral

variable (n : Numeral)

def toText : List Char :=
  match n.sign with
  | some .minus => '-' :: n.digits
  | some .plus => '+' :: n.digits
  | none => n.digits

def val : ℤ := Sign.apply n.sign (value n.digits)

end Numeral

theorem value_append (ds : List Char) (c : Char) :
    value (ds ++ [c]) = 10 * value ds + (c.toNat - '0'.toNat) := by
  unfold value
  rw [Nat.ofDigitChars_append, Nat.ofDigitChars_cons, Nat.ofDigitChars_nil]

@[simp] theorem value_digits (n : ℕ) : value (digits n) = n := Nat.ofDigitChars_ten_toDigits

theorem isDigit_digits (n : ℕ) : ∀ c ∈ digits n, c.isDigit = true :=
  fun _ hc => Nat.isDigit_of_mem_toDigits (by omega) (by omega) hc

theorem digits_ne_nil (n : ℕ) : digits n ≠ [] := Nat.toDigits_ne_nil

variable {c : Char}

theorem toNat_digit (hc : c.isDigit = true) :
    c.toNat - '0'.toNat < 10 ∧ (c.toNat - '0'.toNat).digitChar = c := by
  have hle : 48 ≤ c.toNat ∧ c.toNat ≤ 57 := by
    simpa [Char.isDigit, UInt32.le_iff_toNat_le] using hc
  have hdigit : ∀ n < 58, 48 ≤ n → (n - 48).digitChar = Char.ofNat n := by decide
  refine ⟨by show c.toNat - 48 < 10; omega, ?_⟩
  have hchar := hdigit c.toNat (by omega) hle.1
  rwa [Char.ofNat_toNat] at hchar

variable {ds : List Char}

theorem digits_value (hd : ∀ c ∈ ds, c.isDigit = true) (hne : ds ≠ [])
    (hhead : ds.head? ≠ some '0') : digits (value ds) = ds := by
  induction ds using List.reverseRecOn with
  | nil => exact absurd rfl hne
  | append_singleton ds c ih =>
    have hc := toNat_digit (hd c (by simp))
    rw [value_append]
    by_cases hds : ds = []
    · subst hds
      have hvalue : value [] = 0 := rfl
      rw [hvalue, digits, mul_zero, zero_add, Nat.toDigits_of_lt_base hc.1, hc.2]
      rfl
    · have hhead' : ds.head? ≠ some '0' := by
        cases ds with
        | nil => exact absurd rfl hds
        | cons d ds => simpa using hhead
      have hprefix := ih (fun c hc => hd c (by simp [hc])) hds hhead'
      have hpos : 0 < value ds := by
        by_contra hzero
        have hvalue : value ds = 0 := by omega
        rw [hvalue] at hprefix
        have hzero' : digits 0 = ['0'] := rfl
        rw [← hprefix, hzero'] at hhead'
        exact hhead' rfl
      have happend := Nat.toDigits_append_toDigits (b := 10) (by omega) hpos hc.1
      unfold digits at hprefix ⊢
      rw [← happend, hprefix, Nat.toDigits_of_lt_base hc.1, hc.2]

theorem value_dropWhile (ds : List Char) : value (ds.dropWhile (· = '0')) = value ds := by
  induction ds with
  | nil => rfl
  | cons d ds ih =>
    by_cases hd : d = '0'
    · subst hd
      have hzero : value ('0' :: ds) = value ds := by
        rfl
      simpa [hzero] using ih
    · simp [hd]

/-- **Writing the value of some digits drops their leading zeros.** -/
theorem digits_value_eq_strip (hd : ∀ c ∈ ds, c.isDigit = true) : digits (value ds) = strip ds := by
  rw [← value_dropWhile]
  unfold strip
  by_cases hrest : ds.dropWhile (· = '0') = []
  · simp only [hrest, if_true]
    rfl
  · simp only [hrest, if_false]
    refine digits_value (fun c hc => hd c ((dropWhile_sublist _).mem hc)) hrest ?_
    intro hhead
    have hnot := head?_dropWhile_not (p := fun c => decide (c = '0')) ds
    rw [hhead] at hnot
    simp at hnot

/-! ## Signs -/

theorem splitSign_of_digits (hd : ∀ c ∈ ds, c.isDigit = true) : splitSign ds = (none, ds) := by
  unfold splitSign
  split
  · exact absurd (hd '-' mem_cons_self) (by decide)
  · exact absurd (hd '+' mem_cons_self) (by decide)
  · rfl

theorem Numeral.splitSign_toText (n : Numeral) : splitSign n.toText = (n.sign, n.digits) := by
  unfold Numeral.toText
  split
  · rename_i h
    rw [h]
    rfl
  · rename_i h
    rw [h]
    rfl
  · rename_i h
    rw [h, splitSign_of_digits n.isDigit]

theorem natOfText_digits (n : ℕ) : natOfText (digits n) = some n := by
  unfold natOfText
  rw [if_pos ⟨digits_ne_nil n, all_eq_true.2 (isDigit_digits n)⟩, value_digits]

/-- The numeral that is written for an integer. -/
def Numeral.ofInt (z : ℤ) : Numeral where
  sign := if z < 0 then some .minus else none
  digits := Decimal.digits z.natAbs
  isDigit := isDigit_digits _
  ne_nil := digits_ne_nil _

theorem Numeral.toText_ofInt (z : ℤ) : (Numeral.ofInt z).toText = text z := by
  unfold Numeral.toText Numeral.ofInt text
  split_ifs <;> rfl

theorem Numeral.val_ofInt (z : ℤ) : (Numeral.ofInt z).val = z := by
  unfold Numeral.val Numeral.ofInt Sign.apply
  rw [value_digits]
  by_cases hz : z < 0
  · rw [if_pos hz, if_pos rfl]
    omega
  · rw [if_neg hz, if_neg (by simp)]
    omega

/-- **The text of an integer is read back.** -/
theorem ofText_text (z : ℤ) : ofText (text z) = some z := by
  have hval := Numeral.val_ofInt z
  rw [← Numeral.toText_ofInt, ofText, Numeral.splitSign_toText]
  unfold Numeral.val Numeral.ofInt at *
  rw [natOfText_digits]
  rw [value_digits] at hval
  rw [map_some, hval]

theorem text_injective : Function.Injective text := by
  intro x y h
  have hread := congrArg ofText h
  rw [ofText_text, ofText_text] at hread
  exact some.inj hread

/-- The text of an integer with zeros behind the sign, up to the width. -/
def pad (w : ℕ) (z : ℤ) : List Char :=
  let sign := if z < 0 then ['-'] else []
  let ds := digits z.natAbs
  sign ++ List.replicate (w - sign.length - ds.length) '0' ++ ds

theorem value_replicate_append (k : ℕ) (ds : List Char) :
    value (replicate k '0' ++ ds) = value ds := by
  unfold value
  rw [Nat.ofDigitChars_append, Nat.ofDigitChars_replicate_zero, mul_zero]

theorem isDigit_replicate_append (k n : ℕ) :
    ∀ c ∈ replicate k '0' ++ digits n, c.isDigit = true := by
  intro c hc
  rcases mem_append.1 hc with hc | hc
  · obtain rfl := eq_of_mem_replicate hc
    decide
  · exact isDigit_digits n c hc

theorem natOfText_replicate_append (k n : ℕ) :
    natOfText (replicate k '0' ++ digits n) = some n := by
  have hne : replicate k '0' ++ digits n ≠ [] :=
    append_ne_nil_of_right_ne_nil _ (digits_ne_nil n)
  unfold natOfText
  rw [if_pos ⟨hne, all_eq_true.2 (isDigit_replicate_append k n)⟩, value_replicate_append,
    value_digits]

variable {z : ℤ}

theorem pad_of_nonneg (w : ℕ) (hz : 0 ≤ z) :
    pad w z = replicate (w - (digits z.natAbs).length) '0' ++ digits z.natAbs := by
  simp [pad, not_lt.2 hz]

theorem pad_of_neg (w : ℕ) (hz : z < 0) : pad w z =
    '-' :: (replicate (w - 1 - (digits z.natAbs).length) '0' ++ digits z.natAbs) := by
  simp [pad, hz]

theorem isDigit_pad (w : ℕ) (hz : 0 ≤ z) : ∀ c ∈ pad w z, c.isDigit = true := by
  rw [pad_of_nonneg w hz]
  exact isDigit_replicate_append _ _

theorem isDigit_or_minus_of_mem_pad {w : ℕ} (hc : c ∈ pad w z) : c.isDigit = true ∨ c = '-' := by
  by_cases hz : z < 0
  · rw [pad_of_neg w hz] at hc
    rcases mem_cons.1 hc with rfl | hc
    · exact .inr rfl
    · exact .inl (isDigit_replicate_append _ _ c hc)
  · exact .inl (isDigit_pad w (not_lt.1 hz) c hc)

/-- **A padded text is read back.** -/
theorem ofText_pad (w : ℕ) (z : ℤ) : ofText (pad w z) = some z := by
  unfold ofText
  by_cases hz : z < 0
  · rw [pad_of_neg w hz]
    simp only [splitSign, natOfText_replicate_append, map_some, Sign.apply, if_true]
    congr 1
    omega
  · have hdigits := isDigit_pad w (not_lt.1 hz)
    rw [splitSign_of_digits hdigits, pad_of_nonneg w (not_lt.1 hz)]
    simp only [natOfText_replicate_append, map_some, Sign.apply]
    rw [if_neg (by simp)]
    congr 1
    omega

/-- Some digits without the zeros at their end. -/
def stripEnd (ds : List Char) : List Char := ds.rdropWhile (· = '0')

/-- The number that digits before and after a point denote. -/
def fixed (int frac : List Char) : ℚ := value (int ++ frac) / 10 ^ frac.length

theorem value_strip_append (int frac : List Char) :
    value (strip int ++ frac) = value (int ++ frac) := by
  have hstrip : value (strip int) = value int := by
    rw [← value_dropWhile int]
    unfold strip
    by_cases h : int.dropWhile (· = '0') = []
    · simp only [h, if_true]
      rfl
    · simp only [h, if_false]
  unfold value at hstrip ⊢
  rw [Nat.ofDigitChars_append, Nat.ofDigitChars_append, hstrip]

theorem fixed_strip (int frac : List Char) : fixed (strip int) (stripEnd frac) = fixed int frac := by
  have hend : fixed int (stripEnd frac) = fixed int frac := by
    induction frac using List.reverseRecOn with
    | nil => rfl
    | append_singleton frac c ih =>
      unfold stripEnd at ih ⊢
      by_cases hc : c = '0'
      · rw [rdropWhile_concat_pos _ _ _ (by simpa using hc), ih, hc, fixed, fixed,
          ← append_assoc, value_append, length_append, length_singleton, pow_succ]
        push_cast
        rw [mul_comm (10 : ℚ), add_zero, mul_div_mul_right _ _ (by norm_num)]
      · rw [rdropWhile_concat_neg _ _ _ (by simpa using hc)]
  rw [← hend, fixed, fixed, value_strip_append]

theorem fixed_nonneg (int frac : List Char) : 0 ≤ fixed int frac := by unfold fixed; positivity

/-- Digits before a point without leading zeros, and after it without zeros at the end. -/
structure Reduced (int frac : List Char) : Prop where
  isDigit : ∀ c ∈ int ++ frac, c.isDigit = true
  strip : strip int = int
  stripEnd : stripEnd frac = frac

section
variable {int frac int' frac' : List Char}

theorem Reduced.last_ne (h : Reduced int (frac ++ [c])) : (c.toNat - '0'.toNat) % 10 ≠ 0 := by
  have hc := toNat_digit (h.isDigit c (by simp))
  intro hzero
  have hend := h.stripEnd
  obtain rfl : c = '0' := by
    rw [← hc.2, show c.toNat - '0'.toNat = 0 by omega]
    rfl
  rw [Decimal.stripEnd, rdropWhile_concat_pos _ _ _ (by decide)] at hend
  have := ( rdropWhile_prefix (fun c => decide (c = '0')) frac).length_le
  rw [hend] at this
  simp at this

/-- The longer fraction would end with a zero. -/
theorem Reduced.length_le (h' : Reduced int' frac')
    (heq : fixed int frac = fixed int' frac') : frac'.length ≤ frac.length := by
  by_contra hlt
  obtain ⟨k, hk⟩ := Nat.exists_eq_add_of_lt (not_le.1 hlt)
  obtain ⟨g, c, rfl⟩ := eq_nil_or_concat frac' |>.resolve_left (by rintro rfl; simp at hk)
  rw [concat_eq_append] at *
  have hcross : value (int ++ frac) * 10 ^ (k + 1) = value (int' ++ (g ++ [c])) := by
    unfold fixed at heq
    rw [hk, add_assoc, pow_add, div_eq_div_iff (by positivity) (by positivity), mul_comm
      ((10 : ℚ) ^ _), ← mul_assoc, mul_right_cancel_iff_of_pos (by positivity)] at heq
    exact_mod_cast heq
  rw [← append_assoc, value_append, pow_succ, ← mul_assoc] at hcross
  exact h'.last_ne (by omega)

/-- **Reduced digits are determined by their number.** -/
theorem fixed_inj (h : Reduced int frac) (h' : Reduced int' frac') :
    fixed int frac = fixed int' frac' ↔ int = int' ∧ frac = frac' := by
  refine ⟨fun heq => ?_, by rintro ⟨rfl, rfl⟩; rfl⟩
  have hlen := le_antisymm (h.length_le heq.symm) (h'.length_le heq)
  have hvalue : value (int ++ frac) = value (int' ++ frac') := by
    unfold fixed at heq
    rw [hlen, div_left_inj' (by positivity)] at heq
    exact_mod_cast heq
  have hd := h.isDigit
  have hd' := h'.isDigit
  have hint := h.strip
  have hint' := h'.strip
  clear heq h h'
  induction frac using List.reverseRecOn generalizing frac' with
  | nil =>
    obtain rfl := length_eq_zero_iff.1 hlen.symm
    rw [append_nil] at hd hd' hvalue
    rw [append_nil] at hvalue
    exact ⟨by rw [← hint, ← hint', ← digits_value_eq_strip hd, ← digits_value_eq_strip hd', hvalue],
      rfl⟩
  | append_singleton g c ih =>
    obtain ⟨g', c', rfl⟩ := eq_nil_or_concat frac' |>.resolve_left (by rintro rfl; simp at hlen)
    rw [concat_eq_append] at *
    rw [← append_assoc] at hvalue hd
    rw [← append_assoc, value_append, value_append] at hvalue
    rw [← append_assoc] at hd'
    have hc := toNat_digit (hd c (by simp))
    have hc' := toNat_digit (hd' c' (by simp))
    have hsame := ih (by simpa using hlen) (by omega) (fun x hx => hd x (mem_append_left _ hx))
      fun x hx => hd' x (mem_append_left _ hx)
    rw [← hc.2, ← hc'.2, hsame.1, hsame.2, show c.toNat - '0'.toNat = c'.toNat - '0'.toNat by omega]
    exact ⟨rfl, rfl⟩

end

end Decimal
