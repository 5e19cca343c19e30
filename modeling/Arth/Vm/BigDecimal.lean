import Arth.Vm.BigInt

/-!
# Big decimals

* `validDecimal`, `normalizeDecimal` — the check of `bigdecimal_new` and the text it stores.
* `Reads` — the sign and the digits before and after the point of an accepted text.
* `normalizeDecimal_eq` — the stored text is the `form` of the stripped digits.
* `normalForm` — stored texts and numbers correspond.
-/

namespace Arth.BigDecimal

open Decimal BigInt List

/-- The loop over the characters behind the sign. -/
def validLoop : Text → Bool → Bool → Bool
  | [], hasDigit, _ => hasDigit
  | c :: cs, hasDigit, hasDot =>
    if c.isDigit then validLoop cs true hasDot
    else if c = '.' ∧ hasDot = false then validLoop cs hasDigit true
    else false

/-- The texts for which `bigdecimal_new` does not return -1. -/
def validDecimal (s : Text) : Bool :=
  let s := Json.trim s
  !s.isEmpty && validLoop (splitSign s).2 false false

def normalizeDecimal (s : Text) : Text :=
  let (sign, rest) := splitSign (Json.trim s)
  let sign := if sign = some .minus then ['-'] else []
  let rest := rest.dropWhile (· = '0')
  let rest := if rest = [] ∨ rest.head? = some '.' then '0' :: rest else rest
  let result :=
    if '.' ∈ rest then
      let trimmed := (rest.rdropWhile (· = '0')).rdropWhile (· = '.')
      if trimmed = [] then ['0'] else trimmed
    else rest
  if result = ['0'] ∨ result = ['-', '0'] then ['0'] else sign ++ result

/-- The rational number that a text denotes. -/
def denotes (s : Text) : ℚ :=
  let (sign, rest) := splitSign (Json.trim s)
  let r := fixed (rest.takeWhile (· ≠ '.')) (rest.dropWhile (· ≠ '.')).tail
  if sign = some .minus then -r else r

/-- The text is a sign and digits, around a point unless `frac` is empty. -/
structure Reads (s : Text) (sign : Option Sign) (int frac : Text) : Prop where
  isDigit : ∀ c ∈ int ++ frac, c.isDigit = true
  split : splitSign (Json.trim s) = (sign, int) ∧ frac = [] ∨
    splitSign (Json.trim s) = (sign, int ++ '.' :: frac)

variable {s int frac i f : Text} {sign : Option Sign}

theorem ne_point {c : Char} (hc : c.isDigit = true) : c ≠ '.' := by
  rintro rfl
  cases hc

theorem validLoop_dot (s : Text) (b : Bool) :
    validLoop s b true = true ↔ (∀ c ∈ s, c.isDigit = true) ∧ (b = true ∨ s ≠ []) := by
  induction s generalizing b with
  | nil => simp [validLoop]
  | cons c s ih => by_cases hc : c.isDigit <;> simp [validLoop, hc, ih]

theorem validLoop_iff (s : Text) (b : Bool) :
    validLoop s b false = true ↔ ∃ int frac, (∀ c ∈ int ++ frac, c.isDigit = true) ∧
      (s = int ∧ frac = [] ∨ s = int ++ '.' :: frac) ∧ (b = true ∨ int ++ frac ≠ []) := by
  induction s generalizing b with
  | nil => simp [validLoop]
  | cons c s ih =>
    unfold validLoop
    by_cases hc : c.isDigit
    · rw [if_pos hc, ih]
      constructor
      · rintro ⟨int, frac, hd, hs, -⟩
        exact ⟨c :: int, frac, by simpa [hc] using hd, by simpa using hs, .inr (by simp)⟩
      · rintro ⟨int, frac, hd, hs, -⟩
        cases int with
        | nil =>
          rcases hs with ⟨h, -⟩ | h
          · cases h
          · cases h
            cases hc
        | cons d int =>
          obtain rfl : c = d := by rcases hs with ⟨h, -⟩ | h <;> exact (cons.inj h).1
          exact ⟨int, frac, fun x hx => hd x (mem_cons_of_mem _ hx), by simpa using hs, .inl rfl⟩
    rw [if_neg hc]
    by_cases hdot : c = '.'
    · subst hdot
      rw [if_pos ⟨rfl, rfl⟩, validLoop_dot]
      constructor
      · rintro ⟨hd, hb⟩
        exact ⟨[], s, hd, .inr rfl, hb⟩
      · rintro ⟨int, frac, hd, hs, hb⟩
        cases int with
        | nil =>
          obtain rfl : s = frac := by simpa using hs
          exact ⟨hd, hb⟩
        | cons d int =>
          obtain rfl : '.' = d := by rcases hs with ⟨h, -⟩ | h <;> exact (cons.inj h).1
          cases hd '.' (by simp)
    · rw [if_neg (by simp [hdot])]
      refine iff_of_false nofun ?_
      rintro ⟨int, frac, hd, hs, -⟩
      cases int with
      | nil => rcases hs with ⟨h, -⟩ | h <;> simp_all
      | cons d int =>
        obtain rfl : c = d := by rcases hs with ⟨h, -⟩ | h <;> exact (cons.inj h).1
        exact hc (hd c (by simp))

theorem validDecimal_iff :
    validDecimal s = true ↔ ∃ sign int frac, Reads s sign int frac ∧ int ++ frac ≠ [] := by
  have hempty : validLoop (splitSign (Json.trim s)).2 false false = true →
      (Json.trim s).isEmpty = false := by
    cases Json.trim s with
    | nil => nofun
    | cons c s => exact fun _ => rfl
  unfold validDecimal
  rw [Bool.and_eq_true, Bool.not_eq_true', and_iff_right_of_imp hempty, validLoop_iff]
  constructor
  · rintro ⟨int, frac, hd, hs, hne⟩
    refine ⟨(splitSign (Json.trim s)).1, int, frac, ⟨hd, ?_⟩, hne.resolve_left nofun⟩
    exact hs.imp (fun h => ⟨Prod.ext rfl h.1, h.2⟩) (Prod.ext rfl)
  · rintro ⟨sign, int, frac, h, hne⟩
    refine ⟨int, frac, h.isDigit, ?_, .inr hne⟩
    exact h.split.imp (fun h => ⟨congrArg Prod.snd h.1, h.2⟩) (congrArg Prod.snd)

/-- The digits around a point; there is no point without digits after it. -/
def plain (i f : Text) : Text := if f = [] then i else i ++ '.' :: f

/-- The text of a number; 0 has no sign. -/
def form (neg : Prop) [Decidable neg] (i f : Text) : Text :=
  if plain i f = ['0'] then ['0'] else (if neg then ['-'] else []) ++ plain i f

theorem mem_plain (h : ∀ c ∈ i ++ f, c.isDigit = true) :
    ∀ c ∈ plain i f, c.isDigit = true ∨ c = '.' := by
  intro c hc
  unfold plain at hc
  split at hc
  · exact .inl (h c (mem_append_left _ hc))
  · rcases mem_append.1 hc with hc | hc
    · exact .inl (h c (mem_append_left _ hc))
    · rcases mem_cons.1 hc with rfl | hc
      · exact .inr rfl
      · exact .inl (h c (mem_append_right _ hc))

theorem dropWhile_point (p : Char → Bool) (hp : p '.' = false) (a b : Text) :
    (a ++ '.' :: b).dropWhile p = a.dropWhile p ++ '.' :: b := by
  induction a with
  | nil => simp [hp]
  | cons c a ih => by_cases hc : p c <;> simp [hc, ih]

theorem rdropWhile_point (p : Char → Bool) (hp : p '.' = false) (a b : Text) :
    (a ++ '.' :: b).rdropWhile p = a ++ '.' :: b.rdropWhile p := by
  simp [List.rdropWhile, dropWhile_point p hp]

theorem reduced (h : ∀ c ∈ int ++ frac, c.isDigit = true) :
    Reduced (strip int) (stripEnd frac) where
  isDigit := by
    intro c hc
    rcases mem_append.1 hc with hc | hc
    · rw [← digits_value_eq_strip fun c hc => h c (mem_append_left _ hc)] at hc
      exact isDigit_digits _ c hc
    · exact h c (mem_append_right _ (( rdropWhile_prefix _ _).subset hc))
  strip := by
    rw [← digits_value_eq_strip fun c hc => h c (mem_append_left _ hc),
      ← digits_value_eq_strip (isDigit_digits _), value_digits]
  stripEnd := rdropWhile_idempotent _ _

theorem strip_ne_nil (int : Text) : strip int ≠ [] := by
  unfold strip
  simp only
  split
  · nofun
  · assumption

/-- No digits end with a point. -/
theorem rdropWhile_digits (h : ∀ c ∈ i, c.isDigit = true) : i.rdropWhile (· = '.') = i := by
  rw [rdropWhile_eq_self_iff]
  intro hne
  simpa using ne_point (h _ (getLast_mem hne))

theorem trimmed_eq (h : ∀ c ∈ i ++ f, c.isDigit = true) :
    (i ++ '.' :: f).rdropWhile (· = '.') = plain i f := by
  unfold plain
  split_ifs with hf
  · subst f
    rw [rdropWhile_concat_pos _ _ _ rfl]
    exact rdropWhile_digits fun c hc => h c (mem_append_left _ hc)
  · rw [rdropWhile_eq_self_iff]
    intro _
    rw [getLast_append_of_ne_nil _ (by simp), getLast_cons hf]
    simpa using ne_point (h _ (mem_append_right _ (getLast_mem hf)))

theorem Reads.head_ne (h : ∀ c ∈ int, c.isDigit = true) : int.head? ≠ some '.' :=
  fun hhead => ne_point (h '.' (mem_of_mem_head? hhead)) rfl

theorem normalizeDecimal_eq (h : Reads s sign int frac) :
    normalizeDecimal s = form (sign = some .minus) (strip int) (stripEnd frac) := by
  have hred := reduced h.isDigit
  have hminus : plain (strip int) (stripEnd frac) ≠ ['-', '0'] := fun heq =>
    absurd (mem_plain hred.isDigit '-' (by simp [heq])) (by decide)
  have hdrop : ∀ c ∈ int.dropWhile (· = '0'), c.isDigit = true := fun c hc =>
    h.isDigit c (mem_append_left _ ((dropWhile_sublist _).subset hc))
  unfold normalizeDecimal form
  rcases h.split with ⟨hsplit, rfl⟩ | hsplit <;> simp only [hsplit]
  · -- without a point only the leading zeros go
    have hstrip : (if int.dropWhile (· = '0') = [] ∨
        (int.dropWhile (· = '0')).head? = some '.' then '0' :: int.dropWhile (· = '0')
        else int.dropWhile (· = '0')) = strip int := by
      unfold strip
      by_cases hnil : int.dropWhile (· = '0') = []
      · simp [hnil]
      · simp only [hnil, Reads.head_ne hdrop, or_self, if_false]
    rw [hstrip, if_neg fun hmem => ne_point (hred.isDigit _ (mem_append_left _ hmem)) rfl]
    have hp : plain (strip int) (stripEnd []) = strip int := rfl
    rw [hp] at hminus ⊢
    simp [hminus]
  · have hstrip : (if int.dropWhile (· = '0') ++ '.' :: frac = [] ∨
        (int.dropWhile (· = '0') ++ '.' :: frac).head? = some '.' then
          '0' :: (int.dropWhile (· = '0') ++ '.' :: frac)
        else int.dropWhile (· = '0') ++ '.' :: frac) = strip int ++ '.' :: frac := by
      unfold strip
      cases hnil : int.dropWhile (· = '0') with
      | nil => simp
      | cons c cs =>
        have := ne_point (hdrop c (by simp [hnil]))
        simp [this]
    rw [dropWhile_point _ (by decide), hstrip,
      if_pos (show '.' ∈ strip int ++ '.' :: frac by simp), rdropWhile_point _ (by decide)]
    have htrim := trimmed_eq hred.isDigit
    unfold stripEnd at htrim hminus ⊢
    rw [htrim]
    have hne : plain (strip int) (frac.rdropWhile (· = '0')) ≠ [] := by
      unfold plain
      split <;> simp [strip_ne_nil]
    simp only [hne, hminus, if_false, or_false]

theorem denotes_eq (h : Reads s sign int frac) :
    denotes s = if sign = some .minus then -fixed int frac else fixed int frac := by
  have hint : ∀ c ∈ int, (decide (c ≠ '.')) = true := fun c hc => by
    simpa using ne_point (h.isDigit c (mem_append_left _ hc))
  unfold denotes
  rcases h.split with ⟨hsplit, rfl⟩ | hsplit <;> simp only [hsplit]
  · rw [takeWhile_eq_self_iff.2 hint, dropWhile_eq_nil_iff.2 hint]
    rfl
  · rw [takeWhile_append_of_pos hint, dropWhile_append_of_pos hint]
    simp

/-! ## Normal forms -/

theorem plain_eq_zero : plain i f = ['0'] ↔ i = ['0'] ∧ f = [] := by
  unfold plain
  split
  · simp [*]
  · refine iff_of_false (fun h => ?_) (by simp [*])
    have := congrArg length h
    have hpos := length_pos_iff.2 ‹f ≠ []›
    simp only [length_append, length_cons, length_nil] at this
    omega

theorem splitSign_plain (h : ∀ c ∈ i ++ f, c.isDigit = true) :
    splitSign (plain i f) = (none, plain i f) := by
  have hmem := mem_plain h
  unfold splitSign
  split
  · rename_i heq
    exact absurd (hmem '-' (by simp [heq])) (by decide)
  · rename_i heq
    exact absurd (hmem '+' (by simp [heq])) (by decide)
  · rfl

/-- A stored text reads as its digits. -/
theorem reads_form (h : Reduced i f) (neg : Prop) [Decidable neg] :
    Reads (form neg i f) (if neg ∧ plain i f ≠ ['0'] then some .minus else none) i f := by
  have hmem := mem_plain h.isDigit
  have htrim : Json.trim (form neg i f) = form neg i f := by
    refine trim_eq fun c hc => ?_
    unfold form at hc
    split at hc
    · rw [mem_singleton.1 hc]
      rfl
    rcases mem_append.1 hc with hc | hc
    · split at hc
      · rw [mem_singleton.1 hc]
        rfl
      · cases hc
    · rcases hmem c hc with hc | rfl
      · exact isWhitespace_digit hc
      · rfl
  have hsplit : splitSign (form neg i f) =
      (if neg ∧ plain i f ≠ ['0'] then some .minus else none, plain i f) := by
    unfold form
    by_cases hzero : plain i f = ['0']
    · simp [hzero, splitSign]
    · by_cases hneg : neg
      · simp [hzero, hneg, splitSign]
      · simpa [hzero, hneg] using splitSign_plain h.isDigit
  refine ⟨h.isDigit, ?_⟩
  rw [htrim, hsplit]
  unfold plain
  split
  · exact .inl ⟨rfl, ‹_›⟩
  · exact .inr rfl

theorem fixed_zero : fixed ['0'] [] = 0 := by simp [fixed, value, Nat.ofDigitChars_cons]

theorem denotes_form (h : Reduced i f) (neg : Prop) [Decidable neg] :
    denotes (form neg i f) = if neg then -fixed i f else fixed i f := by
  rw [denotes_eq (reads_form h neg)]
  by_cases hzero : plain i f = ['0']
  · obtain ⟨rfl, rfl⟩ := plain_eq_zero.1 hzero
    simp [fixed_zero]
  · simp [hzero]

theorem denotes_normalizeDecimal (h : Reads s sign int frac) :
    denotes (normalizeDecimal s) = denotes s := by
  rw [normalizeDecimal_eq h, denotes_form (reduced h.isDigit), denotes_eq h, fixed_strip]

theorem normalizeDecimal_form (h : Reduced i f) (neg : Prop) [Decidable neg] :
    normalizeDecimal (form neg i f) = form neg i f := by
  rw [normalizeDecimal_eq (reads_form h neg), h.strip, h.stripEnd]
  unfold form
  by_cases hzero : plain i f = ['0'] <;> by_cases hneg : neg <;> simp [hzero, hneg]

/-- Equal numbers have equal digits, and equal signs unless they are 0. -/
theorem form_eq_of_denotes {i' f' : Text} (h : Reduced i f) (h' : Reduced i' f') (neg neg' : Prop)
    [Decidable neg] [Decidable neg'] (heq : denotes (form neg i f) = denotes (form neg' i' f')) :
    form neg i f = form neg' i' f' := by
  rw [denotes_form h, denotes_form h'] at heq
  have hpos := fixed_nonneg i f
  have hpos' := fixed_nonneg i' f'
  have hfixed : fixed i f = fixed i' f' := by split_ifs at heq <;> linarith
  obtain ⟨rfl, rfl⟩ := (fixed_inj h h').1 hfixed
  unfold form
  by_cases hzero : plain i f = ['0']
  · simp only [if_pos hzero]
  have hne : fixed i f ≠ 0 := by
    intro hfix
    have hred : Reduced ['0'] [] := ⟨by simp, rfl, rfl⟩
    exact hzero (plain_eq_zero.2 ((fixed_inj h hred).1 (hfix.trans fixed_zero.symm)))
  have hsign : neg ↔ neg' := by
    by_cases hn : neg <;> by_cases hn' : neg' <;> simp only [hn, hn', if_true, if_false] at heq ⊢ <;>
      exact absurd (by linarith) hne
  simp only [hsign]

/-- **Normal forms correspond to numbers**: the stored text denotes the same number, is accepted
and stored as it is, and is the same for all texts of the number. -/
theorem normalForm (s : Text) (h : validDecimal s = true) :
    denotes (normalizeDecimal s) = denotes s ∧ validDecimal (normalizeDecimal s) = true ∧
      normalizeDecimal (normalizeDecimal s) = normalizeDecimal s ∧ ∀ t, validDecimal t = true →
        (denotes s = denotes t ↔ normalizeDecimal s = normalizeDecimal t) := by
  obtain ⟨sign, int, frac, hs, -⟩ := validDecimal_iff.1 h
  have hred := reduced hs.isDigit
  have heq := normalizeDecimal_eq hs
  refine ⟨denotes_normalizeDecimal hs, ?_, ?_, fun t ht => ?_⟩
  · rw [heq]
    exact validDecimal_iff.2 ⟨_, _, _, reads_form hred _, by simp [strip_ne_nil]⟩
  · rw [heq, normalizeDecimal_form hred]
  · obtain ⟨sign', int', frac', ht, -⟩ := validDecimal_iff.1 ht
    rw [← denotes_normalizeDecimal hs, ← denotes_normalizeDecimal ht, heq, normalizeDecimal_eq ht]
    exact ⟨form_eq_of_denotes hred (reduced ht.isDigit) _ _, congrArg denotes⟩

theorem normalForm_zero : normalizeDecimal " -00.0".toList = ['0'] ∧
    denotes (normalizeDecimal " -00.0".toList) = denotes " -00.0".toList :=
  ⟨by decide, (normalForm _ (by decide)).1⟩

end Arth.BigDecimal
