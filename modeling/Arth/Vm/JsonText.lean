import Mathlib
import Arth.Vm.Json

/-!
# Strings and numerals of JSON texts

* `parseChars_escape` — what is printed for a string is read as the string.
* `scanNumber_append` — the scan of a numeral stops where the numeral ends, when what follows
  cannot be part of one.
-/

namespace Arth.Json

open List

/-! ## Strings -/

theorem unicodeEscape_control : ∀ n < 160, unicodeEscape (hex4 n) = [Char.ofNat n] := by
  decide +kernel

theorem lt_of_isControl {c : Char} (h : isControl c = true) : c.toNat < 160 := by
  unfold isControl at h
  simp only [Bool.or_eq_true, Bool.and_eq_true, decide_eq_true_eq] at h
  omega

theorem parseChars_quote (s acc : Text) : parseChars ('"' :: s) acc = some (acc, s) := by
  rw [parseChars.eq_def]
  exact if_pos rfl

theorem parseChars_escaped {e : Char} (he : e ≠ 'u') (s acc : Text) :
    parseChars ('\\' :: e :: s) acc = parseChars s (acc ++ [unescape e]) := by
  rw [parseChars.eq_def]
  show (if '\\' = '"' then _ else if '\\' = '\\' then if e = 'u' then _ else _ else _) = _
  rw [if_neg (by decide), if_pos rfl, if_neg he]

theorem parseChars_unicode (a b d f : Char) (s acc : Text) :
    parseChars ('\\' :: 'u' :: a :: b :: d :: f :: s) acc =
      parseChars s (acc ++ unicodeEscape [a, b, d, f]) := by
  rfl

theorem parseChars_plain {c : Char} (hquote : c ≠ '"') (hslash : c ≠ '\\') (s acc : Text) :
    parseChars (c :: s) acc = parseChars s (acc ++ [c]) := by
  rw [parseChars.eq_def]
  show (if c = '"' then _ else if c = '\\' then _ else _) = _
  rw [if_neg hquote, if_neg hslash]

theorem parseChars_escapeChar (c : Char) (t acc : Text) :
    parseChars (escapeChar c ++ t) acc = parseChars t (acc ++ [c]) := by
  unfold escapeChar
  split_ifs with hquote hslash hn hr ht hcontrol
  · rw [hquote]
    exact parseChars_escaped (by decide) t acc
  · rw [hslash]
    exact parseChars_escaped (by decide) t acc
  · exact hn ▸ parseChars_escaped (by decide) t acc
  · exact hr ▸ parseChars_escaped (by decide) t acc
  · exact ht ▸ parseChars_escaped (by decide) t acc
  · have hescape := unicodeEscape_control c.toNat (lt_of_isControl hcontrol)
    rw [Char.ofNat_toNat] at hescape
    have hread := parseChars_unicode (hexDigit (c.toNat / 4096)) (hexDigit (c.toNat / 256))
      (hexDigit (c.toNat / 16)) (hexDigit c.toNat) t acc
    rw [← hescape]
    exact hread
  · exact parseChars_plain hquote hslash t acc

theorem parseChars_escape (s r acc : Text) :
    parseChars (s.flatMap escapeChar ++ '"' :: r) acc = some (acc ++ s, r) := by
  induction s generalizing acc with
  | nil =>
    rw [append_nil]
    exact parseChars_quote r acc
  | cons c s ih =>
    rw [flatMap_cons, append_assoc, parseChars_escapeChar, ih, append_assoc]
    rfl

/-! ## Numerals -/

/-- The text does not start with a character of the class. -/
def Free (p : Char → Bool) (t : Text) : Prop := ∀ c ∈ t.head?, p c = false

theorem Free.nil (p : Char → Bool) : Free p [] := fun _ hc => by cases hc

theorem free_cons (p : Char → Bool) (c : Char) (t : Text) : Free p (c :: t) ↔ p c = false := by
  unfold Free
  simp

variable {p : Char → Bool} {t : Text} {ds t : Text}

theorem Free.takeWhile (h : Free p t) : t.takeWhile p = [] := by
  cases t with
  | nil => rfl
  | cons c t => rw [takeWhile_cons_of_neg (by simpa using (free_cons p c t).1 h)]

theorem Free.dropWhile (h : Free p t) : t.dropWhile p = t := by
  cases t with
  | nil => rfl
  | cons c t => rw [dropWhile_cons_of_neg (by simpa using (free_cons p c t).1 h)]

theorem takeWhile_digits (hds : ∀ c ∈ ds, isDigit c = true)
    (ht : Free isDigit t) : (ds ++ t).takeWhile isDigit = ds := by
  rw [takeWhile_append_of_pos hds, ht.takeWhile, append_nil]

theorem dropWhile_digits (hds : ∀ c ∈ ds, isDigit c = true)
    (ht : Free isDigit t) : (ds ++ t).dropWhile isDigit = t := by
  rw [dropWhile_append_of_pos hds, ht.dropWhile]

/-- A character that can be part of a numeral. -/
def inNumeral (c : Char) : Bool :=
  isDigit c || c == '.' || c == 'e' || c == 'E' || c == '+' || c == '-'

theorem Free.of_inNumeral (h : Free inNumeral t)
    (hp : ∀ c, p c = true → inNumeral c = true) : Free p t := by
  intro c hc
  have hfalse := h c hc
  by_contra htrue
  rw [hp c (by simpa using htrue)] at hfalse
  cases hfalse

/-- The parts of the numeral are made of the right characters. -/
structure Numeral.Wf (n : Numeral) : Prop where
  int : ∀ c ∈ n.int, isDigit c = true
  frac : ∀ ds, n.frac = some ds → ∀ c ∈ ds, isDigit c = true
  exp : ∀ e sign ds, n.exp = some (e, sign, ds) → (e = 'e' ∨ e = 'E') ∧
    (∀ c, sign = some c → c = '+' ∨ c = '-') ∧ ∀ c ∈ ds, isDigit c = true

theorem digit_inNumeral (c : Char) (h : isDigit c = true) : inNumeral c = true := by
  unfold inNumeral
  rw [h]
  rfl

section

variable {n : Numeral} {r : Text}

theorem scanExp_append (hn : n.Wf) (hr : Free inNumeral r) :
    scanExp (expText n.exp ++ r) = (n.exp, r) := by
  have hdigits : Free isDigit r := hr.of_inNumeral digit_inNumeral
  cases hexp : n.exp with
  | none =>
    cases r with
    | nil => rfl
    | cons c t =>
      have hc := (free_cons _ _ _).1 hr
      refine if_neg ?_
      rintro (rfl | rfl) <;> cases hc
  | some p =>
    obtain ⟨e, sign, ds⟩ := p
    obtain ⟨he, hsign, hds⟩ := hn.exp e sign ds hexp
    have hscan : scanSign (sign.toList ++ (ds ++ r)) = (sign, ds ++ r) := by
      cases sign with
      | some c => exact if_pos (hsign c rfl)
      | none =>
        cases hds' : ds ++ r with
        | nil => rfl
        | cons c t =>
          refine if_neg ?_
          have hc : isDigit c = true ∨ Free inNumeral (c :: t) := by
            cases ds with
            | nil =>
              rw [← hds']
              exact .inr hr
            | cons d ds =>
              obtain ⟨rfl, -⟩ := cons.inj hds'
              exact .inl (hds d mem_cons_self)
          rw [free_cons] at hc
          rintro (rfl | rfl) <;> exact absurd hc (by decide)
    show scanExp (e :: (sign.toList ++ ds ++ r)) = _
    unfold scanExp
    rw [append_assoc]
    simp only [if_pos he, hscan, takeWhile_digits hds hdigits, dropWhile_digits hds hdigits]

theorem free_exp (hn : n.Wf) (hr : Free inNumeral r) (p : Char → Bool)
    (hp : ∀ c, p c = true → inNumeral c = true ∧ c ≠ 'e' ∧ c ≠ 'E') :
    Free p (expText n.exp ++ r) := by
  cases hexp : n.exp with
  | none => exact hr.of_inNumeral fun c hc => (hp c hc).1
  | some q =>
    obtain ⟨e, sign, ds⟩ := q
    obtain ⟨he, -, -⟩ := hn.exp e sign ds hexp
    refine (free_cons _ _ _).2 ?_
    by_contra hc
    obtain ⟨-, he₁, he₂⟩ := hp e (by simpa using hc)
    rcases he with he | he
    · exact he₁ he
    · exact he₂ he

theorem digit_class (c : Char) (h : isDigit c = true) : inNumeral c = true ∧ c ≠ 'e' ∧ c ≠ 'E' := by
  refine ⟨digit_inNumeral c h, ?_, ?_⟩
  · rintro rfl
    cases h
  · rintro rfl
    cases h

theorem scanFrac_append (hn : n.Wf) (hr : Free inNumeral r) :
    scanFrac (fracText n.frac ++ (expText n.exp ++ r)) = (n.frac, expText n.exp ++ r) := by
  cases hfrac : n.frac with
  | none =>
    have hfree : Free (· == '.') (expText n.exp ++ r) := by
      refine free_exp hn hr _ fun c hc => ?_
      obtain rfl : c = '.' := by simpa using hc
      exact ⟨by decide, by decide, by decide⟩
    cases hrest : expText n.exp ++ r with
    | nil => rfl
    | cons c t =>
      rw [hrest] at hfree
      have hc := (free_cons _ _ _).1 hfree
      exact if_neg (by simpa using hc)
  | some ds =>
    have hfree := free_exp hn hr isDigit digit_class
    have hds := hn.frac ds hfrac
    show (some ((ds ++ _).takeWhile isDigit), (ds ++ _).dropWhile isDigit) = _
    rw [takeWhile_digits hds hfree, dropWhile_digits hds hfree]

theorem free_frac (hn : n.Wf) (hr : Free inNumeral r) (p : Char → Bool)
    (hp : ∀ c, p c = true → inNumeral c = true ∧ c ≠ 'e' ∧ c ≠ 'E') (hpoint : p '.' = false) :
    Free p (fracText n.frac ++ (expText n.exp ++ r)) := by
  cases n.frac with
  | none => exact free_exp hn hr p hp
  | some ds => exact (free_cons _ _ _).2 hpoint

/-- **The scan ends where the numeral does.** -/
theorem scanNumber_append (hn : n.Wf) (hr : Free inNumeral r) :
    scanNumber (n.text ++ r) = (n, r) := by
  have hfree := free_frac hn hr isDigit digit_class (by decide)
  have htake := takeWhile_digits hn.int hfree
  have hdrop := dropWhile_digits hn.int hfree
  have hneg : scanNeg (n.text ++ r) =
      (n.neg, n.int ++ (fracText n.frac ++ (expText n.exp ++ r))) := by
    unfold Numeral.text
    simp only [append_assoc]
    cases n.neg with
    | true => rfl
    | false =>
      have hminus : Free (· == '-') (n.int ++ (fracText n.frac ++ (expText n.exp ++ r))) := by
        cases hint : n.int with
        | nil =>
          refine free_frac hn hr _ (fun c hc => ?_) (by decide)
          obtain rfl : c = '-' := by simpa using hc
          exact ⟨by decide, by decide, by decide⟩
        | cons d ds =>
          refine (free_cons _ _ _).2 ?_
          have hd := hn.int d (by rw [hint]; exact mem_cons_self)
          by_contra hc
          obtain rfl : d = '-' := by simpa using hc
          cases hd
      cases hrest : n.int ++ (fracText n.frac ++ (expText n.exp ++ r)) with
      | nil => rfl
      | cons c t =>
        rw [hrest] at hminus
        have hc := (free_cons _ _ _).1 hminus
        exact if_neg (by simpa using hc)
  unfold scanNumber
  simp only [hneg, htake, hdrop, scanFrac_append hn hr, scanExp_append hn hr]

end

end Arth.Json
