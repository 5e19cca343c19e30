import Mathlib

/-!
# Codes whose words end by themselves

* `PrefixFree` — no word of a code continues another one.
* `PrefixFree.split`, `PrefixFree.flatMap` — such a code is read off the front of a text, one
  word or a list of words at a time.
* `frame_prefixFree` — a text with its length in front is such a code, once the text does not
  start with a digit.
-/

namespace PrefixCode

open List

variable {α : Type*} {P : α → Prop} {enc : α → List Char} {x y cs : List Char}

/-- Among the inputs in `P`, no code word continues another one. -/
def PrefixFree (P : α → Prop) (enc : α → List Char) : Prop :=
  ∀ a b, P a → P b → enc a <+: enc b → enc a = enc b

/-- **One word off the front.** -/
theorem PrefixFree.split (h : PrefixFree P enc) {a b : α} (ha : P a) (hb : P b)
    (heq : enc a ++ x = enc b ++ y) : enc a = enc b ∧ x = y := by
  have hab : enc a <+: enc b ++ y := ⟨x, heq⟩
  have hbb : enc b <+: enc b ++ y := prefix_append _ _
  have hword : enc a = enc b := by
    rcases prefix_or_prefix_of_prefix hab hbb with hp | hp
    · exact h a b ha hb hp
    · exact (h b a hb ha hp).symm
  rw [hword] at heq
  exact ⟨hword, append_cancel_left heq⟩

/-- No word of the code can be read off the front of `x`. -/
def Ends (P : α → Prop) (enc : α → List Char) (x : List Char) : Prop :=
  ∀ a, P a → ¬ enc a <+: x

/-- **A list of words off the front**, up to a text at which the list ends. -/
theorem PrefixFree.flatMap (h : PrefixFree P enc) (hx : Ends P enc x)
    (hy : Ends P enc y) : ∀ {as bs : List α}, (∀ a ∈ as, P a) → (∀ b ∈ bs, P b) →
      as.flatMap enc ++ x = bs.flatMap enc ++ y → as.map enc = bs.map enc ∧ x = y
  | [], [], _, _, heq => ⟨rfl, by simpa using heq⟩
  | [], b :: bs, _, hb, heq => by
    refine absurd ⟨bs.flatMap enc ++ y, ?_⟩ (hx b (hb b (by simp)))
    simpa using heq.symm
  | a :: as, [], ha, _, heq => by
    refine absurd ⟨as.flatMap enc ++ x, ?_⟩ (hy a (ha a (by simp)))
    simpa using heq
  | a :: as, b :: bs, ha, hb, heq => by
    simp only [flatMap_cons, append_assoc] at heq
    obtain ⟨hword, hrest⟩ := h.split (ha a (by simp)) (hb b (by simp)) heq
    obtain ⟨hwords, hend⟩ := PrefixFree.flatMap h hx hy
      (fun c hc => ha c (by simp [hc])) (fun c hc => hb c (by simp [hc])) hrest
    exact ⟨by simp [hword, hwords], hend⟩

/-- The text does not go on with a digit. -/
def NoDigit (cs : List Char) : Prop := ∀ c ∈ cs.head?, c.isDigit = false

theorem NoDigit.cons {c : Char} (hc : c.isDigit = false) : NoDigit (c :: cs) := by
  intro d hd
  obtain rfl : c = d := by simpa using hd
  exact hc

theorem NoDigit.append (h : NoDigit cs) (hne : cs ≠ []) (ds : List Char) : NoDigit (cs ++ ds) := by
  cases cs with
  | nil => exact absurd rfl hne
  | cons c cs => exact NoDigit.cons (h c rfl)

theorem span_digits {ds : List Char} (hd : ∀ d ∈ ds, d.isDigit = true) (hc : NoDigit cs) :
    (ds ++ cs).takeWhile Char.isDigit = ds ∧ (ds ++ cs).dropWhile Char.isDigit = cs := by
  induction ds with
  | nil =>
    cases cs with
    | nil => exact ⟨rfl, rfl⟩
    | cons c cs =>
      have hc' : c.isDigit = false := hc c rfl
      simp [hc']
  | cons d ds ih =>
    have hd' : d.isDigit = true := hd d (by simp)
    have := ih fun e he => hd e (by simp [he])
    simp [hd', this]

theorem isDigit_toDigits (n : Nat) : ∀ d ∈ Nat.toDigits 10 n, d.isDigit = true :=
  fun _ hd => Nat.isDigit_of_mem_toDigits (by omega) (by omega) hd

/-- A text behind its length in decimal. -/
def frame (w : List Char) : List Char := Nat.toDigits 10 w.length ++ w

/-- **Framed texts are a prefix-free code.** -/
theorem frame_prefixFree : PrefixFree (fun w => w ≠ [] ∧ NoDigit w) frame := by
  rintro a b ⟨ha, hna⟩ ⟨hb, hnb⟩ ⟨x, heq⟩
  simp only [frame, append_assoc] at heq
  have hl := span_digits (isDigit_toDigits a.length) (hna.append ha x)
  have hr := span_digits (isDigit_toDigits b.length) hnb
  rw [heq] at hl
  have hdigits : Nat.toDigits 10 a.length = Nat.toDigits 10 b.length := hl.1.symm.trans hr.1
  have hrest : a ++ x = b := hl.2.symm.trans hr.2
  have hlen : a.length = b.length := by
    have := congrArg (fun ds => Nat.ofDigitChars 10 ds 0) hdigits
    simpa using this
  have hx : x = [] := by
    have := congrArg length hrest
    rw [length_append] at this
    exact length_eq_zero_iff.1 (by omega)
  subst hx
  rw [append_nil] at hrest
  rw [hrest]

theorem frame_injective : Function.Injective fun w : {w : List Char // w ≠ [] ∧ NoDigit w} =>
    frame w := by
  rintro ⟨a, ha, hna⟩ ⟨b, hb, hnb⟩ (heq : frame a = frame b)
  have hl := span_digits (isDigit_toDigits a.length) hna
  have hr := span_digits (isDigit_toDigits b.length) hnb
  simp only [frame] at heq
  rw [heq] at hl
  exact Subtype.ext (hl.2.symm.trans hr.2)

end PrefixCode
