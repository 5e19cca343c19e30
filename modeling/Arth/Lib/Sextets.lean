import Mathlib

/-!
# Bytes as groups of six bits

A byte sequence is read as a sequence of six-bit numbers, high bits first: three bytes make
four numbers, and a rest of one or two bytes is filled up with zero bits.

* `octets_sextets` — the bytes come back from their numbers.
* `length_sextets` — `n` bytes make `⌈4 n / 3⌉` numbers.
* `Alphabet` — 64 letters for the numbers; `idxOf_letter` reads a letter back.
-/

namespace Sextets

open List

/-- The six-bit numbers of a byte sequence. -/
def sextets : List UInt8 → List Nat
  | a :: b :: c :: bs =>
    a.toNat / 4 :: (a.toNat % 4 * 16 + b.toNat / 16) :: (b.toNat % 16 * 4 + c.toNat / 64) ::
      c.toNat % 64 :: sextets bs
  | [a, b] => [a.toNat / 4, a.toNat % 4 * 16 + b.toNat / 16, b.toNat % 16 * 4]
  | [a] => [a.toNat / 4, a.toNat % 4 * 16]
  | [] => []

/-- The bytes of a sequence of six-bit numbers; bits that do not fill a byte are dropped. -/
def octets : List Nat → List UInt8
  | p :: q :: r :: s :: ss =>
    .ofNat (p * 4 + q / 16) :: .ofNat (q % 16 * 16 + r / 4) :: .ofNat (r % 4 * 64 + s) :: octets ss
  | [p, q, r] => [.ofNat (p * 4 + q / 16), .ofNat (q % 16 * 16 + r / 4)]
  | [p, q] => [.ofNat (p * 4 + q / 16)]
  | _ => []

/-- Induction on the bytes in groups of three. -/
@[elab_as_elim]
theorem triples_induction {motive : List UInt8 → Prop} (nil : motive [])
    (single : ∀ a, motive [a]) (pair : ∀ a b, motive [a, b])
    (triple : ∀ a b c bs, motive bs → motive (a :: b :: c :: bs)) : ∀ bs, motive bs
  | a :: b :: c :: bs => triple a b c bs (triples_induction nil single pair triple bs)
  | [a, b] => pair a b
  | [a] => single a
  | [] => nil

theorem ofNat_eq_of_toNat {n : Nat} {b : UInt8} (h : n = b.toNat) : UInt8.ofNat n = b := by
  rw [h, UInt8.ofNat_toNat]

/-- **The bytes come back.** -/
theorem octets_sextets (bs : List UInt8) : octets (sextets bs) = bs := by
  induction bs using triples_induction with
  | triple a b c bs ih =>
    have hb := b.toNat_lt
    have hc := c.toNat_lt
    rw [sextets, octets, ih, ofNat_eq_of_toNat (b := a) (by omega),
      ofNat_eq_of_toNat (b := b) (by omega), ofNat_eq_of_toNat (b := c) (by omega)]
  | pair a b =>
    have hb := b.toNat_lt
    rw [sextets, octets, ofNat_eq_of_toNat (b := a) (by omega),
      ofNat_eq_of_toNat (b := b) (by omega)]
  | single a =>
    rw [sextets, octets, ofNat_eq_of_toNat (b := a) (by omega)]
  | nil => rfl

theorem length_sextets (bs : List UInt8) : (sextets bs).length = (4 * bs.length + 2) / 3 := by
  induction bs using triples_induction with
  | triple a b c bs ih =>
    simp only [sextets, length_cons, ih]
    omega
  | pair | single | nil => simp [sextets]

theorem sextets_lt (bs : List UInt8) : ∀ n ∈ sextets bs, n < 64 := by
  induction bs using triples_induction with
  | triple a b c bs ih =>
    have ha := a.toNat_lt
    have hb := b.toNat_lt
    have hc := c.toNat_lt
    simp only [sextets, forall_mem_cons]
    exact ⟨by omega, by omega, by omega, by omega, ih⟩
  | pair a b =>
    have ha := a.toNat_lt
    have hb := b.toNat_lt
    simp only [sextets, forall_mem_cons]
    exact ⟨by omega, by omega, by omega, by simp⟩
  | single a =>
    have ha := a.toNat_lt
    simp only [sextets, forall_mem_cons]
    exact ⟨by omega, by omega, by simp⟩
  | nil => simp [sextets]

theorem or_eq_add {a b i : Nat} (hb : b < 2 ^ i) : (a <<< i) ||| b = a * 2 ^ i + b := by
  rw [← Nat.shiftLeft_add_eq_or_of_lt hb, Nat.shiftLeft_eq]

/-- The letters of the numbers below 64. -/
structure Alphabet where
  letters : List UInt8
  length_eq : letters.length = 64
  nodup : letters.Nodup

namespace Alphabet

variable (A : Alphabet)

def letter (n : Nat) : UInt8 := A.letters.getD n 0

variable {n : Nat}

theorem letter_eq (h : n < 64) : A.letter n = A.letters.get ⟨n, by rw [A.length_eq]; exact h⟩ := by
  rw [letter, getD_eq_getElem, get_eq_getElem]

theorem letter_mem (h : n < 64) : A.letter n ∈ A.letters := by
  rw [A.letter_eq h]
  exact getElem_mem _

theorem idxOf_letter (h : n < 64) : A.letters.idxOf (A.letter n) = n := by
  rw [A.letter_eq h]
  exact A.nodup.idxOf_getElem n _

theorem idxOf_lt {c : UInt8} (h : c ∈ A.letters) : A.letters.idxOf c < 64 := by
  rw [← A.length_eq]
  exact idxOf_lt_length_iff.2 h

end Alphabet

end Sextets
