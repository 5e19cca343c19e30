import Arth.Lib.Sextets

/-!
# Base64, Base64URL and hexadecimal text

`encoding.rs`: the encoders and decoders that the C interface exports. A call gets an input
and an output buffer (`none` is a null pointer), returns a code and leaves bytes at the front
of the output; the outer `none` is an index out of bounds.

* `base64Encode`, `base64Decode`, `base64urlEncode`, `base64urlDecode`, `hexEncode`,
  `hexDecode` — the six functions.
* `RoundTrips` — decoding what was encoded gives the bytes back.
* `Strict` — nothing but well-formed text is accepted.
* `encodings_iff` — the first always holds; the second holds of a text if and only if no
  decoder lets padding or a letter count pass.
-/

namespace Arth.Encoding

open Sextets List

def ascii (s : String) : List UInt8 := s.toList.map fun c => .ofNat c.toNat

/-- `b'='`. -/
def padding : UInt8 := 61

def base64EncodeTable : List UInt8 :=
  ascii "ABCDEFGHIJKLMNOPQRSTUVWXYZabcdefghijklmnopqrstuvwxyz0123456789+/"

def base64urlEncodeTable : List UInt8 :=
  ascii "ABCDEFGHIJKLMNOPQRSTUVWXYZabcdefghijklmnopqrstuvwxyz0123456789-_"

def base64 : Alphabet := ⟨base64EncodeTable, by decide, by decide⟩

def base64url : Alphabet := ⟨base64urlEncodeTable, by decide, by decide⟩

/-- The decoding table of an alphabet: 64 is the padding, 255 any other byte. -/
def decodeTable (A : Alphabet) (c : UInt8) : UInt8 :=
  if c = padding then 64 else if c ∈ A.letters then .ofNat (A.letters.idxOf c) else 255

/-- The code a call returns, and the bytes it wrote to the front of the output. -/
structure Reply where
  code : Int64
  written : List UInt8
  deriving DecidableEq

/-- A call that writes nothing. -/
def returns (code : Int64) : Option Reply := some ⟨code, []⟩

/-- Bytes written one after the other to a slice of `size` bytes, which panics past its end. -/
def put (size : Nat) (bs : List UInt8) : Option Reply :=
  if bs.length ≤ size then some ⟨.ofNat bs.length, bs⟩ else none

/-! ## Base64 -/

def base64EncodeLen (inputLen : Nat) : Nat := if inputLen = 0 then 0 else (inputLen + 2) / 3 * 4

def base64DecodeLen (inputLen : Nat) : Nat := if inputLen = 0 then 0 else inputLen / 4 * 3

/-- The loop of both encoders; `pads` is what follows a last group of one or two bytes. -/
def encodeGroups (A : Alphabet) (pads : Nat → List UInt8) : List UInt8 → List UInt8
  | b0 :: b1 :: b2 :: bs =>
    let b0 := b0.toNat
    let b1 := b1.toNat
    let b2 := b2.toNat
    A.letter (b0 >>> 2) :: A.letter (((b0 &&& 0x03) <<< 4) ||| (b1 >>> 4)) ::
      A.letter (((b1 &&& 0x0f) <<< 2) ||| (b2 >>> 6)) :: A.letter (b2 &&& 0x3f) ::
      encodeGroups A pads bs
  | [b0, b1] =>
    let b0 := b0.toNat
    let b1 := b1.toNat
    A.letter (b0 >>> 2) :: A.letter (((b0 &&& 0x03) <<< 4) ||| (b1 >>> 4)) ::
      A.letter ((b1 &&& 0x0f) <<< 2) :: pads 1
  | [b0] =>
    let b0 := b0.toNat
    A.letter (b0 >>> 2) :: A.letter ((b0 &&& 0x03) <<< 4) :: pads 2
  | [] => []

def base64Encode (input : Option (List UInt8)) (output : Option Nat) : Option Reply :=
  match input, output with
  | some bs, some outputLen =>
    if bs = [] then returns 0
    else if outputLen < base64EncodeLen bs.length then returns (-1)
    else put (base64EncodeLen bs.length)
      (encodeGroups base64 (fun n => List.replicate n padding) bs)
  | _, _ => returns (-2)

/-- The bytes of one group of four table entries. -/
def quad (c0 c1 c2 c3 : UInt8) : List UInt8 :=
  ((c0 <<< 2) ||| (c1 >>> 4)) ::
    if c2 ≠ 64 then
      (((c1 &&& 0x0f) <<< 4) ||| (c2 >>> 2)) ::
        if c3 ≠ 64 then [((c2 &&& 0x03) <<< 6) ||| c3] else []
    else []

/-- The loop of `base64Decode`: did it meet an invalid byte, and what it wrote. -/
def decodeQuads : List UInt8 → Bool × List UInt8
  | i0 :: i1 :: i2 :: i3 :: is =>
    let c0 := decodeTable base64 i0
    let c1 := decodeTable base64 i1
    let c2 := decodeTable base64 i2
    let c3 := decodeTable base64 i3
    if c0 = 255 ∨ c1 = 255 ∨ (c2 = 255 ∧ c2 ≠ 64) ∨ (c3 = 255 ∧ c3 ≠ 64) then (true, [])
    else ((decodeQuads is).1, quad c0 c1 c2 c3 ++ (decodeQuads is).2)
  | _ => (false, [])

/-- What a decoder returns after its loop over a slice of `size` bytes. -/
def finish (size : Nat) (r : Bool × List UInt8) : Option Reply :=
  if r.1 then (put size r.2).map fun reply => ⟨-3, reply.written⟩ else put size r.2

def base64Decode (input : Option (List UInt8)) (output : Option Nat) : Option Reply :=
  match input, output with
  | some cs, some outputLen =>
    if cs = [] then returns 0
    else if cs.length % 4 ≠ 0 then returns (-3)
    else if outputLen < base64DecodeLen cs.length then returns (-1)
    else finish (base64DecodeLen cs.length) (decodeQuads cs)
  | _, _ => returns (-2)

/-- `(input_len * 4).div_ceil(3)`; the product wraps. -/
def base64urlEncodeLen (inputLen : Nat) : Nat := (inputLen * 4 % 2 ^ 64 + 2) / 3

/-- `(actual_len * 3) / 4`; the product wraps. -/
def base64urlDecodeLen (actualLen : Nat) : Nat := actualLen * 3 % 2 ^ 64 / 4

def base64urlEncode (input : Option (List UInt8)) (output : Option Nat) : Option Reply :=
  match input, output with
  | some bs, some outputLen =>
    if bs = [] then returns 0
    else if outputLen < base64urlEncodeLen bs.length then returns (-1)
    else put outputLen (encodeGroups base64url (fun _ => []) bs)
  | _, _ => returns (-2)

/-- The loop of `base64urlDecode`: `accum` holds `bits` bits that are not written yet. -/
def decodeBits (accum : UInt32) (bits : UInt32) : List UInt8 → Bool × List UInt8
  | [] => (false, [])
  | c :: cs =>
    let val := decodeTable base64url c
    if val = 255 then (true, [])
    else if val = 64 then (false, [])
    else
      let accum := (accum <<< 6) ||| val.toUInt32
      let bits := bits + 6
      if 8 ≤ bits then
        let bits := bits - 8
        let r := decodeBits accum bits cs
        (r.1, ((accum >>> bits) &&& 0xff).toUInt8 :: r.2)
      else decodeBits accum bits cs

def base64urlDecode (input : Option (List UInt8)) (output : Option Nat) : Option Reply :=
  match input, output with
  | some cs, some outputLen =>
    -- the padding at the end does not count
    let cs := cs.rdropWhile (· = padding)
    if cs = [] then returns 0
    else if outputLen < base64urlDecodeLen cs.length then returns (-1)
    else finish (base64urlDecodeLen cs.length) (decodeBits 0 0 cs)
  | _, _ => returns (-2)

/-! ## Hexadecimal -/

def hexLower : List UInt8 := ascii "0123456789abcdef"

def hexDecodeTable (c : UInt8) : Int8 :=
  if 48 ≤ c ∧ c ≤ 57 then (c - 48).toInt8
  else if 97 ≤ c ∧ c ≤ 102 then (c - 87).toInt8
  else if 65 ≤ c ∧ c ≤ 70 then (c - 55).toInt8
  else -1

def hexEncodeLen (inputLen : Nat) : Nat := inputLen * 2

def hexDecodeLen (inputLen : Nat) : Nat := inputLen / 2

def hexEncode (input : Option (List UInt8)) (output : Option Nat) : Option Reply :=
  match input, output with
  | some bs, some outputLen =>
    if outputLen < bs.length * 2 then returns (-1)
    else some ⟨.ofNat (bs.length * 2), bs.flatMap fun (b : UInt8) =>
      [hexLower.getD (b >>> 4).toNat 0, hexLower.getD (b &&& 0x0f).toNat 0]⟩
  | _, _ => returns (-2)

/-- The loop of `hexDecode`. -/
def decodePairs : List UInt8 → Bool × List UInt8
  | a :: b :: cs =>
    let hi := hexDecodeTable a
    let lo := hexDecodeTable b
    if hi = -1 ∨ lo = -1 then (true, [])
    else ((decodePairs cs).1, ((hi.toUInt8 <<< 4) ||| lo.toUInt8) :: (decodePairs cs).2)
  | _ => (false, [])

def hexDecode (input : Option (List UInt8)) (output : Option Nat) : Option Reply :=
  match input, output with
  | some cs, some outputLen =>
    if cs.length % 2 ≠ 0 then returns (-4)
    else if outputLen < cs.length / 2 then returns (-1)
    else
      let r := decodePairs cs
      some ⟨if r.1 then -3 else .ofNat (cs.length / 2), r.2⟩
  | _, _ => returns (-2)

/-! ## Tables -/

variable {n m p q r s : Nat}

section Tables

variable {A : Alphabet}

theorem decodeTable_letter (hA : padding ∉ A.letters) (hn : n < 64) :
    decodeTable A (A.letter n) = .ofNat n := by
  have hmem := A.letter_mem hn
  have hne : A.letter n ≠ padding := fun heq => hA (heq ▸ hmem)
  rw [decodeTable, if_neg hne, if_pos hmem, A.idxOf_letter hn]

theorem ofNat_ne (hn : n < 64) (hm : 64 ≤ m) (hm' : m < 256) : UInt8.ofNat n ≠ UInt8.ofNat m := by
  intro heq
  have hnat := congrArg UInt8.toNat heq
  rw [UInt8.toNat_ofNat', UInt8.toNat_ofNat'] at hnat
  omega

variable {c : UInt8}

theorem decodeTable_eq_invalid : decodeTable A c = 255 ↔ c ≠ padding ∧ c ∉ A.letters := by
  unfold decodeTable
  split_ifs with hpad hmem
  · simp [hpad]
  · have hne := ofNat_ne (A.idxOf_lt hmem) (m := 255) (by omega) (by omega)
    exact ⟨fun h => absurd h hne, fun h => absurd hmem h.2⟩
  · exact ⟨fun _ => ⟨hpad, hmem⟩, fun _ => rfl⟩

theorem decodeTable_eq_padding : decodeTable A c = 64 ↔ c = padding := by
  unfold decodeTable
  split_ifs with hpad hmem
  · simp [hpad]
  · have hne := ofNat_ne (A.idxOf_lt hmem) (m := 64) le_rfl (by omega)
    exact ⟨fun h => absurd h hne, fun h => absurd h hpad⟩
  · exact ⟨nofun, fun h => absurd h hpad⟩

theorem decodeTable_of_mem (hA : padding ∉ A.letters) (hc : c ∈ A.letters) :
    decodeTable A c ≠ 255 ∧ decodeTable A c ≠ 64 := by
  constructor
  · intro h
    exact (decodeTable_eq_invalid.1 h).2 hc
  · intro h
    exact hA (decodeTable_eq_padding.1 h ▸ hc)

end Tables

theorem padding_base64 : padding ∉ base64.letters := by decide

theorem padding_base64url : padding ∉ base64url.letters := by decide

/-- The padding behind the letters of `n` bytes. -/
def tailOf (pads : Nat → List UInt8) (n : Nat) : List UInt8 :=
  if n % 3 = 0 then [] else pads (3 - n % 3)

theorem encodeGroups_eq (A : Alphabet) (pads : Nat → List UInt8) (bs : List UInt8) :
    encodeGroups A pads bs = (sextets bs).map A.letter ++ tailOf pads bs.length := by
  -- by number, the shifts and masks are quotients and remainders
  have hlow (b n : Nat) : b &&& (2 ^ n - 1) = b % 2 ^ n := Nat.and_two_pow_sub_one_eq_mod b n
  have hhigh (b n : Nat) : b >>> n = b / 2 ^ n := Nat.shiftRight_eq_div_pow b n
  have h3 (b : Nat) : b &&& 0x03 = b % 4 := hlow b 2
  have h15 (b : Nat) : b &&& 0x0f = b % 16 := hlow b 4
  have h63 (b : Nat) : b &&& 0x3f = b % 64 := hlow b 6
  induction bs using triples_induction with
  | triple a b c bs ih =>
    have hb := b.toNat_lt
    have hc := c.toNat_lt
    have hlen : (a :: b :: c :: bs).length % 3 = bs.length % 3 := by
      simp only [length_cons]
      omega
    rw [encodeGroups, ih, sextets]
    simp only [h3, h15, h63, hhigh, tailOf, hlen]
    rw [or_eq_add (by omega), or_eq_add (by omega)]
    simp
  | pair a b =>
    have hb := b.toNat_lt
    rw [encodeGroups, sextets]
    simp only [h3, h15, hhigh, tailOf]
    rw [or_eq_add (by omega), Nat.shiftLeft_eq]
    simp
  | single a =>
    rw [encodeGroups, sextets]
    simp only [h3, hhigh, tailOf, Nat.shiftLeft_eq]
    simp
  | nil => simp [encodeGroups, sextets, tailOf]

/-! ## What the decoders read back -/

variable {n : Nat}

theorem toNat_ofNat (h : n < 64) : (UInt8.ofNat n).toNat = n := by
  rw [UInt8.toNat_ofNat']
  omega

theorem toNat_high (b : UInt8) : (b >>> 4).toNat = b.toNat / 16 :=
  Nat.shiftRight_eq_div_pow b.toNat 4

theorem toNat_low (b : UInt8) : (b &&& 0x0f).toNat = b.toNat % 16 :=
  Nat.and_two_pow_sub_one_eq_mod b.toNat 4

/-- Bits that are shifted above those of a second byte. -/
theorem shiftLeft_or (k : UInt8) {a b : UInt8} {x y : Nat} (hk : k.toNat < 8) (ha : a.toNat = x)
    (hb : b.toNat = y) (hy : y < 2 ^ k.toNat) (hsum : x * 2 ^ k.toNat + y < 256) :
    (a <<< k) ||| b = .ofNat (x * 2 ^ k.toNat + y) := by
  have hshift : x <<< k.toNat % 2 ^ 8 = x <<< k.toNat := by
    rw [Nat.shiftLeft_eq]
    exact Nat.mod_eq_of_lt (by omega)
  apply UInt8.toNat_inj.1
  rw [UInt8.toNat_or, UInt8.toNat_shiftLeft, Nat.mod_eq_of_lt hk, ha, hb, hshift, or_eq_add hy,
    UInt8.toNat_ofNat', Nat.mod_eq_of_lt hsum]

theorem first_byte (hp : p < 64) (hq : q < 64) :
    (UInt8.ofNat p <<< 2) ||| (UInt8.ofNat q >>> 4) = .ofNat (p * 4 + q / 16) := by
  have hb : (UInt8.ofNat q >>> 4).toNat = q / 16 := by rw [toNat_high, toNat_ofNat hq]
  exact shiftLeft_or 2 (by decide) (toNat_ofNat hp) hb (by change q / 16 < 4; omega)
    (by change p * 4 + q / 16 < 256; omega)

theorem second_byte (hq : q < 64) (hr : r < 64) :
    ((UInt8.ofNat q &&& 0x0f) <<< 4) ||| (UInt8.ofNat r >>> 2) = .ofNat (q % 16 * 16 + r / 4) := by
  have ha : (UInt8.ofNat q &&& 0x0f).toNat = q % 16 := by rw [toNat_low, toNat_ofNat hq]
  have hb : (UInt8.ofNat r >>> 2).toNat = r / 4 := by
    rw [UInt8.toNat_shiftRight, toNat_ofNat hr]
    exact Nat.shiftRight_eq_div_pow r 2
  exact shiftLeft_or 4 (by decide) ha hb (by change r / 4 < 16; omega)
    (by change q % 16 * 16 + r / 4 < 256; omega)

theorem third_byte (hr : r < 64) (hs : s < 64) :
    ((UInt8.ofNat r &&& 0x03) <<< 6) ||| UInt8.ofNat s = .ofNat (r % 4 * 64 + s) := by
  have ha : (UInt8.ofNat r &&& 0x03).toNat = r % 4 := by
    rw [UInt8.toNat_and, toNat_ofNat hr]
    exact Nat.and_two_pow_sub_one_eq_mod r 2
  exact shiftLeft_or 6 (by decide) ha (toNat_ofNat hs) hs (by change r % 4 * 64 + s < 256; omega)

/-- **The loop of the decoder undoes the loop of the encoder.** -/
theorem decodeQuads_encodeGroups (bs : List UInt8) :
    decodeQuads (encodeGroups base64 (fun n => replicate n padding) bs) = (false, bs) := by
  rw [encodeGroups_eq]
  have hread : ∀ n, n < 64 → decodeTable base64 (base64.letter n) = .ofNat n :=
    fun n hn => decodeTable_letter padding_base64 hn
  have hpad : decodeTable base64 padding = 64 := decodeTable_eq_padding.2 rfl
  have hvalid : ∀ n, n < 64 → UInt8.ofNat n ≠ 255 := fun n hn =>
    ofNat_ne hn (m := 255) (by omega) (by omega)
  have hletter : ∀ n, n < 64 → UInt8.ofNat n ≠ 64 := fun n hn =>
    ofNat_ne hn (m := 64) le_rfl (by omega)
  have hbytes := octets_sextets bs
  have hlt := sextets_lt bs
  induction bs using triples_induction with
  | triple a b c bs ih =>
    simp only [sextets, forall_mem_cons] at hlt
    obtain ⟨hp, hq, hr, hs, hlt⟩ := hlt
    have hlen : tailOf (fun n => replicate n padding) (a :: b :: c :: bs).length =
        tailOf (fun n => replicate n padding) bs.length := by
      have hmod : (a :: b :: c :: bs).length % 3 = bs.length % 3 := by
        simp only [length_cons]
        omega
      rw [tailOf, tailOf, hmod]
    rw [sextets, octets] at hbytes
    obtain ⟨ha, hb, hc, hbytes⟩ : _ ∧ _ ∧ _ ∧ _ := by simpa only [cons.injEq] using hbytes
    have hrest := ih hbytes hlt
    rw [sextets, hlen]
    simp only [map_cons, cons_append, decodeQuads, hread _ hp, hread _ hq, hread _ hr,
      hread _ hs, hvalid _ hp, hvalid _ hq, hvalid _ hr, hvalid _ hs, false_or, false_and,
      if_false, hrest, quad, ne_eq, hletter _ hr, hletter _ hs, not_false_iff, if_true]
    rw [first_byte hp hq, second_byte hq hr, third_byte hr hs, ha, hb, hc]
    rfl
  | pair a b =>
    simp only [sextets, forall_mem_cons] at hlt
    obtain ⟨hp, hq, hr, -⟩ := hlt
    rw [sextets, octets] at hbytes
    obtain ⟨ha, hb, -⟩ : _ ∧ _ ∧ _ := by simpa only [cons.injEq] using hbytes
    have htail : tailOf (fun n => replicate n padding) [a, b].length = [padding] := rfl
    rw [sextets, htail]
    simp only [map_cons, map_nil, cons_append, nil_append, decodeQuads,
      hread _ hp, hread _ hq, hread _ hr, hpad, hvalid _ hp, hvalid _ hq, hvalid _ hr, quad, ne_eq,
      hletter _ hr, not_false_iff, if_true, false_or, false_and, not_true, and_false, if_false]
    rw [first_byte hp hq, second_byte hq hr, ha, hb]
  | single a =>
    simp only [sextets, forall_mem_cons] at hlt
    obtain ⟨hp, hq, -⟩ := hlt
    rw [sextets, octets] at hbytes
    obtain ⟨ha, -⟩ : _ ∧ _ := by simpa only [cons.injEq] using hbytes
    have htail : tailOf (fun n => replicate n padding) [a].length = [padding, padding] := rfl
    rw [sextets, htail]
    simp only [map_cons, map_nil, cons_append, nil_append, decodeQuads,
      hread _ hp, hread _ hq, hpad, hvalid _ hp, hvalid _ hq, quad, ne_eq, not_true, and_false,
      or_self, if_false]
    rw [first_byte hp hq, ha]
  | nil => rfl

theorem toNat_accum (x : UInt32) (hn : n < 64) :
    ((x <<< 6) ||| (UInt8.ofNat n).toUInt32).toNat = x.toNat * 64 % 2 ^ 32 + n := by
  rw [UInt32.toNat_or, UInt32.toNat_shiftLeft, UInt8.toNat_toUInt32, toNat_ofNat hn]
  have hshift : x.toNat <<< ((6 : UInt32).toNat % 32) % 2 ^ 32 = (x.toNat % 2 ^ 26) <<< 6 := by
    rw [Nat.shiftLeft_eq, Nat.shiftLeft_eq]
    change x.toNat * 64 % 2 ^ 32 = x.toNat % 2 ^ 26 * 64
    omega
  rw [hshift, or_eq_add (by omega)]
  omega

theorem toUInt8_accum (y k : UInt32) (hk : k.toNat < 32) :
    ((y >>> k) &&& 0xff).toUInt8 = .ofNat (y.toNat / 2 ^ k.toNat) := by
  apply UInt8.toNat_inj.1
  rw [UInt32.toNat_toUInt8, UInt32.toNat_and, UInt32.toNat_shiftRight, UInt8.toNat_ofNat',
    Nat.mod_eq_of_lt hk, Nat.shiftRight_eq_div_pow]
  have hmask : y.toNat / 2 ^ k.toNat &&& (0xff : UInt32).toNat = y.toNat / 2 ^ k.toNat % 2 ^ 8 :=
    Nat.and_two_pow_sub_one_eq_mod _ 8
  rw [hmask, Nat.mod_mod]

theorem emitted (x : UInt32) (hn : n < 64) (hm : m < 64) {k : UInt32} (hk : k.toNat < 32)
    {v : Nat} (hv : (x.toNat * 64 % 2 ^ 32 + n) * 64 % 2 ^ 32 + m ≡ v [MOD 2 ^ (8 + k.toNat)]) :
    ((((((x <<< 6) ||| (UInt8.ofNat n).toUInt32) <<< 6) ||| (UInt8.ofNat m).toUInt32) >>> k) &&&
      0xff).toUInt8 = .ofNat (v / 2 ^ k.toNat) := by
  rw [toUInt8_accum _ _ hk, toNat_accum _ hm, toNat_accum _ hn]
  apply UInt8.toNat_inj.1
  rw [UInt8.toNat_ofNat', UInt8.toNat_ofNat']
  have hdiv (w : Nat) : w / 2 ^ k.toNat % 2 ^ 8 = w % 2 ^ (8 + k.toNat) / 2 ^ k.toNat := by
    rw [add_comm, Nat.pow_add, Nat.mod_mul_right_div_self]
  rw [hdiv, hdiv, hv]

theorem emitted_first (x : UInt32) (hp : p < 64) (hq : q < 64) :
    ((((((x <<< 6) ||| (UInt8.ofNat p).toUInt32) <<< 6) ||| (UInt8.ofNat q).toUInt32) >>> 4) &&&
      0xff).toUInt8 = .ofNat (p * 4 + q / 16) := by
  have hv : (x.toNat * 64 % 2 ^ 32 + p) * 64 % 2 ^ 32 + q ≡ p * 64 + q [MOD 2 ^ 12] := by
    rw [Nat.ModEq]
    omega
  rw [emitted x hp hq (k := 4) (by decide) hv]
  congr 1
  change (p * 64 + q) / 16 = _
  omega

theorem emitted_second (x : UInt32) (hq : q < 64) (hr : r < 64) :
    ((((((x <<< 6) ||| (UInt8.ofNat q).toUInt32) <<< 6) ||| (UInt8.ofNat r).toUInt32) >>> 2) &&&
      0xff).toUInt8 = .ofNat (q % 16 * 16 + r / 4) := by
  have hv : (x.toNat * 64 % 2 ^ 32 + q) * 64 % 2 ^ 32 + r ≡ q % 16 * 64 + r [MOD 2 ^ 10] := by
    rw [Nat.ModEq]
    omega
  rw [emitted x hq hr (k := 2) (by decide) hv]
  congr 1
  change (q % 16 * 64 + r) / 4 = _
  omega

theorem emitted_third (x : UInt32) (hr : r < 64) (hs : s < 64) :
    ((((((x <<< 6) ||| (UInt8.ofNat r).toUInt32) <<< 6) ||| (UInt8.ofNat s).toUInt32) >>> 0) &&&
      0xff).toUInt8 = .ofNat (r % 4 * 64 + s) := by
  have hv : (x.toNat * 64 % 2 ^ 32 + r) * 64 % 2 ^ 32 + s ≡ r % 4 * 64 + s [MOD 2 ^ 8] := by
    rw [Nat.ModEq]
    omega
  rw [emitted x hr hs (k := 0) (by decide) hv]
  congr 1
  exact Nat.div_one _

theorem decodeBits_letter (accum bits : UInt32) (hn : n < 64) (cs : List UInt8) :
    decodeBits accum bits (base64url.letter n :: cs) = if 8 ≤ bits + 6 then
        ((decodeBits ((accum <<< 6) ||| (UInt8.ofNat n).toUInt32) (bits + 6 - 8) cs).1,
          ((((accum <<< 6) ||| (UInt8.ofNat n).toUInt32) >>> (bits + 6 - 8)) &&& 0xff).toUInt8 ::
            (decodeBits ((accum <<< 6) ||| (UInt8.ofNat n).toUInt32) (bits + 6 - 8) cs).2)
      else decodeBits ((accum <<< 6) ||| (UInt8.ofNat n).toUInt32) (bits + 6) cs := by
  have hread := decodeTable_letter padding_base64url hn
  have hvalid : UInt8.ofNat n ≠ 255 := ofNat_ne hn (m := 255) (by omega) (by omega)
  have hletter : UInt8.ofNat n ≠ 64 := ofNat_ne hn (m := 64) le_rfl (by omega)
  rw [decodeBits]
  simp only [hread, if_neg hvalid, if_neg hletter]

/-- **The accumulator undoes the loop of the encoder**, whatever it held before. -/
theorem decodeBits_sextets (accum : UInt32) (bs : List UInt8) :
    decodeBits accum 0 ((sextets bs).map base64url.letter) = (false, bs) := by
  have hbytes := octets_sextets bs
  have hlt := sextets_lt bs
  have hbits : (0 : UInt32) + 6 = 6 ∧ (6 : UInt32) + 6 - 8 = 4 ∧ (4 : UInt32) + 6 - 8 = 2 ∧
    (2 : UInt32) + 6 - 8 = 0 := by decide
  have hfull : ¬ (8 : UInt32) ≤ 6 ∧ (8 : UInt32) ≤ 6 + 6 ∧ (8 : UInt32) ≤ 4 + 6 ∧
    (8 : UInt32) ≤ 2 + 6 := by decide
  obtain ⟨hb0, hb6, hb4, hb2⟩ := hbits
  obtain ⟨hf0, hf6, hf4, hf2⟩ := hfull
  have hnil (x k : UInt32) : decodeBits x k [] = (false, []) := rfl
  induction bs using triples_induction generalizing accum with
  | triple a b c bs ih =>
    simp only [sextets, forall_mem_cons] at hlt
    obtain ⟨hp, hq, hr, hs, hlt⟩ := hlt
    rw [sextets, octets] at hbytes
    obtain ⟨ha, hb, hc, hbytes⟩ : _ ∧ _ ∧ _ ∧ _ := by simpa only [cons.injEq] using hbytes
    rw [sextets]
    simp only [map_cons, decodeBits_letter _ _ hp, decodeBits_letter _ _ hq,
      decodeBits_letter _ _ hr, decodeBits_letter _ _ hs, hb0, hb6, hb4, hb2, if_neg hf0, if_pos hf6,
      if_pos hf4, if_pos hf2, emitted_first _ hp hq, emitted_second _ hq hr, emitted_third _ hr hs,
      ih _ hbytes hlt, ha, hb, hc]
  | pair a b =>
    simp only [sextets, forall_mem_cons] at hlt
    obtain ⟨hp, hq, hr, -⟩ := hlt
    rw [sextets, octets] at hbytes
    obtain ⟨ha, hb, -⟩ : _ ∧ _ ∧ _ := by simpa only [cons.injEq] using hbytes
    rw [sextets]
    simp only [map_cons, map_nil, decodeBits_letter _ _ hp, decodeBits_letter _ _ hq,
      decodeBits_letter _ _ hr, hb0, hb6, hb4, if_neg hf0, if_pos hf6, if_pos hf4,
      emitted_first _ hp hq, emitted_second _ hq hr, hnil, ha, hb]
  | single a =>
    simp only [sextets, forall_mem_cons] at hlt
    obtain ⟨hp, hq, -⟩ := hlt
    rw [sextets, octets] at hbytes
    obtain ⟨ha, -⟩ : _ ∧ _ := by simpa only [cons.injEq] using hbytes
    rw [sextets]
    simp only [map_cons, map_nil, decodeBits_letter _ _ hp, decodeBits_letter _ _ hq,
      hb0, hb6, if_neg hf0, if_pos hf6, emitted_first _ hp hq, hnil, ha]
  | nil => rfl

theorem toNat_lt_16 (b : UInt8) : (b >>> 4).toNat < 16 ∧ (b &&& 0x0f).toNat < 16 := by
  have hb := b.toNat_lt
  rw [toNat_high, toNat_low]
  omega

theorem hexDecodeTable_hexLower (h : n < 16) : hexDecodeTable (hexLower.getD n 0) ≠ -1 ∧
      (hexDecodeTable (hexLower.getD n 0)).toUInt8 = .ofNat n := by
  have hall : ∀ n : Fin 16, hexDecodeTable (hexLower.getD n 0) ≠ -1 ∧
      (hexDecodeTable (hexLower.getD n 0)).toUInt8 = .ofNat n := by decide
  exact hall ⟨n, h⟩

theorem nibbles (b : UInt8) :
    (UInt8.ofNat (b >>> 4).toNat <<< 4) ||| UInt8.ofNat (b &&& 0x0f).toNat = b := by
  rw [UInt8.ofNat_toNat, UInt8.ofNat_toNat]
  have hb := b.toNat_lt
  have hsum : b.toNat / 16 * 16 + b.toNat % 16 = b.toNat := Nat.div_add_mod' ..
  rw [shiftLeft_or 4 (by decide) (toNat_high b) (toNat_low b) (by change _ % 16 < 16; omega)
    (hsum.trans_lt hb)]
  exact (congrArg UInt8.ofNat hsum).trans UInt8.ofNat_toNat

theorem decodePairs_digits (bs : List UInt8) : decodePairs (bs.flatMap fun (b : UInt8) =>
      [hexLower.getD (b >>> 4).toNat 0, hexLower.getD (b &&& 0x0f).toNat 0]) = (false, bs) := by
  induction bs with
  | nil => rfl
  | cons b bs ih =>
    obtain ⟨hhigh, hlow⟩ := toNat_lt_16 b
    obtain ⟨hhi, hhi'⟩ := hexDecodeTable_hexLower hhigh
    obtain ⟨hlo, hlo'⟩ := hexDecodeTable_hexLower hlow
    rw [flatMap_cons, cons_append, cons_append, nil_append, decodePairs, ih]
    simp only [hhi, hlo, or_self, if_false, hhi', hlo', nibbles]

/-! ## What the decoders accept -/

def isHexDigit (c : UInt8) : Bool := 48 ≤ c ∧ c ≤ 57 ∨ 97 ≤ c ∧ c ≤ 102 ∨ 65 ≤ c ∧ c ≤ 70

theorem hexDecodeTable_eq_invalid (c : UInt8) : hexDecodeTable c = -1 ↔ isHexDigit c = false := by
  have hall : ∀ n : Fin 256,
      hexDecodeTable (.ofNat n) = -1 ↔ isHexDigit (.ofNat n) = false := by decide +kernel
  have hc := hall ⟨c.toNat, c.toNat_lt⟩
  rwa [UInt8.ofNat_toNat] at hc

theorem decodeQuads_ok (cs : List UInt8) (hlen : cs.length % 4 = 0) :
    (decodeQuads cs).1 = false ↔ ∀ c ∈ cs, c = padding ∨ c ∈ base64.letters := by
  have hone (c : UInt8) : decodeTable base64 c = 255 ↔ ¬ (c = padding ∨ c ∈ base64.letters) := by
    rw [decodeTable_eq_invalid, not_or]
  have hvalid (c : UInt8) : ¬ (c = padding ∨ c ∈ base64.letters) ∧ decodeTable base64 c ≠ 64 ↔
      ¬ (c = padding ∨ c ∈ base64.letters) := by
    rw [← hone, and_iff_left_iff_imp]
    intro h
    rw [h]
    decide
  match cs, hlen with
  | [], _ => simp [decodeQuads]
  | [_], hlen | [_, _], hlen | [_, _, _], hlen => simp at hlen
  | i0 :: i1 :: i2 :: i3 :: is, hlen =>
    have ih := decodeQuads_ok is ((Nat.add_mod_right _ 4).symm.trans hlen)
    simp only [decodeQuads, hone, hvalid, forall_mem_cons, ← ih]
    split_ifs <;> grind

theorem length_quad_le (c0 c1 c2 c3 : UInt8) : (quad c0 c1 c2 c3).length ≤ 3 := by
  unfold quad
  split_ifs <;> simp

theorem length_decodeQuads (cs : List UInt8) : (decodeQuads cs).2.length ≤ cs.length / 4 * 3 := by
  fun_induction decodeQuads cs with
  | case1 | case3 => exact Nat.zero_le _
  | case2 i0 i1 i2 i3 is c0 c1 c2 c3 hgood ih =>
    have hquad := length_quad_le c0 c1 c2 c3
    simp only [length_append, length_cons]
    omega

theorem decodeBits_ok (accum bits : UInt32) (cs : List UInt8) :
    (decodeBits accum bits cs).1 = false ↔
      ∀ c ∈ cs.takeWhile (· ≠ padding), c ∈ base64url.letters := by
  induction cs generalizing accum bits with
  | nil => simp [decodeBits]
  | cons c cs ih =>
    rw [decodeBits]
    by_cases hpad : c = padding
    · have h64 : decodeTable base64url padding = 64 := decodeTable_eq_padding.2 rfl
      simp [h64, hpad]
    · have hne : decodeTable base64url c ≠ 64 := fun h => hpad (decodeTable_eq_padding.1 h)
      have htake : (c :: cs).takeWhile (· ≠ padding) = c :: cs.takeWhile (· ≠ padding) := by
        simp [hpad]
      rw [htake, forall_mem_cons]
      by_cases hmem : c ∈ base64url.letters
      · obtain ⟨hvalid, -⟩ := decodeTable_of_mem padding_base64url hmem
        simp only [if_neg hvalid, if_neg hne, hmem, true_and]
        split_ifs
        · exact ih _ _
        · exact ih _ _
      · have h255 : decodeTable base64url c = 255 := decodeTable_eq_invalid.2 ⟨hpad, hmem⟩
        simp [h255, hmem]

theorem length_decodeBits (accum bits : UInt32) (hbits : bits.toNat < 8) (cs : List UInt8) :
    (decodeBits accum bits cs).2.length ≤ (bits.toNat + 6 * cs.length) / 8 := by
  induction cs generalizing accum bits with
  | nil => simp [decodeBits]
  | cons c cs ih =>
    have hadd : (bits + 6).toNat = bits.toNat + 6 := by
      exact Nat.mod_eq_of_lt (by change bits.toNat + 6 < 2 ^ 32; omega)
    rw [decodeBits]
    simp only [length_cons]
    split_ifs with hinvalid hpad hfull
    · exact Nat.zero_le _
    · exact Nat.zero_le _
    · have hle : 8 ≤ bits.toNat + 6 := by
        rw [← hadd]
        exact UInt32.le_iff_toNat_le.1 hfull
      have hsub : (bits + 6 - 8).toNat = bits.toNat + 6 - 8 := by
        rw [UInt32.toNat_sub_of_le _ _ hfull, hadd]
        rfl
      have hrest := ih ((accum <<< 6) ||| (decodeTable base64url c).toUInt32) (bits + 6 - 8)
      simp only [length_cons]
      omega
    · have hlt : bits.toNat + 6 < 8 := by
        rw [← hadd]
        by_contra hge
        exact hfull (UInt32.le_iff_toNat_le.2 (not_lt.1 hge))
      have hrest := ih ((accum <<< 6) ||| (decodeTable base64url c).toUInt32) (bits + 6)
      omega

theorem decodePairs_ok (cs : List UInt8) (hlen : cs.length % 2 = 0) :
    (decodePairs cs).1 = false ↔ ∀ c ∈ cs, isHexDigit c := by
  have hone (c : UInt8) : hexDecodeTable c = -1 ↔ ¬ isHexDigit c := by
    rw [hexDecodeTable_eq_invalid, Bool.not_eq_true]
  match cs, hlen with
  | [], _ => simp [decodePairs]
  | [_], hlen => simp at hlen
  | a :: b :: cs, hlen =>
    have ih := decodePairs_ok cs ((Nat.add_mod_right _ 2).symm.trans hlen)
    simp only [decodePairs, hone, forall_mem_cons, ← ih]
    split_ifs <;> grind

/-! ## The calls -/

theorem base64EncodeLen_eq (n : Nat) : base64EncodeLen n = (n + 2) / 3 * 4 := by
  unfold base64EncodeLen
  split_ifs <;> omega

theorem base64DecodeLen_eq (n : Nat) : base64DecodeLen n = n / 4 * 3 := by
  unfold base64DecodeLen
  split_ifs <;> omega

/-- A call that returns a length. -/
def Accepted (r : Option Reply) : Prop := ∃ reply, r = some reply ∧ 0 ≤ reply.code

/-- The largest number of bytes a buffer can have. -/
def isizeMax : Nat := 2 ^ 63 - 1

theorem ofNat_nonneg (h : n ≤ isizeMax) : 0 ≤ Int64.ofNat n := by
  rw [Int64.le_iff_toInt_le, Int64.toInt_ofNat_of_lt (by unfold isizeMax at h; omega)]
  exact Int.natCast_nonneg n

theorem accepted_returns {code : Int64} : Accepted (returns code) ↔ 0 ≤ code := by
  constructor
  · rintro ⟨reply, heq, hcode⟩
    cases heq
    exact hcode
  · intro h
    exact ⟨_, rfl, h⟩

variable {size : Nat} {cs bs : List UInt8} {r : Bool × List UInt8}

theorem accepted_finish (hsize : r.2.length ≤ size)
    (hfit : r.2.length ≤ isizeMax) : Accepted (finish size r) ↔ r.1 = false := by
  unfold finish put
  rw [if_pos hsize]
  cases h : r.1 with
  | true =>
    refine ⟨fun hacc => ?_, nofun⟩
    have hneg : (0 : Int64) ≤ -3 := accepted_returns.1 (by
      obtain ⟨reply, heq, hcode⟩ := hacc
      cases heq
      exact ⟨_, rfl, hcode⟩)
    cases hneg
  | false => exact ⟨fun _ => rfl, fun _ => ⟨_, rfl, ofNat_nonneg hfit⟩⟩

theorem length_le_of_fits (h : 2 * n ≤ isizeMax) : n * 3 % 2 ^ 64 = n * 3 := by
  unfold isizeMax at h
  omega

theorem accepted_base64 (hfit : 2 * cs.length ≤ isizeMax) (n : Nat) :
    Accepted (base64Decode (some cs) (some n)) ↔ base64DecodeLen cs.length ≤ n ∧
      cs.length % 4 = 0 ∧ ∀ c ∈ cs, c = padding ∨ c ∈ base64.letters := by
  unfold base64Decode
  by_cases hnil : cs = []
  · subst hnil
    simp [accepted_returns, base64DecodeLen]
  · have hlen := base64DecodeLen_eq cs.length
    simp only [if_neg hnil]
    split_ifs with hmod hsmall
    · rw [accepted_returns]
      exact ⟨nofun, fun h => absurd h.2.1 hmod⟩
    · rw [accepted_returns]
      exact ⟨nofun, fun h => absurd h.1 (by omega)⟩
    · have hwritten := length_decodeQuads cs
      rw [accepted_finish (by omega) (by omega), decodeQuads_ok cs (by omega)]
      exact ⟨fun h => ⟨by omega, by omega, h⟩, fun h => h.2.2⟩

theorem exists_rdropWhile (cs : List UInt8) :
    ∃ k, cs = cs.rdropWhile (· = padding) ++ replicate k padding := by
  refine ⟨(cs.rtakeWhile (· = padding)).length, ?_⟩
  have hall : ∀ c ∈ cs.rtakeWhile (· = padding), c = padding := by
    intro c hc
    simpa using mem_rtakeWhile_imp hc
  rw [← eq_replicate_iff.2 ⟨rfl, hall⟩]
  exact (rdropWhile_append_rtakeWhile).symm

theorem takeWhile_rdropWhile (cs : List UInt8) :
    (cs.rdropWhile (· = padding)).takeWhile (· ≠ padding) = cs.takeWhile (· ≠ padding) := by
  obtain ⟨k, hk⟩ := exists_rdropWhile cs
  have htail : (replicate k padding).takeWhile (· ≠ padding) = [] := by
    cases k with
    | zero => rfl
    | succ k => simp
  conv_rhs => rw [hk, takeWhile_append]
  split_ifs with hall
  · rw [htail, append_nil]
    exact ( takeWhile_prefix _).eq_of_length hall
  · rfl

theorem accepted_base64url (hfit : 2 * cs.length ≤ isizeMax) (n : Nat) :
    Accepted (base64urlDecode (some cs) (some n)) ↔
      base64urlDecodeLen (cs.rdropWhile (· = padding)).length ≤ n ∧
        ∀ c ∈ cs.takeWhile (· ≠ padding), c ∈ base64url.letters := by
  rw [← takeWhile_rdropWhile cs]
  have hle : (cs.rdropWhile (· = padding)).length ≤ cs.length :=
    ( rdropWhile_prefix _ _).length_le
  simp only [base64urlDecode]
  generalize cs.rdropWhile (· = padding) = ds at hle ⊢
  by_cases hnil : ds = []
  · subst hnil
    simp [accepted_returns, base64urlDecodeLen]
  · have hwrap := length_le_of_fits (n := ds.length) (by omega)
    have hwritten := length_decodeBits 0 0 (by decide) ds
    have hzero : (0 : UInt32).toNat = 0 := rfl
    split_ifs with hsmall
    · rw [accepted_returns]
      exact ⟨nofun, fun h => absurd h.1 (by omega)⟩
    · rw [accepted_finish (by unfold base64urlDecodeLen; omega) (by omega), decodeBits_ok]
      exact ⟨fun h => ⟨by omega, h⟩, fun h => h.2⟩

theorem isSome_finish (h : r.2.length ≤ size) : (finish size r).isSome := by
  unfold finish put
  split_ifs <;> rfl

theorem isSome_decode (hfit : 2 * cs.length ≤ isizeMax) (n : Nat) :
    (base64Decode (some cs) (some n)).isSome ∧ (base64urlDecode (some cs) (some n)).isSome ∧
      (hexDecode (some cs) (some n)).isSome := by
  refine ⟨?_, ?_, ?_⟩
  · simp only [base64Decode]
    split_ifs with hnil
    · rfl
    · rfl
    · rfl
    · have hlen := base64DecodeLen_eq cs.length
      have hwritten := length_decodeQuads cs
      exact isSome_finish (by omega)
  · have hle : (cs.rdropWhile (· = padding)).length ≤ cs.length :=
      ( rdropWhile_prefix _ _).length_le
    simp only [base64urlDecode]
    generalize cs.rdropWhile (· = padding) = ds at hle ⊢
    have hwrap := length_le_of_fits (n := ds.length) (by omega)
    have hwritten := length_decodeBits 0 0 (by decide) ds
    have hzero : (0 : UInt32).toNat = 0 := rfl
    split_ifs
    · rfl
    · rfl
    · exact isSome_finish (by unfold base64urlDecodeLen; omega)
  · simp only [hexDecode]
    split_ifs <;> rfl

def HexText (cs : List UInt8) : Prop := cs.length % 2 = 0 ∧ ∀ c ∈ cs, isHexDigit c

theorem hexText_of_accepted (h : Accepted (hexDecode (some cs) (some n))) : HexText cs := by
  simp only [hexDecode] at h
  split_ifs at h with hmod hsmall hfailed
  · exact absurd (accepted_returns.1 h) (by decide)
  · exact absurd (accepted_returns.1 h) (by decide)
  · obtain ⟨reply, heq, hcode⟩ := h
    cases heq
    have hneg : ¬ (0 : Int64) ≤ -3 := by decide
    exact absurd hcode hneg
  · have heven : cs.length % 2 = 0 := by omega
    exact ⟨heven, (decodePairs_ok cs heven).1 (Bool.not_eq_true _ ▸ hfailed)⟩

/-! ## Round trips and strictness -/

/-- Encoding into any buffer of the announced length or more returns that length, and
decoding the text into any buffer with enough room returns the bytes. -/
def RoundTrip (encode decode : Option (List UInt8) → Option Nat → Option Reply)
    (encodeLen room : Nat) (bs : List UInt8) : Prop :=
  ∀ n m, encodeLen ≤ n → bs.length + n ≤ isizeMax → room ≤ m →
    ∃ text, text.length = encodeLen ∧ encode (some bs) (some n) = some ⟨.ofNat encodeLen, text⟩ ∧
      decode (some text) (some m) = some ⟨.ofNat bs.length, bs⟩

structure RoundTrips (bs : List UInt8) : Prop where
  base64 : RoundTrip base64Encode base64Decode (base64EncodeLen bs.length)
    (base64DecodeLen (base64EncodeLen bs.length)) bs
  base64url : RoundTrip base64urlEncode base64urlDecode ((bs.length * 4 + 2) / 3) bs.length bs
  hex : RoundTrip hexEncode hexDecode (hexEncodeLen bs.length)
    (hexDecodeLen (hexEncodeLen bs.length)) bs

theorem put_of_le (h : bs.length ≤ size) : put size bs = some ⟨.ofNat bs.length, bs⟩ := if_pos h

theorem finish_of_ok (h : bs.length ≤ size) :
    finish size (false, bs) = some ⟨.ofNat bs.length, bs⟩ := by
  rw [finish, if_neg Bool.false_ne_true, put_of_le h]

theorem roundTrip_base64 (bs : List UInt8) :
    RoundTrip base64Encode base64Decode (base64EncodeLen bs.length)
      (base64DecodeLen (base64EncodeLen bs.length)) bs := by
  intro n m hn _ hm
  by_cases hnil : bs = []
  · subst hnil
    exact ⟨[], rfl, rfl, rfl⟩
  have hpos : bs.length ≠ 0 := fun h => hnil (length_eq_zero_iff.1 h)
  have hencode := base64EncodeLen_eq bs.length
  set text := encodeGroups base64 (fun n => replicate n padding) bs with htext
  have hlen : text.length = base64EncodeLen bs.length := by
    rw [htext, encodeGroups_eq, length_append, length_map, length_sextets, tailOf, hencode]
    split_ifs
    · simp only [length_nil]
      omega
    · rw [length_replicate]
      omega
  have htext_ne : text ≠ [] := by
    intro h
    rw [h, length_nil] at hlen
    omega
  have hdecode := base64DecodeLen_eq text.length
  refine ⟨text, hlen, ?_, ?_⟩
  · rw [← hlen]
    simp only [base64Encode]
    rw [if_neg hnil, if_neg (by omega), ← htext, put_of_le (by omega)]
  · rw [← hlen] at hm
    simp only [base64Decode]
    rw [if_neg htext_ne, if_neg (by omega), if_neg (by omega), htext, decodeQuads_encodeGroups,
      finish_of_ok (by rw [← htext]; omega)]

theorem roundTrip_base64url (bs : List UInt8) :
    RoundTrip base64urlEncode base64urlDecode ((bs.length * 4 + 2) / 3) bs.length bs := by
  intro n m hn hfit hm
  unfold isizeMax at hfit
  by_cases hnil : bs = []
  · subst hnil
    exact ⟨[], rfl, rfl, rfl⟩
  have hpos : bs.length ≠ 0 := fun h => hnil (length_eq_zero_iff.1 h)
  set text := (sextets bs).map base64url.letter with htext
  have hlen : text.length = (bs.length * 4 + 2) / 3 := by
    rw [htext, length_map, length_sextets, mul_comm]
  have hgroups : encodeGroups base64url (fun _ => []) bs = text := by
    rw [encodeGroups_eq, tailOf, ite_self, append_nil]
  have htext_ne : text ≠ [] := by
    intro h
    rw [h, length_nil] at hlen
    omega
  have hstrip : text.rdropWhile (· = padding) = text := by
    rw [rdropWhile_eq_self_iff]
    intro hne hlast
    have hmem : text.getLast hne ∈ base64url.letters := by
      obtain ⟨k, hk, heq⟩ := mem_map.1 (getLast_mem hne)
      rw [← heq]
      exact base64url.letter_mem (sextets_lt bs k hk)
    rw [of_decide_eq_true hlast] at hmem
    exact padding_base64url hmem
  refine ⟨text, hlen, ?_, ?_⟩
  · rw [← hlen]
    simp only [base64urlEncode]
    have hannounced : base64urlEncodeLen bs.length = (bs.length * 4 + 2) / 3 := by
      have hwrap : bs.length * 4 < 2 ^ 64 := by omega
      rw [base64urlEncodeLen, Nat.mod_eq_of_lt hwrap]
    rw [if_neg hnil, if_neg (by omega), hgroups, put_of_le (by omega)]
  · have hroom : base64urlDecodeLen text.length = bs.length := by
      have hwrap : text.length * 3 < 2 ^ 64 := by omega
      rw [base64urlDecodeLen, Nat.mod_eq_of_lt hwrap]
      omega
    simp only [base64urlDecode, hstrip]
    rw [if_neg htext_ne, hroom, if_neg (by omega), htext, decodeBits_sextets, finish_of_ok le_rfl]

theorem roundTrip_hex (bs : List UInt8) : RoundTrip hexEncode hexDecode (hexEncodeLen bs.length)
      (hexDecodeLen (hexEncodeLen bs.length)) bs := by
  intro n m hn _ hm
  unfold hexEncodeLen at hn hm ⊢
  unfold hexDecodeLen at hm
  set text := bs.flatMap fun (b : UInt8) =>
    [hexLower.getD (b >>> 4).toNat 0, hexLower.getD (b &&& 0x0f).toNat 0] with htext
  have hlen : text.length = bs.length * 2 := by
    rw [htext, length_flatMap]
    simp
  refine ⟨text, hlen, ?_, ?_⟩
  · simp only [hexEncode]
    rw [if_neg (by omega)]
  · simp only [hexDecode]
    rw [if_neg (by omega), if_neg (by omega), htext, decodePairs_digits, ← htext, hlen]
    simp

/-- Letters and padding up to a multiple of four. -/
def Padded (A : Alphabet) (cs : List UInt8) : Prop :=
  ∃ data k, cs = data ++ List.replicate k padding ∧ (∀ c ∈ data, c ∈ A.letters) ∧ k ≤ 2 ∧
    cs.length % 4 = 0

/-- Letters alone, as many as the groups of some bytes have. -/
def Unpadded (A : Alphabet) (cs : List UInt8) : Prop :=
  (∀ c ∈ cs, c ∈ A.letters) ∧ cs.length % 4 ≠ 1

/-- **No decoder accepts text that is not well formed**, whatever room the output has; it
answers with an error instead. -/
structure Strict (cs : List UInt8) : Prop where
  answers : ∀ n, (base64Decode (some cs) (some n)).isSome ∧
    (base64urlDecode (some cs) (some n)).isSome ∧ (hexDecode (some cs) (some n)).isSome
  base64 : ∀ n, Accepted (base64Decode (some cs) (some n)) → Padded base64 cs
  base64url : ∀ n, Accepted (base64urlDecode (some cs) (some n)) →
    Padded base64url cs ∨ Unpadded base64url cs
  hex : ∀ n, Accepted (hexDecode (some cs) (some n)) → HexText cs

/-- A text from its first padding character on. -/
def pads (cs : List UInt8) : List UInt8 := cs.dropWhile (· ≠ padding)

/-- Behind the first padding character there is only padding, at most two in all. -/
def PaddingAtEnd (cs : List UInt8) : Prop := (∀ c ∈ pads cs, c = padding) ∧ (pads cs).length ≤ 2

/-- What the decoders rely on and do not check. -/
structure Tidy (cs : List UInt8) : Prop where
  /-- Of groups of four letters and padding characters. -/
  base64 : cs.length % 4 = 0 → (∀ c ∈ cs, c = padding ∨ c ∈ base64.letters) → PaddingAtEnd cs
  /-- Of a text with letters up to the first padding character. -/
  base64url : (∀ c ∈ cs.takeWhile (· ≠ padding), c ∈ base64url.letters) →
    PaddingAtEnd cs ∧ if pads cs = [] then cs.length % 4 ≠ 1 else cs.length % 4 = 0

section Shape

variable {A : Alphabet} {cs : List UInt8}

theorem takeWhile_append_pads (cs : List UInt8) : cs.takeWhile (· ≠ padding) ++ pads cs = cs :=
  takeWhile_append_dropWhile

theorem padded_of_paddingAtEnd (hdata : ∀ c ∈ cs.takeWhile (· ≠ padding), c ∈ A.letters)
    (h : PaddingAtEnd cs) (hlen : cs.length % 4 = 0) : Padded A cs := by
  have hpads := eq_replicate_iff.2 ⟨rfl, h.1⟩
  refine ⟨cs.takeWhile (· ≠ padding), (pads cs).length, ?_, hdata, h.2, hlen⟩
  rw [← hpads, takeWhile_append_pads]

theorem Padded.paddingAtEnd (hA : padding ∉ A.letters) (h : Padded A cs) : PaddingAtEnd cs := by
  obtain ⟨data, k, rfl, hdata, hk, -⟩ := h
  have hpads : pads (data ++ replicate k padding) = replicate k padding := by
    rw [pads, dropWhile_append_of_pos]
    · cases k with
      | zero => rfl
      | succ k => simp
    · intro c hc
      have hne : c ≠ padding := fun heq => hA (heq ▸ hdata c hc)
      simpa using hne
  rw [PaddingAtEnd, hpads]
  refine ⟨fun c hc => eq_of_mem_replicate hc, ?_⟩
  rw [length_replicate]
  exact hk

theorem pads_of_letters (hA : padding ∉ A.letters) (h : ∀ c ∈ cs, c ∈ A.letters) : pads cs = [] := by
  rw [pads, dropWhile_eq_nil_iff]
  intro c hc
  have hne : c ≠ padding := fun heq => hA (heq ▸ h c hc)
  simpa using hne

theorem Strict.tidy (hfit : 2 * cs.length ≤ isizeMax) (h : Strict cs) : Tidy cs where
  base64 hlen hall := by
    have hacc := (accepted_base64 hfit (base64DecodeLen cs.length)).2 ⟨le_rfl, hlen, hall⟩
    exact (h.base64 _ hacc).paddingAtEnd padding_base64
  base64url hdata := by
    have hacc := (accepted_base64url hfit _).2 ⟨le_rfl, hdata⟩
    rcases h.base64url _ hacc with hpadded | ⟨hall, hlen⟩
    · have hlen : cs.length % 4 = 0 := by
        obtain ⟨-, -, -, -, -, hlen⟩ := hpadded
        exact hlen
      refine ⟨hpadded.paddingAtEnd padding_base64url, ?_⟩
      split_ifs
      · omega
      · exact hlen
    · have hnil := pads_of_letters padding_base64url hall
      rw [PaddingAtEnd, hnil, if_pos rfl]
      exact ⟨⟨nofun, Nat.zero_le _⟩, hlen⟩

theorem Tidy.strict (hfit : 2 * cs.length ≤ isizeMax) (h : Tidy cs) : Strict cs where
  answers := isSome_decode hfit
  base64 n hacc := by
    obtain ⟨-, hlen, hall⟩ := (accepted_base64 hfit n).1 hacc
    refine padded_of_paddingAtEnd ?_ (h.base64 hlen hall) hlen
    intro c hc
    have hne : c ≠ padding := by simpa using mem_takeWhile_imp hc
    exact (hall c (( takeWhile_prefix _).subset hc)).resolve_left hne
  base64url n hacc := by
    obtain ⟨-, hdata⟩ := (accepted_base64url hfit n).1 hacc
    obtain ⟨hend, hlen⟩ := h.base64url hdata
    split_ifs at hlen with hnil
    · have hwhole := takeWhile_append_pads cs
      rw [hnil, append_nil] at hwhole
      rw [hwhole] at hdata
      exact .inr ⟨hdata, hlen⟩
    · exact .inl (padded_of_paddingAtEnd hdata hend hlen)
  hex _ := hexText_of_accepted

end Shape

/-- A text that fits into memory together with an output of its length. -/
structure Text where
  bytes : List UInt8
  fits : 2 * bytes.length ≤ isizeMax

/-- **The encodings.** Every byte string survives its three encodings, and the decoders accept
well-formed text only, if and only if the text does not have what they fail to check. -/
theorem encodings_iff (bs : List UInt8) (cs : Text) :
    RoundTrips bs ∧ Strict cs.bytes ↔ Tidy cs.bytes := by
  have htrips : RoundTrips bs := ⟨roundTrip_base64 bs, roundTrip_base64url bs, roundTrip_hex bs⟩
  exact ⟨fun h => h.2.tidy cs.fits, fun h => ⟨htrips, h.strict cs.fits⟩⟩

theorem innerPadding_accepted : base64Decode (some (ascii "TQ=A")) (some 3) = some ⟨1, ascii "M"⟩ ∧
      ¬ ∀ (bs : List UInt8) (cs : Text), RoundTrips bs ∧ Strict cs.bytes := by
  have hreply : base64Decode (some (ascii "TQ=A")) (some 3) = some ⟨1, ascii "M"⟩ := by decide
  refine ⟨hreply, fun h => ?_⟩
  have hstrict := (h [] ⟨ascii "TQ=A", by decide⟩).2
  have hpadded := hstrict.base64 3 ⟨_, hreply, by decide⟩
  have hend := (hpadded.paddingAtEnd padding_base64).1
  exact absurd (hend 65 (by decide)) (by decide)

end Arth.Encoding
