import Arth.Lib.ByteReader

/-!
# Readers as a machine runs them

The offsets are words of 64 bits, every access is checked against the end of the input, and room
for a table is asked for before the table is read.

* `Fault` — what can go wrong besides an error that the reader reports.
* `Runs c r` — the machine's reader `c` does what the plain reader `r` does, and has no fault.
* `Eats r C` — a value that `r` returns was read from a piece of the input that `C` relates to it.
-/

namespace ByteReader

open List

variable {ε α β : Type} {a b off off' : ℕ}

inductive Fault where
  | overflow
  | outOfBounds
  | allocation
  deriving DecidableEq

/-- How a machine's reader ends. -/
inductive Attempt (ε α : Type) where
  | ok (a : α)
  | error (e : ε)
  | fault (f : Fault)
  deriving DecidableEq

namespace Attempt

def bind (o : Attempt ε α) (f : α → Attempt ε β) : Attempt ε β :=
  match o with
  | .ok a => f a
  | .error e => .error e
  | .fault x => .fault x

instance : Monad (Attempt ε) where
  pure := .ok
  bind := Attempt.bind

def ofExcept : Except ε α → Attempt ε α
  | .ok a => .ok a
  | .error e => .error e

/-- The sum of two words. -/
def addWord (a b : ℕ) : Attempt ε ℕ := if a + b < 2 ^ 64 then .ok (a + b) else .fault .overflow

/-- The difference of two words. -/
def subWord (a b : ℕ) : Attempt ε ℕ := if b ≤ a then .ok (a - b) else .fault .overflow

/-- `bytes[lo..hi]`. -/
def slice (bytes : List UInt8) (lo hi : ℕ) : Attempt ε (List UInt8) :=
  if lo ≤ hi ∧ hi ≤ bytes.length then .ok ((bytes.drop lo).take (hi - lo))
  else .fault .outOfBounds

/-- `bytes[i]`. -/
def index (bytes : List UInt8) (i : ℕ) : Attempt ε UInt8 :=
  match bytes[i]? with
  | some b => .ok b
  | none => .fault .outOfBounds

theorem addWord_of_lt (h : a + b < 2 ^ 64) : (addWord a b : Attempt ε ℕ) = .ok (a + b) := if_pos h

theorem subWord_of_le (h : b ≤ a) : (subWord a b : Attempt ε ℕ) = .ok (a - b) := if_pos h

theorem slice_of_le {bytes : List UInt8} {lo hi : ℕ} (h : lo ≤ hi) (hlen : hi ≤ bytes.length) :
    (slice bytes lo hi : Attempt ε (List UInt8)) = .ok ((bytes.drop lo).take (hi - lo)) :=
  if_pos ⟨h, hlen⟩

end Attempt

/-- A reader of the machine: whole input and offset to value and new offset. -/
def MachineReader (ε α : Type) : Type := List UInt8 → ℕ → Attempt ε (α × ℕ)

namespace MachineReader

def pure (a : α) : MachineReader ε α := fun _ off => .ok (a, off)

def bind (c : MachineReader ε α) (f : α → MachineReader ε β) : MachineReader ε β :=
  fun bytes off => (c bytes off).bind fun p => f p.1 bytes p.2

instance : Monad (MachineReader ε) where
  pure := MachineReader.pure
  bind := MachineReader.bind

/-- The current offset. -/
def pos : MachineReader ε ℕ := fun _ off => .ok (off, off)

def more : MachineReader ε Bool := fun bytes off => .ok (decide (off < bytes.length), off)

/-- A computation on words. -/
def lift (o : Attempt ε α) : MachineReader ε α := fun _ off => o.bind fun a => .ok (a, off)

/-- The next `n` bytes, or what `short` does at the place. -/
def take (n : ℕ) (short : MachineReader ε (List UInt8)) : MachineReader ε (List UInt8) :=
  fun bytes off =>
    (Attempt.addWord off n).bind fun hi =>
      if bytes.length < hi then short bytes off
      else (Attempt.slice bytes off hi).bind fun bs => .ok (bs, hi)

/-- The next byte, or what `short` does at the place. -/
def byte (short : MachineReader ε UInt8) : MachineReader ε UInt8 := fun bytes off =>
  if bytes.length ≤ off then short bytes off
  else (Attempt.index bytes off).bind fun b =>
    (Attempt.addWord off 1).bind fun off' => .ok (b, off')

/-- Run a reader `n` times. -/
def many (c : MachineReader ε α) : ℕ → MachineReader ε (List α)
  | 0 => Pure.pure []
  | n + 1 => c >>= fun a => many c n >>= fun as => Pure.pure (a :: as)

/-- Ask for room for `n` entries. -/
def reserve (grants : ℕ → Bool) (n : ℕ) : MachineReader ε Unit := fun _ off =>
  if grants n then .ok ((), off) else .fault .allocation

end MachineReader

/-- An input that a machine can hold, and an offset in it behind the first byte. -/
structure Inside (bytes : List UInt8) (off : ℕ) : Prop where
  fits : bytes.length < 2 ^ 63
  pos : 0 < off
  le : off ≤ bytes.length

def Runs (c : MachineReader ε α) (r : Reader ε α) : Prop :=
  ∀ bytes off, Inside bytes off → c bytes off = .ofExcept (r bytes off) ∧
    ∀ a off', r bytes off = .ok (a, off') → off ≤ off' ∧ off' ≤ bytes.length

variable {r : Reader ε α} {c : MachineReader ε α} {bytes : List UInt8} {a : α}

theorem Runs.inside (h : Runs c r) (hin : Inside bytes off) (hr : r bytes off = .ok (a, off')) :
    Inside bytes off' := by
  obtain ⟨hle, hlen⟩ := (h bytes off hin).2 a off' hr
  exact ⟨hin.fits, Nat.lt_of_lt_of_le hin.pos hle, hlen⟩

theorem Runs.pure (a : α) : Runs (Pure.pure a : MachineReader ε α) (Pure.pure a) := by
  intro bytes off hin
  refine ⟨rfl, fun b off' heq => ?_⟩
  cases heq
  exact ⟨le_rfl, hin.le⟩

variable {f : α → Reader ε β} {g : α → Reader ε β}

theorem bind_eq_ok {b : β} (h : (r >>= f) bytes off = .ok (b, off')) :
    ∃ a off₁, r bytes off = .ok (a, off₁) ∧ f a bytes off₁ = .ok (b, off') := by
  change Reader.bind r f bytes off = _ at h
  unfold Reader.bind at h
  cases hr : r bytes off with
  | error e =>
    rw [hr] at h
    cases h
  | ok p =>
    rw [hr] at h
    exact ⟨p.1, p.2, rfl, h⟩

theorem bind_of_ok (h : r bytes off = .ok (a, off')) : (r >>= f) bytes off = f a bytes off' := by
  change Reader.bind r f bytes off = _
  rw [Reader.bind, h]

theorem bind_ofExcept {f : α → MachineReader ε β} (h : c bytes off = .ofExcept (r bytes off))
    (hf : ∀ a off', r bytes off = .ok (a, off') → f a bytes off' = .ofExcept (g a bytes off')) :
    (c >>= f) bytes off = .ofExcept ((r >>= g) bytes off) := by
  change (c bytes off).bind _ = .ofExcept (Reader.bind r g bytes off)
  rw [h]
  unfold Reader.bind
  cases hr : r bytes off with
  | error e => rfl
  | ok p => exact hf p.1 p.2 hr

theorem Runs.bind {f : α → MachineReader ε β} (hc : Runs c r) (hf : ∀ a, Runs (f a) (g a)) :
    Runs (c >>= f) (r >>= g) := by
  intro bytes off hin
  constructor
  · refine bind_ofExcept (hc bytes off hin).1 fun a off₁ hr => ?_
    exact (hf a bytes off₁ (hc.inside hin hr)).1
  · intro b off' hb
    obtain ⟨a, off₁, hr, hg⟩ := bind_eq_ok hb
    obtain ⟨hle, hlen⟩ := (hc bytes off hin).2 a off₁ hr
    obtain ⟨hle', hlen'⟩ := (hf a bytes off₁ (hc.inside hin hr)).2 b off' hg
    exact ⟨hle.trans hle', hlen'⟩

variable {err : ℕ → ε}

theorem Runs.fail (h : ∀ bytes off, Inside bytes off → c bytes off = .error (err off)) :
    Runs c (Reader.fail err) := by
  intro bytes off hin
  refine ⟨h bytes off hin, fun a off' heq => ?_⟩
  cases heq

theorem Runs.take {n : ℕ} {short : MachineReader ε (List UInt8)} (hn : n < 2 ^ 63)
    (h : Runs short (Reader.fail err)) : Runs (MachineReader.take n short) (Reader.take n err) := by
  intro bytes off hin
  have hfits := hin.fits
  have hle := hin.le
  unfold MachineReader.take Reader.take
  rw [Attempt.addWord_of_lt (by omega)]
  show (if bytes.length < off + n then _ else _) = _ ∧ _
  by_cases hlen : bytes.length < off + n
  · rw [if_pos hlen, if_pos hlen]
    exact h bytes off hin
  · rw [if_neg hlen, if_neg hlen, Attempt.slice_of_le (by omega) (by omega), Nat.add_sub_cancel_left]
    refine ⟨rfl, fun a off' heq => ?_⟩
    cases heq
    exact ⟨Nat.le_add_right off n, by omega⟩

theorem Runs.byte {short : MachineReader ε UInt8}
    (h : Runs short (Reader.fail err)) : Runs (MachineReader.byte short) (Reader.byte err) := by
  intro bytes off hin
  have hfits := hin.fits
  unfold MachineReader.byte Reader.byte
  by_cases hlen : bytes.length ≤ off
  · rw [if_pos hlen, getElem?_eq_none hlen]
    exact h bytes off hin
  · have hlt : off < bytes.length := by omega
    unfold Attempt.index
    rw [if_neg hlen, getElem?_eq_getElem hlt]
    rw [Attempt.addWord_of_lt (by omega)]
    refine ⟨rfl, fun a off' heq => ?_⟩
    cases heq
    exact ⟨Nat.le_add_right off 1, hlt⟩

theorem Runs.many (h : Runs c r) (n : ℕ) : Runs (c.many n) (r.many n) := by
  induction n with
  | zero => exact Runs.pure []
  | succ n ih => exact h.bind fun a => ih.bind fun as => Runs.pure (a :: as)

theorem Runs.more {c c' : MachineReader ε α} {r r' : Reader ε α} (h : Runs c r) (h' : Runs c' r') :
    Runs (MachineReader.more >>= fun m => if m then c else c')
      (Reader.more >>= fun m => if m then r else r') := by
  intro bytes off hin
  show (if decide (off < bytes.length) then c else c') bytes off =
      .ofExcept ((if decide (off < bytes.length) then r else r') bytes off) ∧
    ∀ a off', (if decide (off < bytes.length) then r else r') bytes off = .ok (a, off') → _
  by_cases hlt : off < bytes.length
  · rw [decide_eq_true hlt]
    exact h bytes off hin
  · rw [decide_eq_false hlt]
    exact h' bytes off hin

theorem Runs.pos {f : ℕ → MachineReader ε α} {g : ℕ → Reader ε α} (h : ∀ o, Runs (f o) (g o)) :
    Runs (MachineReader.pos >>= f) (Reader.pos >>= g) :=
  fun bytes off hin => h off bytes off hin

/-! ## What a value was read from -/

theorem toLe_ofLe (bs : List UInt8) : toLe bs.length (ofLe bs) = bs := by
  induction bs with
  | nil => rfl
  | cons b bs ih =>
    have hlow : UInt8.ofNat (b.toNat + 256 * ofLe bs) = b := by
      apply UInt8.toNat_inj.1
      have := b.toNat_lt
      simp only [UInt8.toNat_ofNat']
      omega
    have hhigh : (b.toNat + 256 * ofLe bs) / 256 = ofLe bs := by
      have := b.toNat_lt
      omega
    show UInt8.ofNat (b.toNat + 256 * ofLe bs) ::
      toLe bs.length ((b.toNat + 256 * ofLe bs) / 256) = _
    rw [hlow, hhigh, ih]

theorem ofLe_lt (bs : List UInt8) : ofLe bs < 256 ^ bs.length := by
  induction bs with
  | nil => decide
  | cons b bs ih =>
    have := b.toNat_lt
    show b.toNat + 256 * ofLe bs < 256 ^ (bs.length + 1)
    omega

def Eats (r : Reader ε α) (C : List UInt8 → α → Prop) : Prop :=
  ∀ bytes off a off', r bytes off = .ok (a, off') → off ≤ bytes.length →
    ∃ piece rest, bytes.drop off = piece ++ rest ∧ off' = off + piece.length ∧ C piece a

/-- One piece after the other. -/
def Joined (C : List UInt8 → α → Prop) (D : α → List UInt8 → β → Prop) (piece : List UInt8)
    (b : β) : Prop := ∃ a first second, piece = first ++ second ∧ C first a ∧ D a second b

theorem Eats.mono {C D : List UInt8 → α → Prop} (h : Eats r C)
    (hCD : ∀ piece a, C piece a → D piece a) : Eats r D := by
  intro bytes off a off' hr hle
  obtain ⟨piece, rest, hdrop, hoff, hC⟩ := h bytes off a off' hr hle
  exact ⟨piece, rest, hdrop, hoff, hCD piece a hC⟩

theorem Eats.pure (a : α) : Eats (Pure.pure a : Reader ε α) fun piece b => piece = [] ∧ b = a := by
  intro bytes off b off' heq _
  cases heq
  exact ⟨[], bytes.drop off, rfl, rfl, rfl, rfl⟩

theorem Eats.fail (err : ℕ → ε) (C : List UInt8 → α → Prop) : Eats (Reader.fail err) C := by
  intro bytes off b off' heq _
  cases heq

variable {C : List UInt8 → α → Prop}

theorem Eats.bind {D : α → List UInt8 → β → Prop} (hr : Eats r C) (hf : ∀ a, Eats (f a) (D a)) :
    Eats (r >>= f) (Joined C D) := by
  intro bytes off b off' heq hle
  change Reader.bind r f bytes off = _ at heq
  unfold Reader.bind at heq
  cases hfirst : r bytes off with
  | error e =>
    rw [hfirst] at heq
    cases heq
  | ok p =>
    obtain ⟨a, off₁⟩ := p
    rw [hfirst] at heq
    obtain ⟨first, rest, hdrop, rfl, hC⟩ := hr bytes off a off₁ hfirst hle
    have hlen : off + first.length ≤ bytes.length := by
      have := congrArg length hdrop
      rw [length_drop, length_append] at this
      omega
    obtain ⟨second, rest', hdrop', rfl, hD⟩ := hf a bytes _ b off' heq hlen
    refine ⟨first ++ second, rest', ?_, ?_, a, first, second, rfl, hC, hD⟩
    · have hrest : rest = second ++ rest' := by
        rw [← hdrop', ← drop_drop, hdrop, drop_left]
      rw [hdrop, hrest, append_assoc]
    · rw [length_append, add_assoc]

theorem Eats.pos {f : ℕ → Reader ε α} (h : ∀ o, Eats (f o) C) : Eats (Reader.pos >>= f) C :=
  fun bytes off a off' heq hle => h off bytes off a off' heq hle

theorem Eats.take (n : ℕ) (err : ℕ → ε) :
    Eats (Reader.take n err) fun piece bs => piece = bs ∧ bs.length = n := by
  intro bytes off bs off' heq hle
  unfold Reader.take at heq
  by_cases hlen : bytes.length < off + n
  · rw [if_pos hlen] at heq
    cases heq
  · rw [if_neg hlen] at heq
    cases heq
    have hlength : ((bytes.drop off).take n).length = n := by
      rw [length_take, length_drop]
      omega
    refine ⟨(bytes.drop off).take n, (bytes.drop off).drop n, ?_, ?_, rfl, hlength⟩
    · exact (take_append_drop n _).symm
    · rw [hlength]

theorem Eats.byte (err : ℕ → ε) : Eats (Reader.byte err) fun piece b => piece = [b] := by
  intro bytes off b off' heq _
  unfold Reader.byte at heq
  cases hget : bytes[off]? with
  | none =>
    rw [hget] at heq
    cases heq
  | some x =>
    rw [hget] at heq
    cases heq
    obtain ⟨hlt, rfl⟩ := List.getElem?_eq_some_iff.1 hget
    exact ⟨[bytes[off]], bytes.drop (off + 1), drop_eq_getElem_cons hlt, rfl, rfl⟩

theorem Eats.many (h : Eats r C) (n : ℕ) : Eats (r.many n) fun piece as => as.length = n ∧
      ∃ pieces, piece = pieces.flatten ∧ Forall₂ C pieces as := by
  induction n with
  | zero =>
    refine (Eats.pure []).mono ?_
    rintro piece as ⟨rfl, rfl⟩
    exact ⟨rfl, [], rfl, .nil⟩
  | succ n ih =>
    refine (h.bind fun a => ih.bind fun as => Eats.pure (a :: as)).mono ?_
    rintro piece as ⟨a, first, _, rfl, hC, as', second, _, rfl, ⟨hlen, pieces, rfl, hall⟩, rfl, rfl⟩
    refine ⟨congrArg (· + 1) hlen, first :: pieces, ?_, .cons hC hall⟩
    rw [append_nil, flatten_cons]

/-- The reader reads the same value wherever the piece stands. -/
def Local (r : Reader ε α) : Prop := Eats r (Reads r)

theorem Local.pure (a : α) : Local (Pure.pure a : Reader ε α) := by
  refine (Eats.pure a).mono ?_
  rintro piece b ⟨rfl, rfl⟩
  exact Reads.pure b

theorem Local.fail (err : ℕ → ε) : Local (Reader.fail err : Reader ε α) := Eats.fail err _

theorem Local.bind (hr : Local r) (hf : ∀ a, Local (f a)) : Local (r >>= f) := by
  refine (Eats.bind hr hf).mono ?_
  rintro piece b ⟨a, first, second, rfl, hfirst, hsecond⟩
  exact hfirst.bind hsecond

theorem Local.take (n : ℕ) (err : ℕ → ε) : Local (Reader.take n err) := by
  refine (Eats.take n err).mono ?_
  rintro piece bs ⟨rfl, hlen⟩
  exact reads_take err hlen

theorem Local.byte (err : ℕ → ε) : Local (Reader.byte err) := by
  refine (Eats.byte err).mono ?_
  rintro piece b rfl
  exact reads_byte err b

end ByteReader
