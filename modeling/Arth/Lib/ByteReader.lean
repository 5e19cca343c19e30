import Mathlib

/-!
# Readers over a byte sequence

A reader takes the whole byte sequence and an offset, and returns a value with the
offset behind it, or an error.

* `Reads r enc v`: wherever `enc` stands in the input, `r` started at it returns
  `v` and stops right behind `enc`.
* `Reads.bind`, `Reads.map`, `Reads.many`: encodings of the parts, in order, make the
  encoding of the whole.
* `Yields r P`: whatever the input, the value that `r` returns satisfies `P`.
-/

namespace ByteReader

open List

variable {ε α β : Type}

/-- A reader with errors in `ε`: whole input and offset to value and new offset. -/
def Reader (ε α : Type) : Type := List UInt8 → Nat → Except ε (α × Nat)

namespace Reader

def pure (a : α) : Reader ε α := fun _ off => .ok (a, off)

def bind (r : Reader ε α) (f : α → Reader ε β) : Reader ε β := fun bytes off =>
  match r bytes off with
  | .ok (a, off') => f a bytes off'
  | .error e => .error e

instance : Monad (Reader ε) where
  pure := Reader.pure
  bind := Reader.bind

/-- Fail with an error that may name the current offset. -/
def fail (err : Nat → ε) : Reader ε α := fun _ off => .error (err off)

/-- The current offset. -/
def pos : Reader ε Nat := fun _ off => .ok (off, off)

/-- Is the offset before the end of the input? -/
def more : Reader ε Bool := fun bytes off => .ok (decide (off < bytes.length), off)

/-- The next `n` bytes. -/
def take (n : Nat) (err : Nat → ε) : Reader ε (List UInt8) := fun bytes off =>
  if bytes.length < off + n then .error (err off) else .ok ((bytes.drop off).take n, off + n)

/-- The next byte. -/
def byte (err : Nat → ε) : Reader ε UInt8 := fun bytes off =>
  match bytes[off]? with
  | some b => .ok (b, off + 1)
  | none => .error (err off)

/-- Run a reader `n` times. -/
def many (r : Reader ε α) : Nat → Reader ε (List α)
  | 0 => pure []
  | n + 1 => r >>= fun a => many r n >>= fun as => Pure.pure (a :: as)

end Reader

/-- The `k` low bytes of a number, low byte first. -/
def toLe : Nat → Nat → List UInt8
  | 0, _ => []
  | k + 1, n => UInt8.ofNat n :: toLe k (n / 256)

def ofLe : List UInt8 → Nat
  | [] => 0
  | b :: bs => b.toNat + 256 * ofLe bs

@[simp] theorem length_toLe (k n : Nat) : (toLe k n).length = k := by
  induction k generalizing n with
  | zero => rfl
  | succ k ih => simp [toLe, ih]

theorem ofLe_toLe (k n : Nat) (h : n < 256 ^ k) : ofLe (toLe k n) = n := by
  induction k generalizing n with
  | zero => simp at h; simp [toLe, ofLe, h]
  | succ k ih =>
    have hq : n / 256 < 256 ^ k := by
      rw [Nat.div_lt_iff_lt_mul (by decide)]; rw [Nat.pow_succ] at h; exact h
    have hb : (UInt8.ofNat n).toNat = n % 256 := by simp
    simp only [toLe, ofLe, ih _ hq, hb]
    omega

/-- `r` started at `enc` returns `v` and stops behind `enc`, whatever stands around it. -/
def Reads (r : Reader ε α) (enc : List UInt8) (v : α) : Prop :=
  ∀ front back, r (front ++ enc ++ back) front.length = .ok (v, front.length + enc.length)

theorem Reads.pure (v : α) : Reads (Pure.pure v : Reader ε α) [] v := fun _ _ => rfl

variable {a : α} {f : α → Reader ε β} {r : Reader ε α} {b : β}

theorem Reads.bind {e₁ e₂ : List UInt8}
    (h₁ : Reads r e₁ a) (h₂ : Reads (f a) e₂ b) : Reads (r >>= f) (e₁ ++ e₂) b := by
  intro front back
  have h := h₁ front (e₂ ++ back)
  have h' := h₂ (front ++ e₁) back
  simp only [append_assoc, length_append] at h h'
  simp only [append_assoc, length_append]
  show Reader.bind r f _ _ = _
  rw [Reader.bind, h]
  simp only [h', add_assoc]

variable {e : List UInt8}

theorem Reads.map (f : α → β) (h : Reads r e a) :
    Reads (r >>= fun x => Pure.pure (f x)) e (f a) := by
  have hf : Reads (r >>= fun x => Pure.pure (f x)) (e ++ []) (f a) := by
    refine Reads.bind h ?_
    exact Reads.pure (f a)
  rwa [append_nil] at hf

theorem reads_byte (err : Nat → ε) (b : UInt8) : Reads (Reader.byte err) [b] b := by
  intro front back
  simp [Reader.byte]

theorem reads_take (err : Nat → ε) {n : Nat} (h : e.length = n) :
    Reads (Reader.take n err) e e := by
  intro front back
  have hlt : ¬ (front ++ e ++ back).length < front.length + n := by simp; omega
  rw [Reader.take, if_neg hlt, append_assoc, drop_left, ← h, take_left]

theorem Reads.many {r : Reader ε β} {enc : α → List UInt8} {g : α → β} (as : List α)
    (h : ∀ a ∈ as, Reads r (enc a) (g a)) :
    Reads (r.many as.length) (as.flatMap enc) (as.map g) := by
  induction as with
  | nil => exact Reads.pure []
  | cons a as ih =>
    have ha := h a (by simp)
    have has := ih fun x hx => h x (by simp [hx])
    exact ha.bind (has.map (g a :: ·))

theorem Reads.more {s : Reader ε α} (hne : e ≠ []) (h : Reads r e a) :
    Reads (Reader.more >>= fun m => if m then r else s) e a := by
  intro front back
  have hlt : front.length < (front ++ e ++ back).length := by
    have := length_pos_of_ne_nil hne
    simp only [length_append]; omega
  show Reader.bind _ _ _ _ = _
  simp only [Reader.bind, Reader.more, hlt, decide_true, if_true]
  exact h front back

theorem reads_pos {f : Nat → Reader ε β}
    (h : ∀ off, Reads (f off) e b) : Reads (Reader.pos >>= f) e b := by
  intro front back
  exact h _ front back

/-- A value that `r` returns satisfies `P`, whatever the input. -/
def Yields (r : Reader ε α) (P : α → Prop) : Prop :=
  ∀ bytes off a off', r bytes off = .ok (a, off') → P a

variable {r : Reader ε α} {P : α → Prop}

theorem Yields.pure (h : P a) : Yields (Pure.pure a : Reader ε α) P := by
  intro bytes off a' off' heq
  cases heq
  exact h

theorem Yields.fail (err : Nat → ε) : Yields (Reader.fail err : Reader ε α) P := by
  intro bytes off a off' heq
  cases heq

theorem Yields.trivial (r : Reader ε α) : Yields r fun _ => True := fun _ _ _ _ _ => True.intro

theorem Yields.bind {Q : β → Prop} (hr : Yields r P)
    (hf : ∀ a, P a → Yields (f a) Q) : Yields (r >>= f) Q := by
  intro bytes off b off' heq
  change Reader.bind r f bytes off = _ at heq
  unfold Reader.bind at heq
  cases hfirst : r bytes off with
  | error e =>
    rw [hfirst] at heq
    cases heq
  | ok read =>
    rw [hfirst] at heq
    exact hf read.1 (hr bytes off read.1 read.2 hfirst) bytes read.2 b off' heq

theorem Yields.many (h : Yields r P) (n : Nat) : Yields (r.many n) fun as => ∀ a ∈ as, P a := by
  induction n with
  | zero => exact Yields.pure (by simp)
  | succ n ih =>
    refine h.bind fun a ha => ih.bind fun as has => Yields.pure ?_
    exact forall_mem_cons.2 ⟨ha, has⟩

end ByteReader
