import Mathlib

/-!
# FNV-1a

* `fnv1aStep_injective` — one step loses nothing: the prime is invertible.
* `fnv1a_append_inj` — a common ending neither adds nor removes a collision.
* `toList_append` — the bytes of a concatenation.
-/

namespace Fnv

open List

def prime : UInt64 := 0x100000001b3

def offsetBasis : UInt64 := 0xcbf29ce484222325

def fnv1aStep (h : UInt64) (b : UInt8) : UInt64 := (h ^^^ b.toUInt64) * prime

def fnv1a (bs : List UInt8) : UInt64 := bs.foldl fnv1aStep offsetBasis

theorem fnv1aStep_injective (b : UInt8) : Function.Injective fun h => fnv1aStep h b := by
  intro h h' heq
  -- the inverse of the prime
  have hinv : prime * 0xce965057aff6957b = 1 := by decide
  have hxor : h ^^^ b.toUInt64 = h' ^^^ b.toUInt64 := by
    have := congrArg (· * 0xce965057aff6957b) heq
    simpa only [fnv1aStep, UInt64.mul_assoc, hinv, UInt64.mul_one] using this
  have := congrArg (· ^^^ b.toUInt64) hxor
  simpa only [UInt64.xor_assoc, UInt64.xor_self, UInt64.xor_zero] using this

theorem foldl_injective (bs : List UInt8) : Function.Injective fun h => bs.foldl fnv1aStep h := by
  induction bs with
  | nil => exact fun _ _ h => h
  | cons b bs ih =>
    intro h h' heq
    exact fnv1aStep_injective b (ih heq)

/-- **Only the beginnings count.** Strings with a common ending collide when what is in front
of it does. -/
theorem fnv1a_append_inj (as bs cs : List UInt8) :
    fnv1a (as ++ cs) = fnv1a (bs ++ cs) ↔ fnv1a as = fnv1a bs := by
  unfold fnv1a
  rw [foldl_append, foldl_append]
  exact (foldl_injective cs).eq_iff

theorem toList_loop (bs : ByteArray) (n i : Nat) (hn : n = bs.size - i) (r : List UInt8) :
    ByteArray.toList.loop bs i r = r.reverse ++ bs.data.toList.drop i := by
  induction n generalizing i r with
  | zero =>
    have hlen : bs.data.toList.length ≤ i := by
      change bs.size ≤ i
      omega
    unfold ByteArray.toList.loop
    rw [if_neg (by omega), drop_eq_nil_of_le hlen, append_nil]
  | succ n ih =>
    have hlt : i < bs.size := by omega
    have hlt' : i < bs.data.toList.length := hlt
    have hget : bs.get! i = bs.data.toList[i] := by
      change bs.data[i]! = bs.data.toList[i]
      rw [getElem!_pos bs.data i hlt]
      exact (Array.getElem_toList hlt).symm
    unfold ByteArray.toList.loop
    rw [if_pos hlt, ih (i + 1) (by omega), drop_eq_getElem_cons hlt', hget]
    simp

theorem toList_eq (bs : ByteArray) : bs.toList = bs.data.toList :=
  toList_loop bs _ 0 rfl []

theorem toList_append (as bs : ByteArray) : (as ++ bs).toList = as.toList ++ bs.toList := by
  rw [toList_eq, toList_eq, toList_eq, ByteArray.toList_data_append]

end Fnv
