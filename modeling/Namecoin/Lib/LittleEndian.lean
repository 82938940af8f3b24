import Mathlib.Algebra.Order.Group.Nat
import Mathlib.Algebra.Order.Monoid.Unbundled.Pow

/-! # Little-endian byte strings

`encodeLE k n` is the `k` lowest bytes of `n`, the lowest first, and
`decodeLE` reads a byte string back as a number. They are inverse to each
other on numbers below `256 ^ k` and on strings of length `k`
(`decodeLE_encodeLE`, `encodeLE_decodeLE`). A string whose last byte is not zero
is the only such string for its value (`concat_eq_of_decodeLE_eq`). -/

namespace Lib.LittleEndian

/-- The `k` lowest bytes of `n`, lowest first. -/
def encodeLE : Nat → Nat → List UInt8
  | 0, _ => []
  | k + 1, n => UInt8.ofNat (n % 256) :: encodeLE k (n / 256)

/-- The number whose bytes, lowest first, are `bs`. -/
def decodeLE : List UInt8 → Nat
  | [] => 0
  | b :: bs => b.toNat + 256 * decodeLE bs

@[simp] theorem length_encodeLE (k n : Nat) : (encodeLE k n).length = k := by
  induction k generalizing n with
  | zero => rfl
  | succ k ih => simp [encodeLE, ih]

theorem decodeLE_lt (bs : List UInt8) : decodeLE bs < 256 ^ bs.length := by
  induction bs with
  | nil => simp [decodeLE]
  | cons b bs ih =>
    have hb := b.toNat_lt
    simp only [decodeLE, List.length_cons, pow_succ]
    omega

theorem decodeLE_append (xs ys : List UInt8) :
    decodeLE (xs ++ ys) = decodeLE xs + 256 ^ xs.length * decodeLE ys := by
  induction xs with
  | nil => simp [decodeLE]
  | cons x xs ih =>
    rw [List.cons_append, decodeLE, decodeLE, ih, List.length_cons, pow_succ, Nat.mul_add,
      ← Nat.mul_assoc, Nat.mul_comm 256 (256 ^ xs.length), Nat.add_assoc]

theorem decodeLE_encodeLE {k n : Nat} (h : n < 256 ^ k) : decodeLE (encodeLE k n) = n := by
  induction k generalizing n with
  | zero =>
    simp only [pow_zero, Nat.lt_one_iff] at h
    simp [h, encodeLE, decodeLE]
  | succ k ih =>
    have hdiv : n / 256 < 256 ^ k := by
      rw [Nat.div_lt_iff_lt_mul (by decide), ← pow_succ]
      exact h
    have hlow : (UInt8.ofNat (n % 256)).toNat = n % 256 := by simp
    simp only [encodeLE, decodeLE, ih hdiv, hlow]
    omega

theorem encodeLE_decodeLE (bs : List UInt8) : encodeLE bs.length (decodeLE bs) = bs := by
  induction bs with
  | nil => rfl
  | cons b bs ih =>
    have hb := b.toNat_lt
    -- the low byte is `b`, and the rest is the number of `bs`
    have hmod : (b.toNat + 256 * decodeLE bs) % 256 = b.toNat := by omega
    have hdiv : (b.toNat + 256 * decodeLE bs) / 256 = decodeLE bs := by omega
    rw [List.length_cons, decodeLE, encodeLE, hmod, hdiv, ih, UInt8.ofNat_toNat]

/-! ## Strings with a nonzero last byte -/

theorem decodeLE_concat (xs : List UInt8) (c : UInt8) :
    decodeLE (xs ++ [c]) = decodeLE xs + 256 ^ xs.length * c.toNat := by
  rw [decodeLE_append, decodeLE, decodeLE, Nat.mul_zero, Nat.add_zero]

/-- A nonzero last byte puts the value at or above `256 ^ (length - 1)`. -/
theorem pow_le_decodeLE {xs : List UInt8} {c : UInt8} (hc : c ≠ 0) :
    256 ^ xs.length ≤ decodeLE (xs ++ [c]) := by
  have hc' : 0 < c.toNat := Nat.pos_of_ne_zero fun h => hc (UInt8.toNat_inj.mp h)
  rw [decodeLE_concat]
  exact (Nat.le_mul_of_pos_right _ hc').trans (Nat.le_add_left _ _)

/-- Two strings with a nonzero last byte and one little-endian value are equal: the value
fixes the length, and the length and the value fix the bytes. -/
theorem concat_eq_of_decodeLE_eq {xs ys : List UInt8} {c d : UInt8} (hc : c ≠ 0) (hd : d ≠ 0)
    (h : decodeLE (xs ++ [c]) = decodeLE (ys ++ [d])) : xs ++ [c] = ys ++ [d] := by
  have hcx : 256 ^ xs.length ≤ decodeLE (xs ++ [c]) := pow_le_decodeLE hc
  have hdy : 256 ^ ys.length ≤ decodeLE (ys ++ [d]) := pow_le_decodeLE hd
  have hltx := decodeLE_lt (xs ++ [c])
  have hlty := decodeLE_lt (ys ++ [d])
  simp only [List.length_append, List.length_singleton] at hltx hlty
  have h1 := (Nat.pow_lt_pow_iff_right (by decide)).mp (hcx.trans_lt (h ▸ hlty))
  have h2 := (Nat.pow_lt_pow_iff_right (by decide)).mp (hdy.trans_lt (h ▸ hltx))
  have hlen : (xs ++ [c]).length = (ys ++ [d]).length := by
    simp only [List.length_append, List.length_singleton]
    omega
  rw [← encodeLE_decodeLE (xs ++ [c]), ← encodeLE_decodeLE (ys ++ [d]), h, hlen]

/-! ## The top bit of a byte -/

theorem and_0x7F (b : UInt8) : (b &&& 0x7F).toNat = b.toNat % 128 := by
  rw [UInt8.toNat_and]
  exact Nat.and_two_pow_sub_one_eq_mod b.toNat 7

theorem and_0x80_ne_zero (b : UInt8) : b &&& 0x80 ≠ 0 ↔ 128 ≤ b.toNat := by
  have key : ∀ i : Fin 256, (UInt8.ofNat i.val &&& 0x80 ≠ 0 ↔ 128 ≤ i.val) := by decide +kernel
  simpa [UInt8.ofNat_toNat] using key ⟨b.toNat, b.toNat_lt⟩

end Lib.LittleEndian
