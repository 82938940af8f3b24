import Namecoin.Lib.LittleEndian

/-! # The bytewise order of byte strings

A key-value store with the bytewise comparator orders its keys as `<` on
`List UInt8`: lexicographically, a proper prefix first. Two keys whose first
parts have one length compare by those parts first, and by the rest only when
they agree (`append_lt_append_iff_of_length_eq`). A number written in `k` bytes
with the highest first (the reverse of `encodeLE`) compares as the number
(`encodeBE_lt_encodeBE_iff`), which is why keys hold heights in big endian. -/

namespace Lib.Bytewise
open Lib.LittleEndian

variable {α : Type} [LT α]

/-- Keys that agree on a first part of one length compare by the rest. -/
theorem append_lt_append_iff_of_length_eq {p q s t : List α} (h : p.length = q.length) :
    p ++ s < q ++ t ↔ p < q ∨ (p = q ∧ s < t) := by
  induction p generalizing q with
  | nil =>
    cases q with
    | nil => simp [List.not_lt_nil]
    | cons b q => exact absurd h (by simp)
  | cons a p ih =>
    cases q with
    | nil => exact absurd h (by simp)
    | cons b q =>
      have hlen : p.length = q.length := Nat.succ.inj h
      rw [List.cons_append, List.cons_append, List.cons_lt_cons_iff, List.cons_lt_cons_iff,
        ih hlen, List.cons.injEq]
      constructor
      · rintro (hab | ⟨rfl, hpq | ⟨rfl, hst⟩⟩)
        · exact .inl (.inl hab)
        · exact .inl (.inr ⟨rfl, hpq⟩)
        · exact .inr ⟨⟨rfl, rfl⟩, hst⟩
      · rintro ((hab | ⟨rfl, hpq⟩) | ⟨⟨rfl, rfl⟩, hst⟩)
        · exact .inl hab
        · exact .inr ⟨rfl, .inl hpq⟩
        · exact .inr ⟨rfl, .inr ⟨rfl, hst⟩⟩

/-- The `k` lowest bytes of `n`, the highest first. -/
def encodeBE (k n : Nat) : List UInt8 := (encodeLE k n).reverse

theorem encodeBE_succ (k n : Nat) :
    encodeBE (k + 1) n = encodeBE k (n / 256) ++ [UInt8.ofNat (n % 256)] := by
  rw [encodeBE, encodeLE, List.reverse_cons, encodeBE]

@[simp] theorem length_encodeBE (k n : Nat) : (encodeBE k n).length = k := by
  rw [encodeBE, List.length_reverse, length_encodeLE]

theorem encodeBE_inj {k m n : Nat} (hm : m < 256 ^ k) (hn : n < 256 ^ k)
    (h : encodeBE k m = encodeBE k n) : m = n := by
  rw [← decodeLE_encodeLE hm, ← decodeLE_encodeLE hn, List.reverse_inj.mp h]

theorem singleton_lt_singleton_iff {x y : UInt8} : [x] < [y] ↔ x < y := by
  rw [List.cons_lt_cons_iff]
  simp [List.not_lt_nil]

/-- Numbers below `256 ^ k`, written in `k` bytes with the highest first, compare as
the numbers. -/
theorem encodeBE_lt_encodeBE_iff {k m n : Nat} (hm : m < 256 ^ k) (hn : n < 256 ^ k) :
    encodeBE k m < encodeBE k n ↔ m < n := by
  induction k generalizing m n with
  | zero =>
    rw [Nat.pow_zero] at hm hn
    have hm0 : m = 0 := by omega
    have hn0 : n = 0 := by omega
    subst hm0 hn0
    exact ⟨fun h => absurd h (List.not_lt_nil _), fun h => absurd h (Nat.lt_irrefl 0)⟩
  | succ k ih =>
    -- the higher bytes decide, and the lowest where they agree
    have hm' : m / 256 < 256 ^ k := by
      rw [Nat.div_lt_iff_lt_mul (by decide), ← Nat.pow_succ]
      exact hm
    have hn' : n / 256 < 256 ^ k := by
      rw [Nat.div_lt_iff_lt_mul (by decide), ← Nat.pow_succ]
      exact hn
    have hlow : (UInt8.ofNat (m % 256)).toNat = m % 256 ∧ (UInt8.ofNat (n % 256)).toNat = n % 256 :=
      ⟨by simp, by simp⟩
    rw [encodeBE_succ, encodeBE_succ,
      append_lt_append_iff_of_length_eq (by rw [length_encodeBE, length_encodeBE]), ih hm' hn',
      singleton_lt_singleton_iff, UInt8.lt_iff_toNat_lt, hlow.1, hlow.2]
    constructor
    · rintro (h | ⟨h, h'⟩)
      · omega
      · have := encodeBE_inj hm' hn' h
        omega
    · intro h
      by_cases hdiv : m / 256 = n / 256
      · exact .inr ⟨by rw [hdiv], by omega⟩
      · exact .inl (by omega)

end Lib.Bytewise
