import Namecoin.Consensus.Pow
import Namecoin.Arith.BaseUintDiv

/-! # The work of a block (chain.cpp)

`GetBitsProof` is the expected number of hashes for a target `T`, `2 ^ 256 / (T + 1)`.
As `2 ^ 256` does not fit an `arith_uint256`, it computes `~T / (T + 1) + 1`. That is
`(2 ^ 256 - 1 - T) / (T + 1) + 1`, the same floor, provided `T + 1` does not wrap to zero:
a compact target is a 23-bit mantissa times a power of 256, never `2 ^ 256 - 1`
(`ne_two_pow_sub_one_of_mem`). -/

namespace Namecoin.Consensus

open Arith Namecoin.Consensus.Pow

/-- `GetBitsProof (bits)`: zero for a negative, overflowing or zero target, else
`~bnTarget / (bnTarget + 1) + 1`, where `/` may throw. -/
def GetBitsProof (bits : UInt32) : Except String arith_uint256 :=
  let (value, fNegative, fOverflow) := SetCompact bits
  let bnTarget : arith_uint256 := base_uint.ofNat value
  if fNegative || fOverflow || bnTarget.EqualTo 0 then .ok 0
  else do
    let q ← (~~~bnTarget).div (bnTarget + base_uint.ofUInt64 1)
    return q + base_uint.ofUInt64 1

/-- A representable number is a multiple of `256` or below `2 ^ 23`: never all ones. -/
theorem ne_two_pow_sub_one_of_mem {r : Nat} (hr : r ∈ Representable) : r ≠ 2 ^ 256 - 1 := by
  obtain ⟨m, e, hm, rfl⟩ := hr
  cases e with
  | zero =>
    rw [Nat.mul_zero, Nat.pow_zero, Nat.mul_one]
    omega
  | succ e =>
    -- an even number
    have heven : m * 2 ^ (8 * (e + 1)) = 2 * (m * 2 ^ (8 * e + 7)) := by
      rw [show 8 * (e + 1) = 8 * e + 7 + 1 by omega, Nat.pow_succ, Nat.mul_comm _ 2, Nat.mul_left_comm]
    rw [heven]
    omega

/-- `~T / (T + 1) + 1` for a target `T` whose successor does not wrap is
`2 ^ 256 / (T + 1)`. -/
theorem bits_proof_quotient {T : Nat} (hT0 : T ≠ 0) (hT : T + 1 < 2 ^ 256) :
    ∃ r, ((~~~(base_uint.ofNat T : arith_uint256)).div (base_uint.ofNat T + base_uint.ofUInt64 1) >>=
      fun q => pure (q + base_uint.ofUInt64 1)) = .ok r ∧ r.toNat = 2 ^ 256 / (T + 1) := by
  have hTn : (base_uint.ofNat T : arith_uint256).toNat = T := by
    rw [base_uint.toNat_ofNat, Nat.mod_eq_of_lt (by omega)]
  have hone : (base_uint.ofUInt64 1 : arith_uint256).toNat = 1 := base_uint.toNat_ofUInt64 1 (by decide)
  have hden : (base_uint.ofNat T + base_uint.ofUInt64 1 : arith_uint256).toNat = T + 1 := by
    rw [base_uint.toNat_add, hTn, hone, Nat.mod_eq_of_lt hT]
  have hnum : (~~~(base_uint.ofNat T : arith_uint256)).toNat = 2 ^ 256 - 1 - T := by
    rw [base_uint.toNat_complement, hTn]
  -- `(2 ^ 256 - 1 - T) / (T + 1) + 1 = 2 ^ 256 / (T + 1)`, which is below `2 ^ 256`
  have hsum : (2 ^ 256 - 1 - T) / (T + 1) + 1 = 2 ^ 256 / (T + 1) := by
    rw [← Nat.add_div_right _ (Nat.succ_pos T), show 2 ^ 256 - 1 - T + (T + 1) = 2 ^ 256 by omega]
  have hlt : 2 ^ 256 / (T + 1) < 2 ^ 256 := Nat.div_lt_self (by decide) (by omega)
  rw [base_uint.div_eq, hden, hnum, if_neg (Nat.succ_ne_zero T)]
  refine ⟨_, rfl, ?_⟩
  rw [base_uint.toNat_add, base_uint.toNat_ofNat, hone,
    Nat.mod_eq_of_lt (by omega : (2 ^ 256 - 1 - T) / (T + 1) < 2 ^ (32 * 8)), hsum, Nat.mod_eq_of_lt hlt]

/-- `GetBitsProof` is `2 ^ 256 / (T + 1)` for a target `T` that reads as neither negative,
nor overflowing, nor zero, and zero otherwise; its division never throws. -/
theorem GetBitsProof_eq (nBits : UInt32) :
    ∃ r, GetBitsProof nBits = .ok r ∧
      r.toNat = if (SetCompact nBits).2.1 = true ∨ (SetCompact nBits).2.2 = true ∨ (SetCompact nBits).1 = 0
        then 0 else 2 ^ 256 / ((SetCompact nBits).1 + 1) := by
  have hlt := SetCompact_lt nBits
  have hmem := SetCompact_mem nBits
  unfold GetBitsProof
  generalize SetCompact nBits = c at hlt hmem ⊢
  obtain ⟨T, fNegative, fOverflow⟩ := c
  dsimp only at hlt hmem ⊢
  have hTn : (base_uint.ofNat T : arith_uint256).toNat = T := by
    rw [base_uint.toNat_ofNat, Nat.mod_eq_of_lt hlt]
  rw [base_uint.EqualTo_eq _ _ (by decide), hTn, UInt64.toNat_zero]
  by_cases hc : fNegative = true ∨ fOverflow = true ∨ T = 0
  · -- a target that reads as negative, overflowing or zero proves no work
    have hif : (fNegative || fOverflow || decide (T = 0)) = true := by
      rcases hc with h | h | h <;> simp [h]
    rw [if_pos hif, if_pos hc]
    exact ⟨0, rfl, base_uint.toNat_zero⟩
  · have hif : ¬(fNegative || fOverflow || decide (T = 0)) = true := by
      obtain ⟨h1, h2, h3⟩ : ¬fNegative = true ∧ ¬fOverflow = true ∧ ¬T = 0 := by
        rwa [not_or, not_or] at hc
      simp [h1, h2, h3]
    have hT0 : T ≠ 0 := fun h => hc (.inr (.inr h))
    have hT : T + 1 < 2 ^ 256 := by
      have := ne_two_pow_sub_one_of_mem hmem
      omega
    rw [if_neg hif, if_neg hc]
    exact bits_proof_quotient hT0 hT

theorem bits_proof_exact :
    (∀ a b : arith_uint256, (b.toNat = 0 → a.div b = .error "Division by zero") ∧
      (b.toNat ≠ 0 → ∃ q, a.div b = .ok q ∧ q.toNat = a.toNat / b.toNat)) ∧
    (∀ a b : arith_uint256, (a * b).toNat = a.toNat * b.toNat % 2 ^ 256) ∧
    (∀ (a : arith_uint256) (b32 : UInt32), (a.mulU32 b32).toNat = a.toNat * b32.toNat % 2 ^ 256) ∧
    (∀ (a : arith_uint256) (s : Nat), (a <<< s).toNat = a.toNat * 2 ^ s % 2 ^ 256) ∧
    (∀ (a : arith_uint256) (s : Nat), (a >>> s).toNat = a.toNat / 2 ^ s) ∧
    (∀ a : arith_uint256, a.bits = if a.toNat = 0 then 0 else a.toNat.log2 + 1) ∧
    (∀ a b : arith_uint256,
      a.CompareTo b = if a.toNat < b.toNat then -1 else if b.toNat < a.toNat then 1 else 0) ∧
    (∀ nBits : UInt32, ∃ r, GetBitsProof nBits = .ok r ∧
      r.toNat = if (SetCompact nBits).2.1 = true ∨ (SetCompact nBits).2.2 = true ∨ (SetCompact nBits).1 = 0
        then 0 else 2 ^ 256 / ((SetCompact nBits).1 + 1)) := by
  refine ⟨fun a b => ⟨fun hb => ?_, fun hb => ?_⟩, base_uint.toNat_mul, base_uint.toNat_mulU32,
    base_uint.toNat_shiftLeft, base_uint.toNat_shiftRight, base_uint.bits_eq, base_uint.CompareTo_eq,
    GetBitsProof_eq⟩
  · rw [base_uint.div_eq, if_pos hb]
  · have hlt : a.toNat / b.toNat < 2 ^ (32 * 8) := Nat.lt_of_le_of_lt (Nat.div_le_self _ _) a.toNat_lt
    rw [base_uint.div_eq, if_neg hb]
    exact ⟨_, rfl, by rw [base_uint.toNat_ofNat, Nat.mod_eq_of_lt hlt]⟩

theorem bits_proof_exact_seven_halves :
    (base_uint.ofNat 2 : arith_uint256).toNat ≠ 0 ∧
      ∃ q, (base_uint.ofNat 7 : arith_uint256).div (base_uint.ofNat 2) = .ok q ∧ q.toNat = 7 / 2 :=
  ⟨by decide, And.right (And.left bits_proof_exact (base_uint.ofNat 7) (base_uint.ofNat 2)) (by decide)⟩

end Namecoin.Consensus
