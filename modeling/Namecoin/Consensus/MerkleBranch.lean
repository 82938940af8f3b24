import Namecoin.Consensus.MerklePath

/-! # Merkle paths against the merkle root

`ComputeMerkleRoot` computes the root of the duplicate-last tree, and
`CAuxPow::CheckMerkleBranch` folds a branch as `foldBranch` does for any
position whose `int` value is the position itself. With `MerkleComputation`
returning the branch, a path checks against the root for up to `2^31` leaves.
Above `2^31` leaves `ComputeMerklePath` does not return. -/

namespace Namecoin.Consensus.MerkleBranch
open Lib.MerkleTree Namecoin.Consensus.Merkle Namecoin.Consensus.MerklePath

variable {α : Type} [Inhabited α] (Hash : α → α → α)

/-- `ComputeMerkleRoot` computes the root, whatever the mutation flag. -/
theorem computeMerkleRoot_fst [DecidableEq α] (hashes : List α) (mutation : Bool) :
    (computeMerkleRoot Hash hashes mutation).1 = root Hash hashes := by
  fun_induction computeMerkleRoot Hash hashes mutation with
  | case1 hashes mutation hlen ih =>
    rw [ih]
    exact root_nextLevel Hash hashes hlen
  | case2 hashes mutation hlen =>
    rw [root_of_length_le_one Hash hashes (by omega)]

omit [Inhabited α] in
/-- On a non-negative index, `nIndex & 1` and `nIndex >>= 1` are the bits of
the index. -/
theorem checkMerkleBranch_go_natCast (h : α) (bs : List α) (i : Nat) :
    checkMerkleBranch.go Hash h bs i = foldBranch Hash h bs i := by
  induction bs generalizing h i with
  | nil => rfl
  | cons b bs ih =>
    have hmod : (i : Int) % 2 = 1 ↔ i % 2 = 1 := by omega
    have hshift : (i : Int) >>> (1 : Nat) = ((i / 2 : Nat) : Int) := by
      rw [← Int.natCast_shiftRight, Nat.shiftRight_eq_div_pow, Nat.pow_one]
    rw [checkMerkleBranch.go, foldBranch, hshift, ih]
    simp only [hmod]

/-- A position below `2^31` is a non-negative `int`, and the check folds the
branch. -/
theorem checkMerkleBranch_eq_foldBranch (h : α) (bs : List α) (position : UInt32)
    (hpos : position.toNat < 2 ^ 31) :
    checkMerkleBranch Hash h bs (intOfUInt32 position) = foldBranch Hash h bs position.toNat := by
  have hint : intOfUInt32 position = position.toNat := by rw [intOfUInt32, if_pos hpos]
  rw [checkMerkleBranch, hint, if_neg (by omega), checkMerkleBranch_go_natCast]

variable (L : List α)

/-- **`MerkleComputation` up to `2^31` leaves.** With enough fuel it returns
the branch of the leaf. -/
theorem merkleComputation_eq_branch (fuel : Nat) (leafPos : UInt32) (hL : 0 < L.length)
    (hn : L.length ≤ 2 ^ 31) (hp : leafPos.toNat < L.length) (hf : L.length + 65 ≤ fuel) :
    merkleComputation Hash fuel L leafPos = some (branch Hash L leafPos.toNat) := by
  have hne : L.isEmpty = false := List.isEmpty_eq_false_iff.mpr (List.ne_nil_of_length_pos hL)
  have hclog : Nat.clog 2 L.length ≤ 31 := Nat.clog_le_of_le_pow hn
  obtain ⟨s, hrun, hI⟩ := @processLeaves_run α _ Hash L leafPos.toNat leafPos rfl (by omega)
    L.length fuel 0 _ leafInv_zero (by omega) (by omega)
  -- the skip loop finds the lowest set bit of `n`
  obtain ⟨k, hk, hbit⟩ := exists_bit_above (x := L.length) (l := 0) (by simp; omega) (by omega)
  rw [← hI.count] at hbit
  obtain ⟨l, hlow⟩ := lowestSetBit_isSome s.count fuel k 0 (by omega) hk hbit
  obtain ⟨hset, -, hclear⟩ := lowestSetBit_inv s.count k hk hbit hlow
  rw [hI.count] at hset hclear
  have hS := sweepInv_start hI hset fun j hj => hclear j (Nat.zero_le j) hj
  rw [← hI.count] at hS
  rw [merkleComputation, if_neg (by simp [hne]), hrun]
  dsimp only
  rw [hlow]
  exact sweep_run hI hn hp (Nat.clog 2 L.length - l) fuel s.count l _ _ _ hS (by omega) (by omega)

/-- **Merkle paths, up to `2^31` leaves.** `ComputeMerklePath` returns a path of
`clog 2 n` hashes, and `CheckMerkleBranch` folds the leaf with it into the root
that `ComputeMerkleRoot` computes. -/
theorem checkMerkleBranch_computeMerklePath [DecidableEq α] (fuel : Nat) (position : UInt32)
    (hL : 0 < L.length) (hn : L.length ≤ 2 ^ 31) (hp : position.toNat < L.length)
    (hf : L.length + 65 ≤ fuel) :
    ∃ path, computeMerklePath Hash fuel L position = some path ∧
      path.length = Nat.clog 2 L.length ∧
      checkMerkleBranch Hash (L.getD position.toNat default) path (intOfUInt32 position) =
        (computeMerkleRoot Hash L).1 := by
  refine ⟨branch Hash L position.toNat,
    merkleComputation_eq_branch Hash L fuel position hL hn hp hf, length_branch Hash L _, ?_⟩
  rw [checkMerkleBranch_eq_foldBranch Hash _ _ position (by omega), foldBranch_branch Hash L hp,
    computeMerkleRoot_fst]

theorem checkMerkleBranch_computeMerklePath_three :
    ∃ path, computeMerklePath (fun a b : Nat => a + 2 * b) 70 [1, 2, 3] 2 = some path ∧
      path.length = Nat.clog 2 3 ∧
      checkMerkleBranch (fun a b : Nat => a + 2 * b) ([1, 2, 3].getD (2 : UInt32).toNat default)
        path (intOfUInt32 2) = (computeMerkleRoot (fun a b : Nat => a + 2 * b) [1, 2, 3]).1 :=
  checkMerkleBranch_computeMerklePath _ _ 70 2 (by decide) (by decide) (by decide) (by decide)

end Namecoin.Consensus.MerkleBranch
