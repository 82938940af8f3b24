import Namecoin.Lib.MerkleTree

/-! # consensus/merkle.cpp and CAuxPow::CheckMerkleBranch

`ComputeMerkleRoot` hashes a level pairwise (after repeating the last entry of
an odd level) until one entry is left. `MerkleComputation` computes the branch
of one leaf in constant space: a first loop feeds the leaves into `inner`, one
entry per set bit of the leaf counter, and a final sweep walks up the right
edge of the tree. The counter is a `uint32_t`, so it is a `UInt32` here; the
shift `1 << level` is the `UInt32` shift, which reads the amount modulo 32 as
x86 does for the shift by 32 that the source leaves undefined. `SHA256D64` on
a buffer of pairs is `Hash` applied to each pair. -/

namespace Namecoin.Consensus.Merkle
open Lib.MerkleTree

variable {α : Type} [Inhabited α] (Hash : α → α → α)

/-- `pos + 1 < size` pairs of equal hashes: the CVE-2012-2459 mutation test. -/
def hasEqualPair [DecidableEq α] : List α → Bool
  | a :: b :: rest => a == b || hasEqualPair rest
  | _ => false

/-- `ComputeMerkleRoot (hashes, mutated)`: the root (`uint256()` for no
leaves) and whether some level had two equal hashes to combine. -/
def computeMerkleRoot [DecidableEq α] (hashes : List α) (mutation : Bool := false) : α × Bool :=
  if 1 < hashes.length then
    computeMerkleRoot (pairUp Hash (padLevel hashes)) (mutation || hasEqualPair hashes)
  else (hashes.headD default, mutation)
termination_by hashes.length
decreasing_by
  simp only [length_pairUp, length_padLevel]
  omega

/-- `BlockMerkleRoot (block, mutated)`: the tree over the txids of the block's
transactions. -/
def BlockMerkleRoot [DecidableEq α] {Tx : Type} (GetHash : Tx → α) (vtx : List Tx) : α × Bool :=
  computeMerkleRoot Hash (vtx.map GetHash)

/-- `count & (uint32_t{1} << level)` is nonzero. -/
def bitSet (count : UInt32) (level : Nat) : Bool :=
  count &&& ((1 : UInt32) <<< level.toUInt32) != 0

/-- The loop shared by both phases of `MerkleComputation`: while bit `level` of
`count` is clear, `inner[level]` is the left neighbour of `h`. The branch takes
the neighbour once `h` depends on the leaf (`matchh`), or takes `h` when the
leaf sits in `inner[level]` (`matchlevel == level`). -/
def propagate (count : UInt32) (inner : Nat → α) (matchlevel : Int) :
    Nat → Nat → α → Bool → List α → Option (Nat × α × Bool × List α)
  | 0, _, _, _, _ => none
  | fuel + 1, level, h, matchh, path =>
    if bitSet count level then some (level, h, matchh, path)
    else if matchh then
      propagate count inner matchlevel fuel (level + 1) (Hash (inner level) h) true
        (path ++ [inner level])
    else if matchlevel = level then
      propagate count inner matchlevel fuel (level + 1) (Hash (inner level) h) true (path ++ [h])
    else propagate count inner matchlevel fuel (level + 1) (Hash (inner level) h) false path

/-- The locals of `MerkleComputation` that live across its loops. -/
structure MerkleState (α : Type) where
  count : UInt32
  inner : Nat → α
  matchlevel : Int
  path : List α

/-- The first loop: `while (count < leaves.size())`, one leaf per iteration. -/
def processLeaves (leaves : List α) (leafPos : UInt32) :
    Nat → MerkleState α → Option (MerkleState α)
  | 0, _ => none
  | fuel + 1, s =>
    if s.count.toNat < leaves.length then
      match propagate Hash (s.count + 1) s.inner s.matchlevel fuel 0
          (leaves.getD s.count.toNat default) (s.count == leafPos) s.path with
      | none => none
      | some (level, h, matchh, path) =>
        processLeaves leaves leafPos fuel
          { count := s.count + 1
            inner := Function.update s.inner level h
            matchlevel := if matchh then level else s.matchlevel
            path := path }
    else some s

/-- `while (!(count & (uint32_t{1} << level))) level++`. -/
def lowestSetBit (count : UInt32) : Nat → Nat → Option Nat
  | 0, _ => none
  | fuel + 1, level => if bitSet count level then some level else lowestSetBit count fuel (level + 1)

/-- The final sweep over the right edge: an entry without a right neighbour is
combined with itself, and `count` is raised as if that neighbour existed. -/
def sweep (inner : Nat → α) (matchlevel : Int) :
    Nat → UInt32 → Nat → α → Bool → List α → Option (List α)
  | 0, _, _, _, _, _ => none
  | fuel + 1, count, level, h, matchh, path =>
    if count = (1 : UInt32) <<< level.toUInt32 then some path
    else
      let count' := count + ((1 : UInt32) <<< level.toUInt32)
      match propagate Hash count' inner matchlevel fuel (level + 1) (Hash h h) matchh
          (if matchh then path ++ [h] else path) with
      | none => none
      | some (level', h', matchh', path') => sweep inner matchlevel fuel count' level' h' matchh' path'

/-- `MerkleComputation (leaves, leaf_pos, path)`, with `fuel` bounding each of
its loops; `none` means a loop did not finish. `inner` starts as 32 copies of
`uint256()`. -/
def merkleComputation (fuel : Nat) (leaves : List α) (leafPos : UInt32) : Option (List α) :=
  if leaves.isEmpty then some []
  else
    match processLeaves Hash leaves leafPos fuel ⟨0, fun _ => default, -1, []⟩ with
    | none => none
    | some s =>
      match lowestSetBit s.count fuel 0 with
      | none => none
      | some level =>
        sweep Hash s.inner s.matchlevel fuel s.count level (s.inner level)
          (s.matchlevel = level) s.path

/-- `ComputeMerklePath (leaves, position)`. -/
def computeMerklePath (fuel : Nat) (leaves : List α) (position : UInt32) : Option (List α) :=
  merkleComputation Hash fuel leaves position

/-- `CAuxPow::CheckMerkleBranch (hash, vMerkleBranch, nIndex)` with `int nIndex`:
`nIndex & 1` is the low bit of the two's complement value, `nIndex >>= 1` the
arithmetic shift. -/
def checkMerkleBranch (hash : α) (vMerkleBranch : List α) (nIndex : Int) : α :=
  if nIndex = -1 then default else go hash vMerkleBranch nIndex
where
  go : α → List α → Int → α
    | h, [], _ => h
    | h, b :: bs, i => go (if i % 2 = 1 then Hash b h else Hash h b) bs (i >>> (1 : Nat))

/-- The `int` a `uint32_t` position becomes when passed as `nIndex`. -/
def intOfUInt32 (p : UInt32) : Int :=
  if p.toNat < 2 ^ 31 then p.toNat else (p.toNat : Int) - 2 ^ 32

end Namecoin.Consensus.Merkle
