import Mathlib

/-! # Partial merkle trees (merkleblock.cpp)

A `CPartialMerkleTree` shows that some transactions are in a block without the
others. `TraverseAndBuild` walks the merkle tree depth first and stores one bit
per node it visits: whether a matched transaction lies below. At a leaf, or at
a node with no match below, it stores the node's hash and does not descend.
`ExtractMatches` walks the same way over the bits and hashes. It recomputes the
root from the hashes and collects the matched txids with their positions.
It fails on bits or hashes that run out or are left over, on more hashes than
transactions, and on two equal sibling hashes. A block that passes the
CVE-2012-2459 check has no equal siblings.

On the wire the bits are packed eight to a byte, the first in the low bit
(`BitsToBytes`, `BytesToBits`), so a tree that was read back has up to seven
bits of padding.

A `uint256` is a hash of type `α`, `uint256()` is `default`, and `Hash` is the
double SHA-256 of two hashes. The `unsigned int` counts are `Nat`: before it
shifts by a height, `ExtractMatches` refuses trees of more than
`MAX_BLOCK_WEIGHT / MIN_TRANSACTION_WEIGHT` transactions. -/

namespace Namecoin.Consensus.PartialMerkle

/-- `CeilDiv (dividend, divisor)`. -/
def CeilDiv (dividend divisor : Nat) : Nat :=
  dividend / divisor + if dividend % divisor ≠ 0 then 1 else 0

/-- `BitsToBytes (bits)`: bit `p` is bit `p % 8` of byte `p / 8`. -/
def BitsToBytes (bits : List Bool) : List UInt8 :=
  (List.range bits.length).foldl
    (fun ret p => ret.modify (p / 8) fun b => b ||| (bits.getD p false).toUInt8 <<< (p % 8).toUInt8)
    (List.replicate (CeilDiv bits.length 8) 0)

/-- `BytesToBits (bytes)`. -/
def BytesToBits (bytes : List UInt8) : List Bool :=
  (List.range (bytes.length * 8)).map fun p =>
    bytes.getD (p / 8) 0 &&& (1 : UInt8) <<< (p % 8).toUInt8 != 0

/-- `MAX_BLOCK_WEIGHT`. -/
def MAX_BLOCK_WEIGHT : Nat := 4000000

/-- `WITNESS_SCALE_FACTOR`. -/
def WITNESS_SCALE_FACTOR : Nat := 4

/-- `MIN_TRANSACTION_WEIGHT`: sixty bytes. -/
def MIN_TRANSACTION_WEIGHT : Nat := WITNESS_SCALE_FACTOR * 60

structure CPartialMerkleTree (α : Type) where
  /-- the number of transactions in the block -/
  nTransactions : Nat
  /-- node-is-parent-of-matched-txid bits -/
  vBits : List Bool
  /-- txids and internal hashes -/
  vHash : List α
  /-- set on invalid data -/
  fBad : Bool

namespace CPartialMerkleTree

variable {α : Type} [Inhabited α] (Hash : α → α → α)

/-- `CalcTreeWidth (height)`: the number of nodes on level `height`. -/
def CalcTreeWidth (nTransactions height : Nat) : Nat :=
  (nTransactions + (1 <<< height) - 1) >>> height

/-- `while (CalcTreeWidth (nHeight) > 1) nHeight++`, for at most `fuel` rounds. -/
def heightLoop (nTransactions : Nat) : Nat → Nat → Nat
  | 0, nHeight => nHeight
  | fuel + 1, nHeight =>
    if CalcTreeWidth nTransactions nHeight > 1 then heightLoop nTransactions fuel (nHeight + 1)
    else nHeight

/-- The height the constructor and `ExtractMatches` compute: the loop ends
within `nTransactions` rounds. -/
def treeHeight (nTransactions : Nat) : Nat := heightLoop nTransactions nTransactions 0

/-- `CalcHash (height, pos, vTxid)`: a missing right child is the left one. -/
def CalcHash (nTransactions : Nat) (vTxid : List α) : Nat → Nat → α
  | 0, pos => vTxid.getD pos default
  | height + 1, pos =>
    let left := CalcHash nTransactions vTxid height (pos * 2)
    let right :=
      if pos * 2 + 1 < CalcTreeWidth nTransactions height then
        CalcHash nTransactions vTxid height (pos * 2 + 1)
      else left
    Hash left right

/-- The leaves the loop of `TraverseAndBuild` visits: `p` from `pos << height`
while `p < (pos + 1) << height` and `p < nTransactions`. -/
def leavesBelow (nTransactions height pos : Nat) : List Nat :=
  List.range' (pos <<< height) (min ((pos + 1) <<< height) nTransactions - pos <<< height)

/-- `fParentOfMatch`: a leaf below the node is matched. -/
def parentOfMatch (nTransactions : Nat) (vMatch : List Bool) (height pos : Nat) : Bool :=
  (leavesBelow nTransactions height pos).any fun p => vMatch.getD p false

/-- `TraverseAndBuild (height, pos, vTxid, vMatch)`, pushing onto `vBits` and
`vHash`. -/
def TraverseAndBuild (nTransactions : Nat) (vTxid : List α) (vMatch : List Bool) :
    Nat → Nat → List Bool × List α → List Bool × List α
  | 0, pos, (vBits, vHash) =>
    -- at height 0 the txid itself is stored, matched or not
    (vBits ++ [parentOfMatch nTransactions vMatch 0 pos],
      vHash ++ [CalcHash Hash nTransactions vTxid 0 pos])
  | height + 1, pos, (vBits, vHash) =>
    let fParentOfMatch := parentOfMatch nTransactions vMatch (height + 1) pos
    let vBits := vBits ++ [fParentOfMatch]
    if !fParentOfMatch then (vBits, vHash ++ [CalcHash Hash nTransactions vTxid (height + 1) pos])
    else
      let built := TraverseAndBuild nTransactions vTxid vMatch height (pos * 2) (vBits, vHash)
      if pos * 2 + 1 < CalcTreeWidth nTransactions height then
        TraverseAndBuild nTransactions vTxid vMatch height (pos * 2 + 1) built
      else built

/-- `CPartialMerkleTree (vTxid, vMatch)`. -/
def create (vTxid : List α) (vMatch : List Bool) : CPartialMerkleTree α :=
  let built := TraverseAndBuild Hash vTxid.length vTxid vMatch (treeHeight vTxid.length) 0 ([], [])
  { nTransactions := vTxid.length, vBits := built.1, vHash := built.2, fBad := false }

/-- What the traversal of `ExtractMatches` updates: its locals `nBitsUsed` and
`nHashUsed`, its outputs `vMatch` and `vnIndex`, and the member `fBad`. -/
structure ExtractState (α : Type) where
  nBitsUsed : Nat
  nHashUsed : Nat
  vMatch : List α
  vnIndex : List Nat
  fBad : Bool

/-- A node the traversal does not descend into: the next stored hash, which is
a matched txid at height 0 when the node's bit is set. -/
def useHash (t : CPartialMerkleTree α) (height pos : Nat) (fParentOfMatch : Bool)
    (s : ExtractState α) : α × ExtractState α :=
  if t.vHash.length ≤ s.nHashUsed then (default, { s with fBad := true })
  else
    let hash := t.vHash.getD s.nHashUsed default
    let s := { s with nHashUsed := s.nHashUsed + 1 }
    if height == 0 && fParentOfMatch then
      (hash, { s with vMatch := s.vMatch ++ [hash], vnIndex := s.vnIndex ++ [pos] })
    else (hash, s)

/-- `TraverseAndExtract (height, pos, nBitsUsed, nHashUsed, vMatch, vnIndex)`. -/
def TraverseAndExtract [DecidableEq α] (t : CPartialMerkleTree α) :
    Nat → Nat → ExtractState α → α × ExtractState α
  | height, pos, s =>
    if t.vBits.length ≤ s.nBitsUsed then (default, { s with fBad := true })
    else
      let fParentOfMatch := t.vBits.getD s.nBitsUsed false
      let s := { s with nBitsUsed := s.nBitsUsed + 1 }
      match height with
      | 0 => useHash t 0 pos fParentOfMatch s
      | height + 1 =>
        if !fParentOfMatch then useHash t (height + 1) pos fParentOfMatch s
        else
          let left := TraverseAndExtract t height (pos * 2) s
          if pos * 2 + 1 < CalcTreeWidth t.nTransactions height then
            let right := TraverseAndExtract t height (pos * 2 + 1) left.2
            -- the subtrees cover distinct txids, so their hashes must differ
            (Hash left.1 right.1, if right.1 = left.1 then { right.2 with fBad := true } else right.2)
          else (Hash left.1 left.1, left.2)

/-- `ExtractMatches (vMatch, vnIndex)`: the root, `uint256()` on failure, and
the traversal's state. `vMatch` is cleared first, `vnIndex` is not. -/
def ExtractMatches [DecidableEq α] (t : CPartialMerkleTree α) (vnIndex : List Nat) :
    α × ExtractState α :=
  let s₀ : ExtractState α := ⟨0, 0, [], vnIndex, t.fBad⟩
  if t.nTransactions = 0 then (default, s₀)
  else if MAX_BLOCK_WEIGHT / MIN_TRANSACTION_WEIGHT < t.nTransactions then (default, s₀)
  -- at most one hash per txid, and at least one bit per hash
  else if t.nTransactions < t.vHash.length then (default, s₀)
  else if t.vBits.length < t.vHash.length then (default, s₀)
  else
    let (hashMerkleRoot, s) := TraverseAndExtract Hash t (treeHeight t.nTransactions) 0 s₀
    if s.fBad then (default, s)
    -- all bits used, up to the padding of the last byte
    else if CeilDiv s.nBitsUsed 8 ≠ CeilDiv t.vBits.length 8 then (default, s)
    else if s.nHashUsed ≠ t.vHash.length then (default, s)
    else (hashMerkleRoot, s)

/-- What `SERIALIZE_METHODS` writes: `nTransactions`, `vHash` and the packed
bits. -/
structure Serialized (α : Type) where
  nTransactions : Nat
  vHash : List α
  bytes : List UInt8

def serialize (t : CPartialMerkleTree α) : Serialized α :=
  ⟨t.nTransactions, t.vHash, BitsToBytes t.vBits⟩

/-- What `SERIALIZE_METHODS` reads back: the bits unpacked, `fBad` clear. -/
def deserialize (m : Serialized α) : CPartialMerkleTree α :=
  ⟨m.nTransactions, BytesToBits m.bytes, m.vHash, false⟩

end CPartialMerkleTree

end Namecoin.Consensus.PartialMerkle
