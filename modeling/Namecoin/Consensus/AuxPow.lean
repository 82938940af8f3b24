import Namecoin.Consensus.MerkleBranch
import Namecoin.Lib.ExceptM
import Namecoin.Lib.Search
import Namecoin.Script.NameBuild

/-! # auxpow.cpp: merged-mining proofs of work

`CAuxPow::check` accepts the work of a parent block for an aux block hash when
the chain merkle branch folds that hash into a root whose bytes, reversed,
stand in the parent coinbase's first input script, right after the single
merged-mining header `fa be 6d 6d` if there is one, and followed by the tree
size and a nonce that fix the branch's index. So two auxpows on one coinbase
that both pass `check` for one chain ID commit to one aux block hash, unless
the pair hash has a collision (`check_aux_unique`).

`createAuxPow` builds the auxpow a block mines on itself: a fake parent whose
coinbase pushes the reversed block hash, the tree size `1` and nonce `0`. It
writes no merged-mining header, so `check` rejects it for the block hashes
whose reversed bytes contain one, and for the hash of 32 bytes `0x28`, which
`std::search` finds one byte early, on the push opcode (`createAuxPow_check_iff`). -/

namespace Namecoin.Consensus.AuxPow
open Lib.MerkleTree Lib.Search Lib.ExceptM Namecoin.Consensus.Merkle Namecoin.Script

/-- `uint256`: its 32 bytes, from `begin ()` to `end ()`. -/
structure uint256 where
  data : List UInt8
  length_data : data.length = 32
  deriving DecidableEq

/-- `uint256 ()`. -/
instance : Inhabited uint256 := ⟨⟨List.replicate 32 0, List.length_replicate⟩⟩

/-- `pchMergedMiningHeader`: `0xfa 0xbe 'm' 'm'`. -/
def pchMergedMiningHeader : List UInt8 := [0xfa, 0xbe, 0x6d, 0x6d]

/-- `1 << 8`. -/
def VERSION_AUXPOW : Int32 := 256
/-- `1 << 16`. -/
def VERSION_CHAIN_START : Int32 := 65536

structure CPureBlockHeader where
  nVersion : Int32
  hashPrevBlock : uint256
  hashMerkleRoot : uint256
  nTime : UInt32
  nBits : UInt32
  nNonce : UInt32

namespace CPureBlockHeader

def GetChainId (h : CPureBlockHeader) : Int32 := h.nVersion / VERSION_CHAIN_START

def IsAuxpow (h : CPureBlockHeader) : Bool := h.nVersion &&& VERSION_AUXPOW != 0

end CPureBlockHeader

/-- An input of the parent coinbase: the script `check` reads. -/
structure CTxIn where
  scriptSig : CScript

/-- The parent coinbase, as far as `check` and `createAuxPow` read it. -/
structure CTransaction where
  vin : List CTxIn

structure CAuxPow where
  coinbaseTx : CTransaction
  vMerkleBranch : List uint256
  vChainMerkleBranch : List uint256
  nChainIndex : Int32
  parentBlock : CPureBlockHeader

/-- The consensus parameter `check` reads. -/
structure Params where
  fStrictChainId : Bool

/-- `DecodeLE32`: the four bytes at the front, little endian. -/
def DecodeLE32 (bytes : List UInt8) : UInt32 := (readLE (bytes.take 4)).toUInt32

/-- `CAuxPow::getExpectedIndex`: a slot of the chain merkle tree chosen by the
nonce and the chain ID, in `uint64_t` arithmetic; `1u << h` is the `UInt32`
shift. -/
def getExpectedIndex (nNonce : UInt32) (nChainId : Int32) (h : Nat) : Int32 :=
  let mod : UInt32 := 1 <<< h.toUInt32
  let rand : UInt64 := nNonce.toUInt64
  let rand := rand * 1103515245 + 12345
  let rand := rand % mod.toUInt64
  let rand := rand + nChainId.toInt64.toUInt64
  let rand := rand * 1103515245 + 12345
  let rand := rand % mod.toUInt64
  rand.toUInt32.toInt32

/-- The part of `CAuxPow::check` that reads the first input script of the
parent coinbase, from the search for the merged-mining header on. The
iterators are positions; `std::search` gives `script.length` (the end) when it
finds nothing. -/
def checkCoinbaseScript (script : CScript) (vchRootHash : List UInt8) (merkleHeight : Nat)
    (nChainId nChainIndex : Int32) : Except String Unit := do
  let pcHead := search pchMergedMiningHeader script
  let pc := search vchRootHash script
  failIf (pc = script.length) "Aux POW missing chain merkle root in parent coinbase"
  if pcHead ≠ script.length then
    failIf (pcHead + 1 + search pchMergedMiningHeader (script.drop (pcHead + 1)) ≠ script.length)
      "Multiple merged mining headers in coinbase"
    failIf (pcHead + pchMergedMiningHeader.length ≠ pc)
      "Merged mining header is not just before chain merkle root"
  else
    failIf (20 < pc)
      "Aux POW chain merkle root must start in the first 20 bytes of the parent coinbase"
  let pc := pc + vchRootHash.length
  failIf (script.length - pc < 8)
    "Aux POW missing chain merkle tree size and nonce in parent coinbase"
  let nSize := DecodeLE32 (script.drop pc)
  failIf (nSize ≠ (1 : UInt32) <<< merkleHeight.toUInt32)
    "Aux POW merkle branch size does not match parent coinbase"
  let nNonce := DecodeLE32 (script.drop (pc + 4))
  failIf (nChainIndex ≠ getExpectedIndex nNonce nChainId merkleHeight) "Aux POW wrong index"

section Hashes

-- `Hash` is the double-SHA256 of a pair of hashes and `GetHash` the txid of the
-- parent coinbase; both are parameters of the model.
variable (Hash : uint256 → uint256 → uint256) (GetHash : CTransaction → uint256)

/-- `CAuxPow::check (hashAuxBlock, nChainId, params)`; the error is the text it
logs before returning `false`. -/
def check (a : CAuxPow) (hashAuxBlock : uint256) (nChainId : Int32) (params : Params) :
    Except String Unit := do
  failIf (params.fStrictChainId = true ∧ a.parentBlock.GetChainId = nChainId)
    "Aux POW parent has our chain ID"
  failIf (30 < a.vChainMerkleBranch.length) "Aux POW chain merkle branch too long"
  let nRootHash := checkMerkleBranch Hash hashAuxBlock a.vChainMerkleBranch a.nChainIndex.toInt
  let vchRootHash := nRootHash.data.reverse
  failIf (checkMerkleBranch Hash (GetHash a.coinbaseTx) a.vMerkleBranch 0 ≠ a.parentBlock.hashMerkleRoot)
    "Aux POW merkle root incorrect"
  match a.coinbaseTx.vin with
  | [] => throw "Aux POW coinbase has no inputs"
  | txin :: _ =>
    checkCoinbaseScript txin.scriptSig vchRootHash a.vChainMerkleBranch.length nChainId a.nChainIndex

/-- `CAuxPow::createAuxPow (header)`, `none` where its assertion that the header
has the auxpow flag fails; `BlockHash` is `CPureBlockHeader::GetHash`. The fake
parent keeps the null fields of `CBlock ()` and gets `nVersion = 1`. -/
def createAuxPow (BlockHash : CPureBlockHeader → uint256) (header : CPureBlockHeader) :
    Option CAuxPow :=
  if header.IsAuxpow then
    let inputData := (BlockHash header).data.reverse ++ [1] ++ List.replicate 7 0
    let coinbase : CTransaction := ⟨[⟨pushData inputData⟩]⟩
    let parent : CPureBlockHeader :=
      { nVersion := 1, hashPrevBlock := default,
        hashMerkleRoot := (computeMerkleRoot Hash [GetHash coinbase]).1,
        nTime := 0, nBits := 0, nNonce := 0 }
    some ⟨coinbase, [], [], 0, parent⟩
  else none

end Hashes

/-! ## What a passing check says -/

theorem uint256.ext_data {a b : uint256} (h : a.data = b.data) : a = b := by
  cases a
  cases b
  cases h
  rfl

theorem checkCoinbaseScript_eq_ok {script : CScript} {R : List UInt8} {h : Nat} {c idx : Int32} :
    checkCoinbaseScript script R h c idx = .ok () ↔
      search R script ≠ script.length ∧
      (if search pchMergedMiningHeader script ≠ script.length then
        search pchMergedMiningHeader script + 1 +
            search pchMergedMiningHeader (script.drop (search pchMergedMiningHeader script + 1)) =
          script.length ∧
        search pchMergedMiningHeader script + pchMergedMiningHeader.length = search R script
      else search R script ≤ 20) ∧
      8 ≤ script.length - (search R script + R.length) ∧
      DecodeLE32 (script.drop (search R script + R.length)) = (1 : UInt32) <<< h.toUInt32 ∧
      idx = getExpectedIndex (DecodeLE32 (script.drop (search R script + R.length + 4))) c h := by
  unfold checkCoinbaseScript
  simp only [failIf_bind_eq_ok]
  split_ifs <;> simp_all [and_assoc]

section Hashes

variable (Hash : uint256 → uint256 → uint256) (GetHash : CTransaction → uint256)

theorem check_eq_ok {a : CAuxPow} {hashAuxBlock : uint256} {nChainId : Int32} {params : Params} :
    check Hash GetHash a hashAuxBlock nChainId params = .ok () ↔
      ¬ (params.fStrictChainId = true ∧ a.parentBlock.GetChainId = nChainId) ∧
      a.vChainMerkleBranch.length ≤ 30 ∧
      checkMerkleBranch Hash (GetHash a.coinbaseTx) a.vMerkleBranch 0 = a.parentBlock.hashMerkleRoot ∧
      ∃ txin rest, a.coinbaseTx.vin = txin :: rest ∧
        checkCoinbaseScript txin.scriptSig
          (checkMerkleBranch Hash hashAuxBlock a.vChainMerkleBranch a.nChainIndex.toInt).data.reverse
          a.vChainMerkleBranch.length nChainId a.nChainIndex = .ok () := by
  unfold check
  simp only [failIf_bind_eq_ok, Nat.not_lt, not_not]
  cases a.coinbaseTx.vin with
  | nil => simp
  | cons txin rest => simp

/-- On a non-negative index `CheckMerkleBranch` folds the branch. -/
theorem checkMerkleBranch_natCast (h : uint256) (bs : List uint256) (i : Nat) :
    checkMerkleBranch Hash h bs i = foldBranch Hash h bs i := by
  rw [checkMerkleBranch, if_neg (by omega), MerkleBranch.checkMerkleBranch_go_natCast]

end Hashes

/-- For trees of up to `2^30` leaves the index is a non-negative `int`. -/
theorem toInt_mod_shift (X : UInt64) {h : Nat} (hh : h ≤ 30) :
    (X % ((1 : UInt32) <<< h.toUInt32).toUInt64).toUInt32.toInt32.toInt =
      ((X.toNat % 2 ^ h : Nat) : Int) := by
  have hm : ((1 : UInt32) <<< h.toUInt32).toUInt64.toNat = 2 ^ h := by
    rw [UInt32.toNat_toUInt64, MerklePath.toNat_one_shiftLeft (by omega)]
  have hlt : X.toNat % 2 ^ h < 2 ^ 30 :=
    Nat.lt_of_lt_of_le (Nat.mod_lt _ (Nat.two_pow_pos h)) (Nat.pow_le_pow_right (by omega) hh)
  have hval : (X % ((1 : UInt32) <<< h.toUInt32).toUInt64).toUInt32.toNat = X.toNat % 2 ^ h := by
    rw [UInt64.toNat_toUInt32, UInt64.toNat_mod, hm]
    exact Nat.mod_eq_of_lt (by omega)
  rw [← Int32.toInt_toBitVec, BitVec.toInt_eq_toNat_of_lt]
  · show ((X % _).toUInt32.toNat : Int) = _
    rw [hval]
  · show 2 * (X % _).toUInt32.toNat < 2 ^ 32
    omega

theorem getExpectedIndex_toInt (nNonce : UInt32) (nChainId : Int32) {h : Nat} (hh : h ≤ 30) :
    ∃ k : Nat, (getExpectedIndex nNonce nChainId h).toInt = k :=
  ⟨_, toInt_mod_shift _ hh⟩

/-- `1u << h` fixes `h` up to 30. -/
theorem one_shiftLeft_inj {h h' : Nat} (hh : h ≤ 30) (hh' : h' ≤ 30)
    (heq : (1 : UInt32) <<< h.toUInt32 = (1 : UInt32) <<< h'.toUInt32) : h = h' := by
  have := congrArg UInt32.toNat heq
  rw [MerklePath.toNat_one_shiftLeft (by omega), MerklePath.toNat_one_shiftLeft (by omega)] at this
  exact Nat.pow_right_injective (Nat.le_refl 2) this

/-! ## The expected index in integers -/

theorem emod_of_emod_eq {M x y : Int} (hM : M ∣ 2 ^ 64) (h : x % 2 ^ 64 = y % 2 ^ 64) :
    x % M = y % M := by
  rw [← Int.emod_emod_of_dvd x hM, h, Int.emod_emod_of_dvd y hM]

theorem emod_mul_add_congr {M y z : Int} (A C : Int) (h : y % M = z % M) :
    (y * A + C) % M = (z * A + C) % M := by
  rw [Int.add_emod, Int.mul_emod, h, ← Int.mul_emod, ← Int.add_emod]

/-- One step of the generator in `uint64_t` wraps around `2^64`. -/
theorem toNat_lcg_emod (a : UInt64) :
    ((a * 1103515245 + 12345).toNat : Int) % 2 ^ 64 =
      ((a.toNat : Int) * 1103515245 + 12345) % 2 ^ 64 := by
  have hA : (1103515245 : UInt64).toNat = 1103515245 := rfl
  have hC : (12345 : UInt64).toNat = 12345 := rfl
  rw [UInt64.toNat_add, UInt64.toNat_mul, hA, hC]
  omega

/-- Adding an `int` to a `uint64_t` converts it modulo `2^64`, negative or not. -/
theorem toNat_add_toUInt64_emod (a : UInt64) (x : Int32) :
    ((a + x.toInt64.toUInt64).toNat : Int) % 2 ^ 64 = ((a.toNat : Int) + x.toInt) % 2 ^ 64 := by
  have hx : (x.toInt64.toUInt64.toNat : Int) % 2 ^ 64 = x.toInt % 2 ^ 64 := by
    rw [← UInt64.toNat_toBitVec, Int64.toBitVec_toUInt64, ← Int32.toInt_toInt64,
      ← Int64.toInt_toBitVec, BitVec.toInt_eq_toNat_bmod]
    exact Int.bmod_emod.symm
  rw [UInt64.toNat_add]
  omega

/-- Since `2^h` divides `2^64`, reducing modulo `2^64` on the way does not change the
slot. -/
theorem getExpectedIndex_toInt_eq (nNonce : UInt32) (nChainId : Int32) {h : Nat} (hh : h ≤ 30) :
    (getExpectedIndex nNonce nChainId h).toInt =
      ((((nNonce.toNat : Int) * 1103515245 + 12345) % 2 ^ h + nChainId.toInt) * 1103515245 +
        12345) % 2 ^ h := by
  have hM : (2 : Int) ^ h ∣ 2 ^ 64 := pow_dvd_pow 2 (by omega)
  have hm : ((1 : UInt32) <<< h.toUInt32).toUInt64.toNat = 2 ^ h := by
    rw [UInt32.toNat_toUInt64, MerklePath.toNat_one_shiftLeft (by omega)]
  -- the first draw, reduced to the slots of the tree
  have hr1 : (((nNonce.toUInt64 * 1103515245 + 12345) %
      ((1 : UInt32) <<< h.toUInt32).toUInt64).toNat : Int) =
      ((nNonce.toNat : Int) * 1103515245 + 12345) % 2 ^ h := by
    rw [UInt64.toNat_mod, hm, Int.natCast_emod, Int.natCast_pow, Nat.cast_ofNat,
      emod_of_emod_eq hM (toNat_lcg_emod _), UInt32.toNat_toUInt64]
  show ((((nNonce.toUInt64 * 1103515245 + 12345) % ((1 : UInt32) <<< h.toUInt32).toUInt64 +
      nChainId.toInt64.toUInt64) * 1103515245 + 12345) %
      ((1 : UInt32) <<< h.toUInt32).toUInt64).toUInt32.toInt32.toInt = _
  rw [toInt_mod_shift _ hh, Int.natCast_emod, Int.natCast_pow, Nat.cast_ofNat, ← hr1]
  generalize (nNonce.toUInt64 * 1103515245 + 12345) % ((1 : UInt32) <<< h.toUInt32).toUInt64 = r1
  calc _ = (((r1 + nChainId.toInt64.toUInt64).toNat : Int) * 1103515245 + 12345) % 2 ^ h :=
        emod_of_emod_eq hM (toNat_lcg_emod _)
    _ = _ := emod_mul_add_congr _ _ (emod_of_emod_eq hM (toNat_add_toUInt64_emod _ _))

/-- The index a passing `check` accepts is `getExpectedIndex` of the branch length. -/
theorem nChainIndex_of_check (Hash : uint256 → uint256 → uint256) (GetHash : CTransaction → uint256)
    {a : CAuxPow} {hashAuxBlock : uint256} {nChainId : Int32} {params : Params}
    (h : check Hash GetHash a hashAuxBlock nChainId params = .ok ()) :
    a.vChainMerkleBranch.length ≤ 30 ∧ ∃ nNonce, a.nChainIndex =
      getExpectedIndex nNonce nChainId a.vChainMerkleBranch.length := by
  obtain ⟨-, hlen, -, txin, rest, -, hscript⟩ := Iff.mp (check_eq_ok Hash GetHash) h
  obtain ⟨-, -, -, -, hidx⟩ := Iff.mp checkCoinbaseScript_eq_ok hscript
  exact ⟨hlen, _, hidx⟩

/-- `getExpectedIndex` is exact: for trees of up to `2^30` leaves the `uint64_t`
arithmetic, with its wrap-around and the conversion of a negative chain ID, gives the
slot the integers give modulo `2^h`. So the index of an auxpow that passes `check`
is a slot of its chain merkle tree. -/
theorem getExpectedIndex_exact :
    (∀ (nNonce : UInt32) (nChainId : Int32) (h : Nat), h ≤ 30 →
      0 ≤ (getExpectedIndex nNonce nChainId h).toInt ∧
      (getExpectedIndex nNonce nChainId h).toInt < 2 ^ h ∧
      (getExpectedIndex nNonce nChainId h).toInt =
        ((((nNonce.toNat : Int) * 1103515245 + 12345) % 2 ^ h + nChainId.toInt) * 1103515245 +
          12345) % 2 ^ h) ∧
    ∀ (Hash : uint256 → uint256 → uint256) (GetHash : CTransaction → uint256) (a : CAuxPow)
      (hashAuxBlock : uint256) (nChainId : Int32) (params : Params),
      check Hash GetHash a hashAuxBlock nChainId params = .ok () →
      0 ≤ a.nChainIndex.toInt ∧ a.nChainIndex.toInt < 2 ^ a.vChainMerkleBranch.length := by
  have hslot : ∀ (nNonce : UInt32) (nChainId : Int32) (h : Nat), h ≤ 30 →
      0 ≤ (getExpectedIndex nNonce nChainId h).toInt ∧
      (getExpectedIndex nNonce nChainId h).toInt < 2 ^ h ∧
      (getExpectedIndex nNonce nChainId h).toInt =
        ((((nNonce.toNat : Int) * 1103515245 + 12345) % 2 ^ h + nChainId.toInt) * 1103515245 +
          12345) % 2 ^ h := by
    intro nNonce nChainId h hh
    have hpos : (0 : Int) < 2 ^ h := by exact_mod_cast Nat.two_pow_pos h
    rw [getExpectedIndex_toInt_eq nNonce nChainId hh]
    exact ⟨Int.emod_nonneg _ hpos.ne', Int.emod_lt_of_pos _ hpos, rfl⟩
  refine ⟨hslot, fun Hash GetHash a hashAuxBlock nChainId params h => ?_⟩
  obtain ⟨hlen, nNonce, hidx⟩ := nChainIndex_of_check Hash GetHash h
  obtain ⟨h0, hlt, -⟩ := hslot nNonce nChainId _ hlen
  rw [hidx]
  exact ⟨h0, hlt⟩

theorem getExpectedIndex_exact_negative :
    (getExpectedIndex 0 (-1) 2).toInt = 1 := by
  rw [(getExpectedIndex_exact.1 0 (-1) 2 (by decide)).2.2]
  decide

/-! ## One aux block per coinbase -/

section Unique

variable (Hash : uint256 → uint256 → uint256) (GetHash : CTransaction → uint256)

/-- Where the coinbase script has the merged-mining header, a passing check reads
the root right after its first occurrence, and the tree size and nonce after that. -/
theorem check_ok_of_header {b : CAuxPow} {txin : CTxIn} {rest : List CTxIn}
    (hvin : b.coinbaseTx.vin = txin :: rest) (hmagic : pchMergedMiningHeader <:+: txin.scriptSig)
    {hashAuxBlock : uint256} {nChainId : Int32} {params : Params}
    (h : check Hash GetHash b hashAuxBlock nChainId params = .ok ()) :
    b.vChainMerkleBranch.length ≤ 30 ∧
    (checkMerkleBranch Hash hashAuxBlock b.vChainMerkleBranch b.nChainIndex.toInt).data.reverse =
      (txin.scriptSig.drop (search pchMergedMiningHeader txin.scriptSig + 4)).take 32 ∧
    DecodeLE32 (txin.scriptSig.drop (search pchMergedMiningHeader txin.scriptSig + 4 + 32)) =
      (1 : UInt32) <<< b.vChainMerkleBranch.length.toUInt32 ∧
    b.nChainIndex = getExpectedIndex
      (DecodeLE32 (txin.scriptSig.drop (search pchMergedMiningHeader txin.scriptSig + 4 + 32 + 4)))
      nChainId b.vChainMerkleBranch.length := by
  obtain ⟨-, hlen, -, txin', rest', hvin', hscript⟩ := Iff.mp (check_eq_ok Hash GetHash) h
  obtain ⟨rfl, -⟩ := List.cons.inj (hvin.symm.trans hvin')
  obtain ⟨hfound, hhead, -, hsize, hidx⟩ := Iff.mp checkCoinbaseScript_eq_ok hscript
  have hne : search pchMergedMiningHeader txin.scriptSig ≠ txin.scriptSig.length :=
    Nat.ne_of_lt (Iff.mpr (search_lt_length_iff (by decide) _) hmagic)
  rw [if_pos hne] at hhead
  obtain ⟨-, hpc⟩ := hhead
  have hR : (checkMerkleBranch Hash hashAuxBlock b.vChainMerkleBranch
      b.nChainIndex.toInt).data.reverse.length = 32 := by
    rw [List.length_reverse, uint256.length_data]
  generalize (checkMerkleBranch Hash hashAuxBlock b.vChainMerkleBranch b.nChainIndex.toInt).data.reverse
    = R at hR hfound hpc hsize hidx ⊢
  -- the root is found where the header ends
  have hm := matchAt_search R txin.scriptSig
    (Nat.lt_of_le_of_ne (search_le_length R txin.scriptSig) hfound)
  have h4 : pchMergedMiningHeader.length = 4 := rfl
  rw [← hpc, h4] at hm hsize hidx
  rw [hR] at hsize hidx
  refine ⟨hlen, ?_, hsize, hidx⟩
  rw [← hR]
  exact List.prefix_iff_eq_take.mp hm

end Unique

/-- A coinbase whose script holds the header, the null root, tree size `1` and nonce `0`. -/
def headerCoinbase : CTransaction :=
  ⟨[⟨pchMergedMiningHeader ++ (default : uint256).data.reverse ++ [1, 0, 0, 0, 0, 0, 0, 0]⟩]⟩

/-- An auxpow on `headerCoinbase` with the parent nonce `nNonce`. -/
def headerAuxPow (nNonce : UInt32) : CAuxPow :=
  ⟨headerCoinbase, [], [], 0,
    { nVersion := 1, hashPrevBlock := default, hashMerkleRoot := default,
      nTime := 0, nBits := 0, nNonce := nNonce }⟩

/-- A tree of one leaf has the one slot `0`. -/
theorem getExpectedIndex_zero (nNonce : UInt32) (nChainId : Int32) :
    getExpectedIndex nNonce nChainId 0 = 0 := by
  simp [getExpectedIndex]

/-- The 40 bytes `createAuxPow` pushes go behind the push opcode `0x28`. -/
theorem pushData_inputData {R : List UInt8} (hR : R.length = 32) :
    pushData (R ++ [1] ++ List.replicate 7 0) = 0x28 :: (R ++ [1, 0, 0, 0, 0, 0, 0, 0]) := by
  have hlen : (R ++ [1] ++ List.replicate 7 0).length = 40 := by simp [hR]
  rw [pushData, hlen, show appendDataSize 40 = [0x28] from rfl, List.singleton_append,
    List.append_assoc]
  rfl

/-- The header occurs in the self-mined script exactly when it occurs in the hash
bytes: it starts with neither the push opcode nor a byte of the size and nonce. -/
theorem search_header_inputData (R : List UInt8) :
    search pchMergedMiningHeader (0x28 :: (R ++ [1, 0, 0, 0, 0, 0, 0, 0])) ≠
        (0x28 :: (R ++ [1, 0, 0, 0, 0, 0, 0, 0])).length ↔
      pchMergedMiningHeader <:+: R := by
  have hdis : ∀ b ∈ pchMergedMiningHeader, b ∉ ([1, 0, 0, 0, 0, 0, 0, 0] : List UInt8) := by
    intro b hb
    simp only [pchMergedMiningHeader, List.mem_cons, List.not_mem_nil, or_false] at hb
    rcases hb with rfl | rfl | rfl | rfl <;> decide
  have hle := search_le_length pchMergedMiningHeader (R ++ [1, 0, 0, 0, 0, 0, 0, 0])
  have hpre : pchMergedMiningHeader.isPrefixOf (0x28 :: (R ++ [1, 0, 0, 0, 0, 0, 0, 0])) = false :=
    rfl
  rw [search_cons, hpre, if_neg Bool.false_ne_true, List.length_cons, Nat.add_right_cancel_iff.ne]
  constructor
  · intro h
    exact infix_of_infix_append (by decide) hdis
      (Iff.mp (search_lt_length_iff (by decide) _) (Nat.lt_of_le_of_ne hle h))
  · intro h
    exact Nat.ne_of_lt (Iff.mpr (search_lt_length_iff (by decide) _) (h.trans List.infix_append_left))

/-- The coinbase script of `createAuxPow` passes exactly when the reversed block
hash holds no merged-mining header and is not 32 bytes `0x28`. -/
theorem checkCoinbaseScript_inputData {R : List UInt8} (hR : R.length = 32) (nChainId : Int32) :
    checkCoinbaseScript (0x28 :: (R ++ [1, 0, 0, 0, 0, 0, 0, 0])) R 0 nChainId 0 = .ok () ↔
      ¬ pchMergedMiningHeader <:+: R ∧ R ≠ List.replicate 32 0x28 := by
  by_cases hrep : R = List.replicate 32 0x28
  · -- the root is found on the push opcode, and the size field reads `0x28 01 00 00`
    subst hrep
    have herr : checkCoinbaseScript (0x28 :: (List.replicate 32 0x28 ++ [1, 0, 0, 0, 0, 0, 0, 0]))
        (List.replicate 32 0x28) 0 nChainId 0 =
          .error "Aux POW merkle branch size does not match parent coinbase" := rfl
    rw [herr]
    simp
  · have hne : R ≠ [] := fun h => by simp [h] at hR
    have hpc : search R (0x28 :: (R ++ [1, 0, 0, 0, 0, 0, 0, 0])) = 1 :=
      search_cons_append_of_ne_replicate hne (by rwa [hR])
    have hlen : (0x28 :: (R ++ [1, 0, 0, 0, 0, 0, 0, 0])).length = 41 := by simp [hR]
    have hdrop : (0x28 :: (R ++ [1, 0, 0, 0, 0, 0, 0, 0])).drop (1 + 32) = [1, 0, 0, 0, 0, 0, 0, 0] := by
      simp [List.drop_left' hR]
    have hhead := search_header_inputData R
    have hsize : DecodeLE32 [1, 0, 0, 0, 0, 0, 0, 0] = (1 : UInt32) <<< (0 : Nat).toUInt32 := by
      decide
    rw [checkCoinbaseScript_eq_ok, hpc, hR, hdrop, getExpectedIndex_zero]
    by_cases hm : pchMergedMiningHeader <:+: R
    · -- a header in the hash bytes stands after the root, which is found at `1`
      have hfar : search pchMergedMiningHeader (0x28 :: (R ++ [1, 0, 0, 0, 0, 0, 0, 0])) +
          pchMergedMiningHeader.length ≠ 1 := by
        rw [show pchMergedMiningHeader.length = 4 from rfl]
        omega
      rw [if_pos (Iff.mpr hhead hm)]
      exact iff_of_false (fun h => hfar h.2.1.2) (fun h => h.1 hm)
    · rw [if_neg (fun h => hm (Iff.mp hhead h)), hlen]
      exact iff_of_true ⟨by decide, by decide, by decide, hsize, rfl⟩ ⟨hm, hrep⟩

section SelfMined

variable (Hash : uint256 → uint256 → uint256) (GetHash : CTransaction → uint256)

/-- `createAuxPow` builds an auxpow for every auxpow header, and it passes `check`
for the header's own hash exactly when the parent's chain ID `0` is allowed and
the reversed hash bytes neither contain the merged-mining header nor are all
`0x28`. -/
theorem createAuxPow_check_iff (BlockHash : CPureBlockHeader → uint256) (header : CPureBlockHeader)
    (hAux : header.IsAuxpow = true) (nChainId : Int32) (params : Params) :
    ∃ auxpow, createAuxPow Hash GetHash BlockHash header = some auxpow ∧
      (check Hash GetHash auxpow (BlockHash header) nChainId params = .ok () ↔
        (params.fStrictChainId = false ∨ nChainId ≠ 0) ∧
        ¬ pchMergedMiningHeader <:+: (BlockHash header).data.reverse ∧
        (BlockHash header).data.reverse ≠ List.replicate 32 0x28) := by
  refine ⟨_, if_pos hAux, ?_⟩
  have hR : (BlockHash header).data.reverse.length = 32 := by
    rw [List.length_reverse, uint256.length_data]
  have hchain : ∀ m : uint256, CPureBlockHeader.GetChainId ⟨1, default, m, 0, 0, 0⟩ = 0 :=
    fun _ => (by decide : (1 : Int32) / VERSION_CHAIN_START = 0)
  have hleaf : ∀ x : uint256, checkMerkleBranch Hash x [] 0 = (computeMerkleRoot Hash [x]).1 := by
    intro x
    rw [MerkleBranch.computeMerkleRoot_fst, root_of_length_le_one Hash [x] (Nat.le_refl 1)]
    rfl
  have hB : checkMerkleBranch Hash (BlockHash header) [] (Int32.toInt 0) = BlockHash header := rfl
  have hvin : ∀ (script R : CScript), (∃ txin rest, [(⟨script⟩ : CTxIn)] = txin :: rest ∧
      checkCoinbaseScript txin.scriptSig R 0 nChainId 0 = .ok ()) ↔
      checkCoinbaseScript script R 0 nChainId 0 = .ok () := by
    intro script R
    constructor
    · rintro ⟨txin, rest, h, hc⟩
      obtain ⟨rfl, -⟩ := List.cons.inj h
      exact hc
    · exact fun hc => ⟨_, [], rfl, hc⟩
  have hstrict : ¬ (params.fStrictChainId = true ∧ (0 : Int32) = nChainId) ↔
      params.fStrictChainId = false ∨ nChainId ≠ 0 := by
    cases params.fStrictChainId <;> simp [eq_comm]
  rw [check_eq_ok]
  dsimp only
  rw [hchain, hleaf, hB, List.length_nil, hvin, pushData_inputData hR,
    checkCoinbaseScript_inputData hR, hstrict]
  simp

end SelfMined

/-- A block hash whose reversed bytes open with the merged-mining header. -/
def headerHash : uint256 := ⟨(pchMergedMiningHeader ++ List.replicate 28 0).reverse, rfl⟩

theorem createAuxPow_check_headerHash :
    ∃ auxpow, createAuxPow (fun x _ => x) (fun _ => default) (fun _ => headerHash)
        ⟨VERSION_AUXPOW, default, default, 0, 0, 0⟩ = some auxpow ∧
      check (fun x _ => x) (fun _ => default) auxpow headerHash 1 ⟨false⟩ ≠ .ok () := by
  obtain ⟨auxpow, hcreate, hiff⟩ := createAuxPow_check_iff (fun x _ => x) (fun _ => default)
    (fun _ => headerHash) ⟨VERSION_AUXPOW, default, default, 0, 0, 0⟩ (by decide) 1 ⟨false⟩
  have hmagic : pchMergedMiningHeader <:+: headerHash.data.reverse := by
    rw [headerHash, List.reverse_reverse]
    exact (List.prefix_append _ _).isInfix
  exact ⟨auxpow, hcreate, fun h => (Iff.mp hiff h).2.1 hmagic⟩

end Namecoin.Consensus.AuxPow
