import Namecoin.Util.Hex
import Namecoin.Consensus.Pow
import Namecoin.Lib.ExceptM

/-! # The auxpow miner's blocks (rpc/auxpow_miner.cpp)

`AuxpowMiner` keeps the blocks it has handed out for merged mining. `blocks`
owns them, `mapBlocks` finds them by hash for `submitauxblock`, and
`curBlocks` holds the current block of each coinbase script. A pointer into
`blocks` is its index there. `getCurrentBlock` hands out the current block of a
script. It builds a new one when the script has none, when the tip has moved,
or when the mempool has changed and the last block was built more than a
minute ago; a tip change first clears all three.

Every reachable state keeps its saved blocks under their own hashes, with the
auxpow version bit set (`Inv`). Two behaviours of the code go against what a
caller would expect. A regeneration for a script that already has a block saves the new block, but
`curBlocks.emplace` keeps the old entry, so the next call hands out the old
block again (`getCurrentBlock_keeps_old_block`). And `submitAuxBlock` looks the
block up by any spelling `FromHex` reads, but asserts that the spelling is the
lower-case `GetHex` of the block's hash: a spelling of a saved block's hash
with an upper-case digit aborts the node (`submitAuxBlock_assertion_iff`). -/

namespace Namecoin.Rpc
open Namecoin.Consensus.AuxPow Namecoin.Util Namecoin.Script
open Namecoin.Consensus.Pow (SetCompact)

/-- How an RPC call ends without a result. -/
inductive RpcError where
  /-- `throw JSONRPCError (code, message)` -/
  | json (code : Int) (message : String)
  /-- `throw std::runtime_error (message)` -/
  | runtime (message : String)
  /-- the stream throws while reading the auxpow -/
  | deserialize
  /-- an `assert` fails: the node aborts -/
  | assertion
  deriving DecidableEq, Repr

def RPC_OUT_OF_MEMORY : Int := -7
def RPC_INVALID_PARAMETER : Int := -8
def RPC_CLIENT_NOT_CONNECTED : Int := -9
def RPC_CLIENT_IN_INITIAL_DOWNLOAD : Int := -10

structure CBlock (Tx : Type) where
  header : CPureBlockHeader
  auxpow : Option CAuxPow
  vtx : List Tx

/-- `CPureBlockHeader::SetAuxpowVersion (auxpow)`. -/
def SetAuxpowVersion (h : CPureBlockHeader) (auxpow : Bool) : CPureBlockHeader :=
  { h with nVersion := if auxpow then h.nVersion ||| VERSION_AUXPOW
                       else h.nVersion &&& ~~~VERSION_AUXPOW }

/-- `CBlockHeader::SetAuxpow (apow)`: the auxpow and the version bit. -/
def CBlock.SetAuxpow {Tx : Type} (b : CBlock Tx) (apow : Option CAuxPow) : CBlock Tx :=
  { b with auxpow := apow, header := SetAuxpowVersion b.header apow.isSome }

/-- A `CBlockIndex` pointer; the index has one entry per block hash. -/
structure CBlockIndex where
  phashBlock : uint256
  nHeight : Nat
  deriving DecidableEq

/-- What the node answers the miner at the time of a call. -/
structure NodeState where
  /-- `connman.GetNodeCount (ConnectionDirection::Both)` -/
  nodeCount : Nat
  MineBlocksOnDemand : Bool
  IsInitialBlockDownload : Bool
  nAuxpowStartHeight : Nat
  /-- `chainman.ActiveChain ().Tip ()` -/
  tip : CBlockIndex
  /-- `mempool.GetTransactionsUpdated ()` -/
  transactionsUpdated : Nat
  /-- `GetTime ()` -/
  time : UInt64

def auxMiningCheck (node : NodeState) : Except RpcError Unit :=
  if node.nodeCount == 0 && !node.MineBlocksOnDemand then
    .error (.json RPC_CLIENT_NOT_CONNECTED "Namecoin is not connected!")
  else if node.IsInitialBlockDownload && !node.MineBlocksOnDemand then
    .error (.json RPC_CLIENT_IN_INITIAL_DOWNLOAD "Namecoin is downloading blocks...")
  else if node.tip.nHeight + 1 < node.nAuxpowStartHeight then
    .error (.runtime "mining auxblock method is not yet available")
  else .ok ()

/-- `std::map::emplace (k, v)`: a key that is present keeps its value. -/
def emplace {κ : Type} [DecidableEq κ] (m : κ → Option Nat) (k : κ) (v : Nat) : κ → Option Nat :=
  if (m k).isSome then m else Function.update m k (some v)

theorem lt_of_update {κ : Type} [DecidableEq κ] {m : κ → Option Nat} {n : Nat}
    (hm : ∀ k p, m k = some p → p < n) {k k' : κ} {p : Nat}
    (h : Function.update m k (some n) k' = some p) : p < n + 1 := by
  rw [Function.update_apply] at h
  split at h
  · cases h
    omega
  · exact Nat.lt_succ_of_lt (hm k' p h)

theorem lt_of_emplace {κ : Type} [DecidableEq κ] {m : κ → Option Nat} {n : Nat}
    (hm : ∀ k p, m k = some p → p < n) {k k' : κ} {p : Nat}
    (h : emplace m k n k' = some p) : p < n + 1 := by
  unfold emplace at h
  split at h
  · exact Nat.lt_succ_of_lt (hm k' p h)
  · exact lt_of_update hm h

/-- The miner's state; `txUpdatedLast`, `pindexPrev` and `startTime` describe
the last block it built. -/
structure AuxpowMiner (Tx : Type) where
  blocks : List (CBlock Tx)
  mapBlocks : uint256 → Option Nat
  /-- by `CScriptID`, the `Hash160` of the coinbase script -/
  curBlocks : valtype → Option Nat
  txUpdatedLast : Nat
  pindexPrev : Option CBlockIndex
  startTime : UInt64
  mapBlocks_lt : ∀ h p, mapBlocks h = some p → p < blocks.length
  curBlocks_lt : ∀ k p, curBlocks k = some p → p < blocks.length

namespace AuxpowMiner

variable {Tx : Type}

/-- The state before the first call, where `txUpdatedLast` and `startTime` are
not initialised. -/
def initial (txUpdatedLast : Nat) (startTime : UInt64) : AuxpowMiner Tx :=
  ⟨[], fun _ => none, fun _ => none, txUpdatedLast, none, startTime, (fun _ _ h => nomatch h),
    (fun _ _ h => nomatch h)⟩

/-- `blocks.clear (); mapBlocks.clear (); curBlocks.clear ();` -/
def clear (m : AuxpowMiner Tx) : AuxpowMiner Tx :=
  ⟨[], fun _ => none, fun _ => none, m.txUpdatedLast, m.pindexPrev, m.startTime,
    (fun _ _ h => nomatch h), (fun _ _ h => nomatch h)⟩

/-- The pointer `curBlocks` holds for a script, with the block it points to. -/
def curBlock (m : AuxpowMiner Tx) (scriptID : valtype) : Option (Nat × CBlock Tx) :=
  match h : m.curBlocks scriptID with
  | some p => some (p, m.blocks.get ⟨p, m.curBlocks_lt scriptID p h⟩)
  | none => none

section Miner

variable (Hash160 : CScript → valtype) (BlockHash : CPureBlockHeader → uint256)
  (BlockMerkleRoot : List Tx → uint256) (createNewBlock : NodeState → CScript → Option (CBlock Tx))

/-- A new block pushed onto `blocks`: the fields of the last construction,
`curBlocks.emplace (scriptID, pblockCur)` and `mapBlocks[hash] = pblockCur`. -/
def save (m : AuxpowMiner Tx) (node : NodeState) (scriptID : valtype) (newBlock : CBlock Tx) :
    AuxpowMiner Tx where
  blocks := m.blocks ++ [newBlock]
  mapBlocks := Function.update m.mapBlocks (BlockHash newBlock.header) (some m.blocks.length)
  curBlocks := emplace m.curBlocks scriptID m.blocks.length
  txUpdatedLast := node.transactionsUpdated
  pindexPrev := some node.tip
  startTime := node.time
  mapBlocks_lt _ _ h := by
    rw [List.length_append, List.length_singleton]
    exact lt_of_update m.mapBlocks_lt h
  curBlocks_lt _ _ h := by
    rw [List.length_append, List.length_singleton]
    exact lt_of_emplace m.curBlocks_lt h

/-- The template finished: its merkle root, and the auxpow version bit. -/
def finalise (b : CBlock Tx) : CBlock Tx :=
  { b with header := SetAuxpowVersion { b.header with hashMerkleRoot := BlockMerkleRoot b.vtx } true }

/-- The branch of `getCurrentBlock` that builds a new block. -/
def regenerate (m : AuxpowMiner Tx) (node : NodeState) (scriptPubKey : CScript) :
    AuxpowMiner Tx × Except RpcError (Option (Nat × CBlock Tx)) :=
  let m := if m.pindexPrev ≠ some node.tip then m.clear else m
  match createNewBlock node scriptPubKey with
  | none => (m, .error (.json RPC_OUT_OF_MEMORY "out of memory"))
  | some template =>
    let newBlock := finalise BlockMerkleRoot template
    (m.save BlockHash node (Hash160 scriptPubKey) newBlock, .ok (some (m.blocks.length, newBlock)))

/-- The part of `getCurrentBlock` under `cs_main`: the block to hand out. -/
def selectBlock (m : AuxpowMiner Tx) (node : NodeState) (scriptPubKey : CScript) :
    AuxpowMiner Tx × Except RpcError (Option (Nat × CBlock Tx)) :=
  let pblockCur := m.curBlock (Hash160 scriptPubKey)
  if pblockCur.isNone || m.pindexPrev != some node.tip ||
      (node.transactionsUpdated != m.txUpdatedLast && node.time - m.startTime > 60) then
    m.regenerate Hash160 BlockHash BlockMerkleRoot createNewBlock node scriptPubKey
  else (m, .ok pblockCur)

/-- The target of a block's `nBits`, which must be positive, neither negative
nor overflowing. -/
def blockTarget (b : CBlock Tx) : Except RpcError Nat :=
  let (arithTarget, fNegative, fOverflow) := SetCompact b.header.nBits
  if fNegative || fOverflow || arithTarget == 0 then
    .error (.runtime "invalid difficulty bits in block")
  else .ok arithTarget

/-- `getCurrentBlock (..., scriptPubKey, target)`: the new state, and the
pointer handed out with its target. -/
def getCurrentBlock (m : AuxpowMiner Tx) (node : NodeState) (scriptPubKey : CScript) :
    AuxpowMiner Tx × Except RpcError (Nat × Nat) :=
  let r := m.selectBlock Hash160 BlockHash BlockMerkleRoot createNewBlock node scriptPubKey
  (r.1, r.2 >>= fun
    -- `assert (pblockCur)`
    | none => .error .assertion
    | some (p, block) => (blockTarget block).map fun target => (p, target))

/-- The states the miner reaches: each call of `getCurrentBlock`, through
`createAuxBlock` or `getauxblock`, moves it on, whether or not the call throws. -/
inductive Reachable : AuxpowMiner Tx → Prop
  | initial (txUpdatedLast : Nat) (startTime : UInt64) : Reachable (initial txUpdatedLast startTime)
  | step {m : AuxpowMiner Tx} (node : NodeState) (scriptPubKey : CScript) :
      Reachable m →
      Reachable (m.getCurrentBlock Hash160 BlockHash BlockMerkleRoot createNewBlock node scriptPubKey).1

end Miner

def lookupSavedBlock (m : AuxpowMiner Tx) (hashHex : List UInt8) : Except RpcError (CBlock Tx) :=
  match FromHex hashHex with
  | none => .error (.json RPC_INVALID_PARAMETER "invalid block hash hex")
  | some hash =>
    match h : m.mapBlocks hash with
    | none => .error (.json RPC_INVALID_PARAMETER "block hash unknown")
    | some p => .ok (m.blocks.get ⟨p, m.mapBlocks_lt hash p h⟩)

section Submit

variable (BlockHash : CPureBlockHeader → uint256) (ReadAuxpow : List UInt8 → Option CAuxPow)
  (ProcessNewBlock : CBlock Tx → Bool)

/-- `submitAuxBlock (request, hashHex, auxpowHex)`. `ReadAuxpow` is
`ParseHex` and `ss >> *pow`, `none` when the stream throws. -/
def submitAuxBlock (m : AuxpowMiner Tx) (node : NodeState) (hashHex auxpowHex : List UInt8) :
    Except RpcError Bool :=
  auxMiningCheck node >>= fun _ =>
  m.lookupSavedBlock hashHex >>= fun block =>
  match ReadAuxpow auxpowHex with
  | none => .error .deserialize
  | some pow =>
    let block := block.SetAuxpow (some pow)
    if GetHex (BlockHash block.header) ≠ hashHex then .error .assertion
    else .ok (ProcessNewBlock block)

end Submit

/-! ## Pointers and lookups -/

theorem curBlock_eq_some {m : AuxpowMiner Tx} {k : valtype} {p : Nat} {b : CBlock Tx} :
    m.curBlock k = some (p, b) ↔ m.curBlocks k = some p ∧ m.blocks[p]? = some b := by
  unfold curBlock
  split
  · rename_i p' hp'
    simp only [hp', Option.some.injEq, Prod.mk.injEq, List.get_eq_getElem]
    constructor
    · rintro ⟨rfl, rfl⟩
      exact ⟨rfl, List.getElem?_eq_getElem _⟩
    · rintro ⟨rfl, hb⟩
      rw [List.getElem?_eq_getElem (m.curBlocks_lt k _ hp')] at hb
      exact ⟨rfl, Option.some.inj hb⟩
  · rename_i hnone
    simp [hnone]

theorem lookupSavedBlock_eq_ok {m : AuxpowMiner Tx} {hashHex : List UInt8} {b : CBlock Tx} :
    m.lookupSavedBlock hashHex = .ok b ↔
      ∃ h p, FromHex hashHex = some h ∧ m.mapBlocks h = some p ∧ m.blocks[p]? = some b := by
  unfold lookupSavedBlock
  split
  · rename_i hnone
    simp [hnone]
  · rename_i h hh
    split
    · rename_i hmap
      simp [hh, hmap]
    · rename_i p hmap
      simp only [Except.ok.injEq, hh, Option.some.injEq, List.get_eq_getElem]
      constructor
      · rintro rfl
        exact ⟨h, p, rfl, hmap, List.getElem?_eq_getElem _⟩
      · rintro ⟨_, p', rfl, hmap', hb⟩
        rw [hmap, Option.some.injEq] at hmap'
        subst hmap'
        rw [List.getElem?_eq_getElem (m.mapBlocks_lt h p hmap)] at hb
        exact Option.some.inj hb

theorem lookupSavedBlock_ne_assertion (m : AuxpowMiner Tx) (hashHex : List UInt8) :
    m.lookupSavedBlock hashHex ≠ .error .assertion := by
  unfold lookupSavedBlock
  split
  · simp
  · split <;> simp

theorem auxMiningCheck_ne_assertion (node : NodeState) : auxMiningCheck node ≠ .error .assertion := by
  unfold auxMiningCheck
  split_ifs <;> simp

theorem SetAuxpowVersion_idem (h : CPureBlockHeader) :
    SetAuxpowVersion (SetAuxpowVersion h true) true = SetAuxpowVersion h true := by
  simp [SetAuxpowVersion, Int32.or_assoc, Int32.or_self]

section Invariant

variable (Hash160 : CScript → valtype) (BlockHash : CPureBlockHeader → uint256)
  (BlockMerkleRoot : List Tx → uint256) (createNewBlock : NodeState → CScript → Option (CBlock Tx))

theorem save_getElem?_of_lt {m : AuxpowMiner Tx} {node : NodeState} {k : valtype} {b : CBlock Tx}
    {p : Nat} (hp : p < m.blocks.length) :
    (m.save BlockHash node k b).blocks[p]? = m.blocks[p]? :=
  List.getElem?_append_left hp

/-- A script with a current block keeps it when a block is saved. -/
theorem curBlock_save_of_eq_some {m : AuxpowMiner Tx} {node : NodeState} {k k' : valtype}
    {b : CBlock Tx} {x : Nat × CBlock Tx} (hcur : m.curBlock k' = some x) :
    (m.save BlockHash node k b).curBlock k' = some x := by
  obtain ⟨p, B⟩ := x
  obtain ⟨hp, hB⟩ := curBlock_eq_some.mp hcur
  have hlt := m.curBlocks_lt k' p hp
  refine curBlock_eq_some.mpr ⟨?_, (save_getElem?_of_lt BlockHash hlt).trans hB⟩
  show emplace m.curBlocks k m.blocks.length k' = some p
  unfold emplace
  split
  · exact hp
  · rename_i hk
    rw [Function.update_apply, if_neg]
    · exact hp
    · rintro rfl
      exact hk (by simp [hp])

/-- What every reachable state keeps: each saved block under its own hash, with
the auxpow version bit set. -/
structure Inv (m : AuxpowMiner Tx) : Prop where
  hash_mapBlocks : ∀ h p b, m.mapBlocks h = some p → m.blocks[p]? = some b → BlockHash b.header = h
  mapBlocks_saved : ∀ b ∈ m.blocks, (m.mapBlocks (BlockHash b.header)).isSome
  auxpowVersion : ∀ b ∈ m.blocks, SetAuxpowVersion b.header true = b.header

theorem inv_initial (txUpdatedLast : Nat) (startTime : UInt64) :
    Inv BlockHash (initial txUpdatedLast startTime : AuxpowMiner Tx) :=
  ⟨fun _ _ _ h => by simp [initial] at h, fun _ hb => by simp [initial] at hb,
    fun _ hb => by simp [initial] at hb⟩

theorem inv_clear (m : AuxpowMiner Tx) : Inv BlockHash m.clear :=
  ⟨fun _ _ _ h => by simp [clear] at h, fun _ hb => by simp [clear] at hb,
    fun _ hb => by simp [clear] at hb⟩

theorem inv_save {m : AuxpowMiner Tx} (hm : Inv BlockHash m) (node : NodeState) (k : valtype)
    {b : CBlock Tx} (hb : SetAuxpowVersion b.header true = b.header) :
    Inv BlockHash (m.save BlockHash node k b) where
  hash_mapBlocks h p b' hmap hget := by
    change Function.update m.mapBlocks (BlockHash b.header) (some m.blocks.length) h = some p at hmap
    rw [Function.update_apply] at hmap
    split at hmap
    · rename_i hh
      cases hmap
      change (m.blocks ++ [b])[m.blocks.length]? = some b' at hget
      rw [List.getElem?_append_right (Nat.le_refl _), Nat.sub_self] at hget
      cases hget
      exact hh.symm
    · have hlt := m.mapBlocks_lt h p hmap
      rw [save_getElem?_of_lt BlockHash hlt] at hget
      exact hm.hash_mapBlocks h p b' hmap hget
  mapBlocks_saved b' hb' := by
    change (Function.update m.mapBlocks (BlockHash b.header) (some m.blocks.length)
      (BlockHash b'.header)).isSome
    rw [Function.update_apply]
    split
    · rfl
    · rcases List.mem_append.mp hb' with hb' | hb'
      · exact hm.mapBlocks_saved b' hb'
      · rename_i hne
        exact absurd (by rw [List.mem_singleton.mp hb']) hne
  auxpowVersion b' hb' := by
    rcases List.mem_append.mp hb' with hb' | hb'
    · exact hm.auxpowVersion b' hb'
    · rw [List.mem_singleton.mp hb']
      exact hb

theorem finalise_auxpowVersion (b : CBlock Tx) :
    SetAuxpowVersion (finalise BlockMerkleRoot b).header true = (finalise BlockMerkleRoot b).header :=
  SetAuxpowVersion_idem _

theorem inv_regenerate {m : AuxpowMiner Tx} (hm : Inv BlockHash m) (node : NodeState)
    (scriptPubKey : CScript) :
    Inv BlockHash (m.regenerate Hash160 BlockHash BlockMerkleRoot createNewBlock node scriptPubKey).1 := by
  have hm' : Inv BlockHash (if m.pindexPrev ≠ some node.tip then m.clear else m) := by
    split
    · exact inv_clear BlockHash m
    · exact hm
  unfold regenerate
  cases createNewBlock node scriptPubKey with
  | none => exact hm'
  | some template =>
    exact inv_save BlockHash hm' node _ (finalise_auxpowVersion BlockMerkleRoot template)

theorem inv_getCurrentBlock {m : AuxpowMiner Tx} (hm : Inv BlockHash m) (node : NodeState)
    (scriptPubKey : CScript) :
    Inv BlockHash (m.getCurrentBlock Hash160 BlockHash BlockMerkleRoot createNewBlock node scriptPubKey).1 := by
  change Inv BlockHash (m.selectBlock Hash160 BlockHash BlockMerkleRoot createNewBlock node scriptPubKey).1
  dsimp only [selectBlock]
  split
  · exact inv_regenerate Hash160 BlockHash BlockMerkleRoot createNewBlock hm node scriptPubKey
  · exact hm

theorem Reachable.inv {m : AuxpowMiner Tx}
    (hm : Reachable Hash160 BlockHash BlockMerkleRoot createNewBlock m) : Inv BlockHash m := by
  induction hm with
  | initial txUpdatedLast startTime => exact inv_initial BlockHash txUpdatedLast startTime
  | step node scriptPubKey _ ih =>
    exact inv_getCurrentBlock Hash160 BlockHash BlockMerkleRoot createNewBlock ih node scriptPubKey

end Invariant

section Calls

variable (Hash160 : CScript → valtype) (BlockHash : CPureBlockHeader → uint256)
  (BlockMerkleRoot : List Tx → uint256) (createNewBlock : NodeState → CScript → Option (CBlock Tx))

/-- A script with a current block on the tip, and no mempool change since the
last construction, gets that block. -/
theorem selectBlock_of_fresh {m : AuxpowMiner Tx} {node : NodeState} {s : CScript}
    {x : Nat × CBlock Tx} (hcur : m.curBlock (Hash160 s) = some x)
    (htip : m.pindexPrev = some node.tip) (hfresh : node.transactionsUpdated = m.txUpdatedLast) :
    m.selectBlock Hash160 BlockHash BlockMerkleRoot createNewBlock node s = (m, .ok (some x)) := by
  simp [selectBlock, hcur, htip, hfresh]

/-- A changed mempool and a block older than a minute make a new block, even
for a script with a current one. -/
theorem selectBlock_of_stale {m : AuxpowMiner Tx} {node : NodeState} {s : CScript}
    {x : Nat × CBlock Tx} (hcur : m.curBlock (Hash160 s) = some x)
    (htip : m.pindexPrev = some node.tip) (hmempool : node.transactionsUpdated ≠ m.txUpdatedLast)
    (htime : 60 < node.time - m.startTime) :
    m.selectBlock Hash160 BlockHash BlockMerkleRoot createNewBlock node s =
      m.regenerate Hash160 BlockHash BlockMerkleRoot createNewBlock node s := by
  simp [selectBlock, hcur, htip, hmempool, htime]

theorem regenerate_of_tip {m : AuxpowMiner Tx} {node : NodeState} {s : CScript}
    {template : CBlock Tx} (htip : m.pindexPrev = some node.tip)
    (hnew : createNewBlock node s = some template) :
    m.regenerate Hash160 BlockHash BlockMerkleRoot createNewBlock node s =
      (m.save BlockHash node (Hash160 s) (finalise BlockMerkleRoot template),
        .ok (some (m.blocks.length, finalise BlockMerkleRoot template))) := by
  simp [regenerate, htip, hnew]

/-- A regeneration for a script that has a current block hands out the new
block, but `curBlocks.emplace` leaves the old pointer in place: the next call,
with nothing changed, hands out the old block again. -/
theorem getCurrentBlock_keeps_old_block {m : AuxpowMiner Tx} {node : NodeState} {s : CScript}
    {p : Nat} {B template : CBlock Tx} (hcur : m.curBlock (Hash160 s) = some (p, B))
    (htip : m.pindexPrev = some node.tip) (hmempool : node.transactionsUpdated ≠ m.txUpdatedLast)
    (htime : 60 < node.time - m.startTime) (hnew : createNewBlock node s = some template) :
    let first := m.getCurrentBlock Hash160 BlockHash BlockMerkleRoot createNewBlock node s
    first.2 = (blockTarget (finalise BlockMerkleRoot template)).map (fun t => (m.blocks.length, t)) ∧
      (first.1.getCurrentBlock Hash160 BlockHash BlockMerkleRoot createNewBlock node s).2 =
        (blockTarget B).map (fun t => (p, t)) ∧
      p < m.blocks.length := by
  intro first
  have hsel := (selectBlock_of_stale Hash160 BlockHash BlockMerkleRoot createNewBlock hcur htip
    hmempool htime).trans (regenerate_of_tip Hash160 BlockHash BlockMerkleRoot createNewBlock htip hnew)
  have hfirst : first.1 = m.save BlockHash node (Hash160 s) (finalise BlockMerkleRoot template) :=
    congrArg Prod.fst hsel
  -- the second call finds the old pointer, on the tip, with the mempool counter just recorded
  have hsel' : first.1.selectBlock Hash160 BlockHash BlockMerkleRoot createNewBlock node s =
      (first.1, .ok (some (p, B))) := by
    rw [hfirst]
    exact selectBlock_of_fresh Hash160 BlockHash BlockMerkleRoot createNewBlock
      (curBlock_save_of_eq_some BlockHash hcur) rfl rfl
  refine ⟨?_, ?_, ?_⟩
  · change (m.selectBlock Hash160 BlockHash BlockMerkleRoot createNewBlock node s).2 >>= _ = _
    rw [hsel]
    rfl
  · change (first.1.selectBlock Hash160 BlockHash BlockMerkleRoot createNewBlock node s).2 >>= _ = _
    rw [hsel']
    rfl
  · exact m.curBlocks_lt _ p (curBlock_eq_some.mp hcur).1

variable (ReadAuxpow : List UInt8 → Option CAuxPow) (ProcessNewBlock : CBlock Tx → Bool)

/-- After `SetAuxpow`, the hash of a block found by a spelling is, written by
`GetHex`, that spelling in lower case. -/
theorem GetHex_SetAuxpow_of_lookup {m : AuxpowMiner Tx} (hm : Inv BlockHash m)
    {hashHex : List UInt8} {b : CBlock Tx} (hb : m.lookupSavedBlock hashHex = .ok b) (pow : CAuxPow) :
    GetHex (BlockHash (b.SetAuxpow (some pow)).header) = hashHex.map ToLower := by
  obtain ⟨h, p, hh, hmap, hget⟩ := lookupSavedBlock_eq_ok.mp hb
  have hversion : (b.SetAuxpow (some pow)).header = b.header :=
    hm.auxpowVersion b (List.mem_of_getElem? hget)
  rw [hversion, hm.hash_mapBlocks h p b hmap hget]
  exact GetHex_FromHex hh

/-- `submitAuxBlock` fails its assertion exactly when the checks pass, the
spelling names a saved block, the auxpow reads, and the spelling is not in
lower case. -/
theorem submitAuxBlock_assertion_iff {m : AuxpowMiner Tx}
    (hm : Reachable Hash160 BlockHash BlockMerkleRoot createNewBlock m) (node : NodeState)
    (hashHex auxpowHex : List UInt8) :
    m.submitAuxBlock BlockHash ReadAuxpow ProcessNewBlock node hashHex auxpowHex = .error .assertion ↔
      auxMiningCheck node = .ok () ∧ (∃ b, m.lookupSavedBlock hashHex = .ok b) ∧
        (ReadAuxpow auxpowHex).isSome ∧ hashHex.map ToLower ≠ hashHex := by
  have hinv := hm.inv
  unfold submitAuxBlock
  cases hcheck : auxMiningCheck node with
  | error e =>
    have he : e ≠ .assertion := fun he => auxMiningCheck_ne_assertion node (he ▸ hcheck)
    simp [he]
  | ok u =>
    cases hlook : m.lookupSavedBlock hashHex with
    | error e =>
      have he : e ≠ .assertion := fun he => lookupSavedBlock_ne_assertion m hashHex (he ▸ hlook)
      simp [he]
    | ok b =>
      cases hread : ReadAuxpow auxpowHex with
      | none => simp
      | some pow =>
        have hhex := GetHex_SetAuxpow_of_lookup BlockHash hinv hlook pow
        simp only [Lib.ExceptM.ok_bind, hhex]
        by_cases hlow : hashHex.map ToLower = hashHex <;> simp [hlow]

end Calls

/-! ## A miner at work

A node at height 100 whose templates carry the time of the call, and a block
hash whose digits are letters. -/

def sampleNode (transactionsUpdated : Nat) (time : UInt64) : NodeState :=
  ⟨1, false, false, 0, ⟨default, 100⟩, transactionsUpdated, time⟩

def sampleTemplate (node : NodeState) (_ : CScript) : Option (CBlock Unit) :=
  some ⟨⟨0, node.tip.phashBlock, default, node.time.toUInt32, 0x1d00ffff, 0⟩, none, []⟩

/-- The hash `abab…ab`. -/
def sampleHash : uint256 := ⟨List.replicate 32 0xab, List.length_replicate⟩

def sampleAuxPow : CAuxPow := ⟨⟨[]⟩, [], [], 0, ⟨0, default, default, 0, 0, 0⟩⟩

/-- The miner after one `createauxblock` at time 0. -/
def sampleMiner : AuxpowMiner Unit :=
  ((initial 0 0 : AuxpowMiner Unit).getCurrentBlock id (fun _ => sampleHash) (fun _ => default)
    sampleTemplate (sampleNode 0 0) []).1

/-- After a mempool change at time 61, the call builds block 1 and hands it
out; the next call hands out block 0 again. -/
theorem getCurrentBlock_keeps_old_block_sample :
    let first := sampleMiner.getCurrentBlock id (fun _ => sampleHash) (fun _ => default) sampleTemplate
      (sampleNode 1 61) []
    first.2 = .ok (1, (SetCompact 0x1d00ffff).1) ∧
      (first.1.getCurrentBlock id (fun _ => sampleHash) (fun _ => default) sampleTemplate
        (sampleNode 1 61) []).2 = .ok (0, (SetCompact 0x1d00ffff).1) := by
  obtain ⟨h1, h2, -⟩ := @getCurrentBlock_keeps_old_block Unit id (fun _ => sampleHash) (fun _ => default)
    sampleTemplate sampleMiner (sampleNode 1 61) [] 0 _ _ rfl rfl (by decide) (by decide) rfl
  exact ⟨h1.trans rfl, h2.trans rfl⟩

/-- The upper-case spelling of the saved block's hash aborts the node. -/
theorem submitAuxBlock_upperCase_sample :
    sampleMiner.submitAuxBlock (fun _ => sampleHash) (fun _ => some sampleAuxPow) (fun _ => true)
      (sampleNode 0 0) ((GetHex sampleHash).map ToUpper) [] = .error .assertion := by
  have hlook : sampleMiner.lookupSavedBlock ((GetHex sampleHash).map ToUpper) =
      .ok (sampleMiner.blocks.get ⟨0, by decide⟩) :=
    lookupSavedBlock_eq_ok.mpr ⟨sampleHash, 0, by rw [FromHex_map_ToUpper, FromHex_GetHex], rfl, rfl⟩
  exact (submitAuxBlock_assertion_iff id (fun _ => sampleHash) (fun _ => default) sampleTemplate
    (fun _ => some sampleAuxPow) (fun _ => true) (Reachable.step (sampleNode 0 0) [] (Reachable.initial 0 0))
    (sampleNode 0 0) _ []).mpr ⟨rfl, ⟨_, hlook⟩, rfl, by decide⟩

end AuxpowMiner

end Namecoin.Rpc
