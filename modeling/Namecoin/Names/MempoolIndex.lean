import Mathlib
import Namecoin.Names.View
import Namecoin.Lib.KeyList
import Namecoin.Lib.LittleEndian
import Namecoin.Lib.ExceptM

/-! # The name index of the pool, kept in step with it (names/mempool.cpp)

`CNameMemPool` indexes the name operations of the pool's transactions: the
pending registration of each name (`mapNameRegs`), the set of pending updates
of each name (`updates`) and the txid of each `NAME_NEW` hash ever seen
(`mapNameNews`, never shrunk). `CTxMemPool` calls `addUnchecked` when it adds
an entry and `remove` when it removes one (`removeUnchecked`); the conflict
removals of the name index go back through `CTxMemPool::removeRecursive`,
which removes a transaction with all its descendants in the pool.

Each entry caches the one name operation of its transaction when it is built
(`cacheNameOp`). The maps are `std::map`s under the lexicographic order of the
bytes (`Lib.KeyList`); a `std::set<Txid>` is a list sorted by `Txid`'s order,
which compares the bytes `uint256` stores, least significant first, not the
numbers (`TxidLess`). An `assert` is `Failure.assertion`. -/

namespace Namecoin.Names.MempoolIndex
open Namecoin.Script Lib.KeyList Lib.ExceptM

/-- `std::less<valtype>`, the order of the name maps, is lexicographic on the bytes. -/
instance valtypeLt_strictTotalOrder : IsStrictTotalOrder valtype (· < ·) where
  trichotomous _ _ hab hba := List.le_antisymm (List.not_lt.mp hba) (List.not_lt.mp hab)
  irrefl a := List.lt_irrefl a
  trans _ _ _ := List.lt_trans

/-! ## Txids and their sets -/

/-- `m_data` of a `uint256`: the bytes of the number, least significant first. -/
def blobData (a : uint256) : List UInt8 := Lib.LittleEndian.encodeLE 32 a

/-- `Txid`'s `operator<`: `base_blob` compares `m_data` byte by byte. -/
def TxidLess (a b : uint256) : Prop := blobData a < blobData b

instance : DecidableRel TxidLess := fun a b =>
  inferInstanceAs (Decidable (blobData a < blobData b))

/-- `std::set<Txid>::insert`: a new txid goes before the first txid not below it. -/
def insertTxid (t : uint256) (s : List uint256) : List uint256 :=
  if t ∈ s then s else s.orderedInsert (fun x y => ¬ TxidLess y x) t

/-- `std::set<Txid>::erase`. -/
def eraseTxid (t : uint256) (s : List uint256) : List uint256 := s.filter (· ≠ t)

@[simp] theorem mem_insertTxid {t x : uint256} {s : List uint256} :
    x ∈ insertTxid t s ↔ x = t ∨ x ∈ s := by
  unfold insertTxid
  split
  · rename_i ht
    constructor
    · exact Or.inr
    · rintro (rfl | h)
      · exact ht
      · exact h
  · exact List.mem_orderedInsert _

theorem nodup_insertTxid {t : uint256} {s : List uint256} (h : s.Nodup) : (insertTxid t s).Nodup := by
  unfold insertTxid
  split
  · exact h
  · rename_i ht
    exact (List.perm_orderedInsert _ t s).nodup_iff.mpr (List.nodup_cons.mpr ⟨ht, h⟩)

@[simp] theorem mem_eraseTxid {t x : uint256} {s : List uint256} :
    x ∈ eraseTxid t s ↔ x ∈ s ∧ x ≠ t := by
  simp [eraseTxid]

theorem nodup_eraseTxid {t : uint256} {s : List uint256} (h : s.Nodup) : (eraseTxid t s).Nodup :=
  h.filter _

/-! ## Entries -/

/-- `CNameScript ()`: no name operation. -/
def noNameOp : CNameScript := ⟨.OP_NOP, [], []⟩

/-- The loop of the `CTxMemPoolEntry` constructor over the outputs: the name
operation found so far, and `assert (!nameOp.isNameOp ())` at a second one. -/
def nameOpLoop : CNameScript → List CTxOut → Except Failure CNameScript
  | nameOp, [] => .ok nameOp
  | nameOp, txOut :: vout =>
    let curNameOp := CNameScript.ofScript txOut.scriptPubKey
    if !curNameOp.isNameOp then nameOpLoop nameOp vout
    else if nameOp.isNameOp then .error .assertion
    else nameOpLoop curNameOp vout

/-- The name operation the constructor of `CTxMemPoolEntry` caches: the one
name output of a Namecoin transaction (`assert (nameOp.isNameOp ())`), and none
for another transaction. -/
def cacheNameOp (tx : CTransaction) : Except Failure CNameScript :=
  if tx.IsNamecoin then do
    let nameOp ← nameOpLoop noNameOp tx.vout
    if nameOp.isNameOp then pure nameOp else throw .assertion
  else pure noNameOp

/-- A pool entry with the name operation its constructor caches; an entry whose
constructor would fail an `assert` cannot be built. -/
structure CTxMemPoolEntry where
  tx : CTransaction
  nameOp : CNameScript
  cached : cacheNameOp tx = .ok nameOp

namespace CTxMemPoolEntry

def isNameNew (e : CTxMemPoolEntry) : Bool := e.nameOp.isNameOp && e.nameOp.op == .OP_NAME_NEW

def isNameRegistration (e : CTxMemPoolEntry) : Bool :=
  e.nameOp.isNameOp && e.nameOp.op == .OP_NAME_FIRSTUPDATE

def isNameUpdate (e : CTxMemPoolEntry) : Bool := e.nameOp.isNameOp && e.nameOp.op == .OP_NAME_UPDATE

def getNameNewHash (e : CTxMemPoolEntry) : valtype := e.nameOp.getOpHash

def getName (e : CTxMemPoolEntry) : valtype := e.nameOp.getOpName

end CTxMemPoolEntry

/-! ## The name index -/

/-- The three maps of `CNameMemPool`, each sorted by its keys. -/
structure CNameMemPool where
  mapNameRegs : List (valtype × uint256)
  updates : List (valtype × List uint256)
  mapNameNews : List (valtype × uint256)
  sorted_regs : Sorted (· < ·) mapNameRegs
  sorted_updates : Sorted (· < ·) updates
  sorted_news : Sorted (· < ·) mapNameNews

namespace CNameMemPool

def empty : CNameMemPool :=
  ⟨[], [], [], sorted_nil _, sorted_nil _, sorted_nil _⟩

/-- `mapNameRegs.insert ({name, txid})`. -/
def setReg (m : CNameMemPool) (name : valtype) (txid : uint256) : CNameMemPool :=
  { m with mapNameRegs := insertKey (· < ·) name txid m.mapNameRegs
           sorted_regs := sorted_insertKey _ name txid m.sorted_regs }

/-- `mapNameRegs.erase (name)`. -/
def eraseReg (m : CNameMemPool) (name : valtype) : CNameMemPool :=
  { m with mapNameRegs := eraseKey name m.mapNameRegs
           sorted_regs := sorted_eraseKey _ name m.sorted_regs }

/-- `updates[name] = txids`: a new set, or the set changed in place. -/
def setUpdates (m : CNameMemPool) (name : valtype) (txids : List uint256) : CNameMemPool :=
  { m with updates := insertKey (· < ·) name txids m.updates
           sorted_updates := sorted_insertKey _ name txids m.sorted_updates }

/-- `updates.erase (name)`. -/
def eraseUpdates (m : CNameMemPool) (name : valtype) : CNameMemPool :=
  { m with updates := eraseKey name m.updates
           sorted_updates := sorted_eraseKey _ name m.sorted_updates }

/-- `mapNameNews.insert ({newHash, txid})`. -/
def setNew (m : CNameMemPool) (newHash : valtype) (txid : uint256) : CNameMemPool :=
  { m with mapNameNews := insertKey (· < ·) newHash txid m.mapNameNews
           sorted_news := sorted_insertKey _ newHash txid m.sorted_news }

def registersName (m : CNameMemPool) (name : valtype) : Bool := (m.mapNameRegs.lookup name).isSome

@[simp] theorem setReg_regs (m : CNameMemPool) (name n : valtype) (txid : uint256) :
    (m.setReg name txid).mapNameRegs.lookup n = if n = name then some txid else m.mapNameRegs.lookup n :=
  lookup_insertKey _ name txid n _

@[simp] theorem setReg_updates (m : CNameMemPool) (name : valtype) (txid : uint256) :
    (m.setReg name txid).updates = m.updates := rfl

@[simp] theorem setReg_news (m : CNameMemPool) (name : valtype) (txid : uint256) :
    (m.setReg name txid).mapNameNews = m.mapNameNews := rfl

@[simp] theorem eraseReg_regs (m : CNameMemPool) (name n : valtype) :
    (m.eraseReg name).mapNameRegs.lookup n = if n = name then none else m.mapNameRegs.lookup n :=
  lookup_eraseKey name n _

@[simp] theorem eraseReg_updates (m : CNameMemPool) (name : valtype) :
    (m.eraseReg name).updates = m.updates := rfl

@[simp] theorem eraseReg_news (m : CNameMemPool) (name : valtype) :
    (m.eraseReg name).mapNameNews = m.mapNameNews := rfl

@[simp] theorem setUpdates_updates (m : CNameMemPool) (name n : valtype) (txids : List uint256) :
    (m.setUpdates name txids).updates.lookup n = if n = name then some txids else m.updates.lookup n :=
  lookup_insertKey _ name txids n _

@[simp] theorem setUpdates_regs (m : CNameMemPool) (name : valtype) (txids : List uint256) :
    (m.setUpdates name txids).mapNameRegs = m.mapNameRegs := rfl

@[simp] theorem setUpdates_news (m : CNameMemPool) (name : valtype) (txids : List uint256) :
    (m.setUpdates name txids).mapNameNews = m.mapNameNews := rfl

@[simp] theorem eraseUpdates_updates (m : CNameMemPool) (name n : valtype) :
    (m.eraseUpdates name).updates.lookup n = if n = name then none else m.updates.lookup n :=
  lookup_eraseKey name n _

@[simp] theorem eraseUpdates_regs (m : CNameMemPool) (name : valtype) :
    (m.eraseUpdates name).mapNameRegs = m.mapNameRegs := rfl

@[simp] theorem eraseUpdates_news (m : CNameMemPool) (name : valtype) :
    (m.eraseUpdates name).mapNameNews = m.mapNameNews := rfl

@[simp] theorem setNew_news (m : CNameMemPool) (newHash n : valtype) (txid : uint256) :
    (m.setNew newHash txid).mapNameNews.lookup n = if n = newHash then some txid else m.mapNameNews.lookup n :=
  lookup_insertKey _ newHash txid n _

@[simp] theorem setNew_regs (m : CNameMemPool) (newHash : valtype) (txid : uint256) :
    (m.setNew newHash txid).mapNameRegs = m.mapNameRegs := rfl

@[simp] theorem setNew_updates (m : CNameMemPool) (newHash : valtype) (txid : uint256) :
    (m.setNew newHash txid).updates = m.updates := rfl

/-- `addUnchecked (entry)`: the entry's name operation goes into its map. A
`NAME_NEW` hash already seen must be of this transaction, and a name may have
one pending registration only. -/
def addUnchecked (m : CNameMemPool) (entry : CTxMemPoolEntry) : Except Failure CNameMemPool := do
  let txHash := entry.tx.GetHash
  let m ← if entry.isNameNew then
      match m.mapNameNews.lookup entry.getNameNewHash with
      | some txid => if txid = txHash then pure m else throw .assertion
      | none => pure (m.setNew entry.getNameNewHash txHash)
    else pure m
  let m ← if entry.isNameRegistration then
      if m.registersName entry.getName then throw .assertion
      else pure (m.setReg entry.getName txHash)
    else pure m
  if entry.isNameUpdate then
    match m.updates.lookup entry.getName with
    | none => pure (m.setUpdates entry.getName [txHash])
    | some txids => pure (m.setUpdates entry.getName (insertTxid txHash txids))
  else pure m

/-- `remove (entry)`: the entry's registration or update leaves its map, and a
name's set of updates goes when it becomes empty. Both must be there. -/
def remove (m : CNameMemPool) (entry : CTxMemPoolEntry) : Except Failure CNameMemPool := do
  let m ← if entry.isNameRegistration then
      match m.mapNameRegs.lookup entry.getName with
      | none => throw .assertion
      | some _ => pure (m.eraseReg entry.getName)
    else pure m
  if entry.isNameUpdate then
    match m.updates.lookup entry.getName with
    | none => throw .assertion
    | some txids =>
      if entry.tx.GetHash ∈ txids then
        let txids := eraseTxid entry.tx.GetHash txids
        if txids.isEmpty then pure (m.eraseUpdates entry.getName)
        else pure (m.setUpdates entry.getName txids)
      else throw .assertion
  else pure m

/-- The loop of `checkTx` over the outputs: a `NAME_NEW` hash seen with another
txid, or a name with a pending registration, rejects the transaction. -/
def checkTxLoop (m : CNameMemPool) (txHash : uint256) : List CTxOut → Except Failure Bool
  | [] => .ok true
  | txout :: vout =>
    let nameOp := CNameScript.ofScript txout.scriptPubKey
    if !nameOp.isNameOp then checkTxLoop m txHash vout
    else
      match nameOp.op with
      | .OP_NAME_NEW =>
        match m.mapNameNews.lookup nameOp.getOpHash with
        | some txid => if txid ≠ txHash then .ok false else checkTxLoop m txHash vout
        | none => checkTxLoop m txHash vout
      | .OP_NAME_FIRSTUPDATE =>
        if m.registersName nameOp.getOpName then .ok false else checkTxLoop m txHash vout
      | .OP_NAME_UPDATE => checkTxLoop m txHash vout
      -- `default: assert (false)`
      | .OP_NOP => .error .assertion

/-- `checkTx (tx)`: whether the name operations of `tx` fit the pool. -/
def checkTx (m : CNameMemPool) (tx : CTransaction) : Except Failure Bool :=
  if !tx.IsNamecoin then .ok true else checkTxLoop m tx.GetHash tx.vout

/-- One turn of the loop of `check` over `mapTx`, with the set `nameRegs` of the
names registered so far and the counts `nameUpdates` of their updates. The
asserts that read the chain tip are left out. -/
def checkEntry (m : CNameMemPool) (acc : List valtype × List (valtype × Nat)) (entry : CTxMemPoolEntry) :
    Except Failure (List valtype × List (valtype × Nat)) := do
  let (nameRegs, nameUpdates) := acc
  let txHash := entry.tx.GetHash
  if entry.isNameNew then
    match m.mapNameNews.lookup entry.getNameNewHash with
    | none => throw .assertion
    | some txid => failIf (txid ≠ txHash) .assertion
  let nameRegs ← if entry.isNameRegistration then do
      match m.mapNameRegs.lookup entry.getName with
      | none => throw .assertion
      | some txid => failIf (txid ≠ txHash) .assertion
      failIf (nameRegs.count entry.getName ≠ 0) .assertion
      pure (Lib.OrdSet.insert entry.getName nameRegs)
    else pure nameRegs
  let nameUpdates ← if entry.isNameUpdate then do
      match m.updates.lookup entry.getName with
      | none => throw .assertion
      | some txids => failIf (txHash ∉ txids) .assertion
      pure (insertKey (· < ·) entry.getName ((nameUpdates.lookup entry.getName).getD 0 + 1) nameUpdates)
    else pure nameUpdates
  pure (nameRegs, nameUpdates)

/-- The last asserts of `check`: each name's count of updates is the size of
its set (`updates.at` throws for a name without one). -/
def checkCounts (m : CNameMemPool) : List (valtype × Nat) → Except Failure Unit
  | [] => .ok ()
  | (name, n) :: nameUpdates =>
    match m.updates.lookup name with
    | none => .error .assertion
    | some txids => do
      failIf (txids.length ≠ n) .assertion
      checkCounts m nameUpdates

/-- The structural part of `check (tip, spendheight)`: every name operation of
the pool is in its map, and the maps have no other entries. -/
def check (m : CNameMemPool) (mapTx : List CTxMemPoolEntry) : Except Failure Unit := do
  let (nameRegs, nameUpdates) ← mapTx.foldlM (checkEntry m) ([], [])
  failIf (nameRegs.length ≠ m.mapNameRegs.length) .assertion
  failIf (nameUpdates.length ≠ m.updates.length) .assertion
  checkCounts m nameUpdates

end CNameMemPool

/-! ## The pool -/

/-- The entries of `mapTx`, and the name index. -/
structure CTxMemPool where
  mapTx : List CTxMemPoolEntry
  names : CNameMemPool

namespace CTxMemPool

def empty : CTxMemPool := ⟨[], CNameMemPool.empty⟩

/-- `mapTx.find (txid)`. -/
def find (pool : CTxMemPool) (txid : uint256) : Option CTxMemPoolEntry :=
  pool.mapTx.find? fun e => e.tx.GetHash == txid

/-- The entry has an input that spends an output of the transaction `txid`. -/
def spends (e : CTxMemPoolEntry) (txid : uint256) : Bool := e.tx.vin.any fun txin => txin.prevout.hash == txid

/-- `mapNextTx.find (prevout)`: the entry that spends `prevout`. -/
def mapNextTx (pool : CTxMemPool) (prevout : COutPoint) : Option CTxMemPoolEntry :=
  pool.mapTx.find? fun e => e.tx.vin.any fun txin => txin.prevout == prevout

/-- The changeset's `mapTx.emplace` of a new entry and `addNewTransaction`, whose
step on the name index is `names.addUnchecked (entry)`. -/
def addNewTransaction (pool : CTxMemPool) (entry : CTxMemPoolEntry) : Except Failure CTxMemPool := do
  let names ← pool.names.addUnchecked entry
  pure ⟨pool.mapTx ++ [entry], names⟩

/-- `removeUnchecked (it)`: `names.remove (*it)`, then `mapTx.erase (it)`. -/
def removeUnchecked (pool : CTxMemPool) (entry : CTxMemPoolEntry) : Except Failure CTxMemPool := do
  let names ← pool.names.remove entry
  pure ⟨pool.mapTx.filter fun e => e.tx.GetHash != entry.tx.GetHash, names⟩

/-- The rounds of the descendant search: each adds the pool transactions that
spend from one found so far, until a round adds none. -/
def descendantsLoop (mapTx : List CTxMemPoolEntry) : Nat → List uint256 → List uint256
  | 0, found => found
  | fuel + 1, found =>
    let new := (mapTx.filter fun e => e.tx.GetHash ∉ found && found.any (spends e)).map (·.tx.GetHash)
    if new = [] then found else descendantsLoop mapTx fuel (found ++ new)

/-- `m_txgraph->GetDescendantsUnion (roots)`: the entries that are, or descend
from, one of `roots`. A round that adds finds a new entry, so `mapTx.length`
rounds reach them all. -/
def GetDescendants (pool : CTxMemPool) (roots : List uint256) : List CTxMemPoolEntry :=
  let found := descendantsLoop pool.mapTx pool.mapTx.length roots
  pool.mapTx.filter fun e => e.tx.GetHash ∈ found

/-- `removeUnchecked` of each entry of a list, in order. -/
def removeAll (pool : CTxMemPool) (entries : List CTxMemPoolEntry) : Except Failure CTxMemPool :=
  entries.foldlM removeUnchecked pool

/-- `removeRecursive (txiter)`: the entry with its descendants. -/
def removeRecursiveAt (pool : CTxMemPool) (to_remove : CTxMemPoolEntry) : Except Failure CTxMemPool :=
  pool.removeAll (pool.GetDescendants [to_remove.tx.GetHash])

/-- `removeRecursive (origTx)`: the transaction with its descendants; when it is
not in the pool, the entries that spend from it (`mapNextTx`) with theirs. -/
def removeRecursive (pool : CTxMemPool) (origTx : CTransaction) : Except Failure CTxMemPool :=
  match pool.find origTx.GetHash with
  | some origit => pool.removeRecursiveAt origit
  | none =>
    let to_remove := (pool.mapTx.filter fun e => spends e origTx.GetHash).map (·.tx.GetHash)
    pool.removeAll (pool.GetDescendants to_remove)

end CTxMemPool

namespace CNameMemPool
open CTxMemPool

/-- The body shared by `removeConflicts` and `removeUnexpireConflicts`: the
pending registration of `name`, which must be in the pool, goes with its
descendants. -/
def removeRegistration (pool : CTxMemPool) (name : valtype) : Except Failure CTxMemPool :=
  match pool.names.mapNameRegs.lookup name with
  | none => .ok pool
  | some txid =>
    match pool.find txid with
    | none => .error .assertion
    | some mit2 => pool.removeRecursive mit2.tx

/-- `removeConflicts (tx)`: the pending registrations of the names `tx` registers. -/
def removeConflicts (pool : CTxMemPool) (tx : CTransaction) : Except Failure CTxMemPool :=
  if !tx.IsNamecoin then .ok pool
  else
    tx.vout.foldlM (fun pool txout =>
      let nameOp := CNameScript.ofScript txout.scriptPubKey
      if nameOp.isNameOp && nameOp.op == .OP_NAME_FIRSTUPDATE then removeRegistration pool nameOp.getOpName
      else .ok pool) pool

/-- `removeUnexpireConflicts (unexpired)`: the pending registrations of names
that a disconnected block makes unexpired again. -/
def removeUnexpireConflicts (pool : CTxMemPool) (unexpired : List valtype) : Except Failure CTxMemPool :=
  unexpired.foldlM removeRegistration pool

/-- The loop of `removeExpireConflicts` over its copy of a name's updates: each
must still be in the pool, and goes with its descendants. -/
def removeTxids (pool : CTxMemPool) : List uint256 → Except Failure CTxMemPool
  | [] => .ok pool
  | txid :: txids =>
    match pool.find txid with
    | none => .error .assertion
    | some mit2 => do
      let pool ← pool.removeRecursive mit2.tx
      removeTxids pool txids

/-- `removeExpireConflicts (expired)`: the pending updates of names that a
connected block makes expire, after which the name has none
(`assert (updates.count (name) == 0)`). -/
def removeExpireConflicts (pool : CTxMemPool) : List valtype → Except Failure CTxMemPool
  | [] => .ok pool
  | name :: expired =>
    match pool.names.updates.lookup name with
    | none => removeExpireConflicts pool expired
    | some txidsCopy => do
      let pool ← removeTxids pool txidsCopy
      if (pool.names.updates.lookup name).isSome then throw .assertion
      else removeExpireConflicts pool expired

end CNameMemPool

namespace CTxMemPool

/-- One input of `tx` in `removeConflicts`: the entry that spends the same
outpoint, unless it is `tx` itself, goes with its descendants. -/
def removeSpender (tx : CTransaction) (pool : CTxMemPool) (txin : CTxIn) : Except Failure CTxMemPool :=
  match pool.mapNextTx txin.prevout with
  | some it => if it.tx.GetHash ≠ tx.GetHash then pool.removeRecursiveAt it else .ok pool
  | none => .ok pool

/-- `removeConflicts (tx)` of the pool: each entry that spends an input of `tx`
goes with its descendants, and then the name index removes its conflicts. -/
def removeConflicts (pool : CTxMemPool) (tx : CTransaction) : Except Failure CTxMemPool := do
  let pool ← tx.vin.foldlM (removeSpender tx) pool
  CNameMemPool.removeConflicts pool tx

/-- One transaction of the block in `removeForBlock`: it leaves the pool without
its descendants, and what conflicts with it goes. -/
def removeBlockTx (pool : CTxMemPool) (tx : CTransaction) : Except Failure CTxMemPool := do
  let pool ← match pool.find tx.GetHash with
    | some it => pool.removeUnchecked it
    | none => .ok pool
  pool.removeConflicts tx

/-- `removeForBlock (vtx)`. -/
def removeForBlock (pool : CTxMemPool) (vtx : List CTransaction) : Except Failure CTxMemPool :=
  vtx.foldlM removeBlockTx pool

end CTxMemPool

/-- What the node does to the pool and its name index. -/
inductive Action where
  /-- a transaction accepted to the pool -/
  | addNewTransaction (entry : CTxMemPoolEntry)
  /-- `removeRecursive`, as eviction, expiry and reorgs call it -/
  | removeRecursive (tx : CTransaction)
  /-- `ConnectTip`: the block's transactions and their conflicts -/
  | removeForBlock (vtx : List CTransaction)
  /-- `ConnectTip`: the names the block makes expire -/
  | removeExpireConflicts (expired : List valtype)
  /-- `DisconnectTip`: the names the disconnected block makes unexpired -/
  | removeUnexpireConflicts (unexpired : List valtype)

namespace Action

/-- What the callers check first: a new transaction is not in the pool yet and
passes `checkTx` (`AcceptToMemoryPool`). -/
def Allowed (pool : CTxMemPool) : Action → Prop
  | addNewTransaction entry => pool.find entry.tx.GetHash = none ∧ pool.names.checkTx entry.tx = .ok true
  | _ => True

def run (pool : CTxMemPool) : Action → Except Failure CTxMemPool
  | addNewTransaction entry => pool.addNewTransaction entry
  | removeRecursive tx => pool.removeRecursive tx
  | removeForBlock vtx => pool.removeForBlock vtx
  | removeExpireConflicts expired => CNameMemPool.removeExpireConflicts pool expired
  | removeUnexpireConflicts unexpired => CNameMemPool.removeUnexpireConflicts pool unexpired

end Action

end Namecoin.Names.MempoolIndex
