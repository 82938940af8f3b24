import Mathlib
import Namecoin.Names.Main

/-! # Disconnecting a block (validation.cpp, names/main.cpp)

`DisconnectBlock` takes a block back off the chain state with the undo data
that `ConnectBlock` wrote for it. `UnexpireNames` first puts back the coins of
the names whose expiry the block spent. Then each transaction, the last first,
loses its outputs and gets back the coins it spent (`ApplyTxInUndo`). Last, the
name database is rolled back, the most recent change first
(`CNameTxUndo::apply`).

A check that fails makes the result `DISCONNECT_UNCLEAN`, or
`DISCONNECT_FAILED` where the source gives up at once; the view is then what
the steps before left. `UnexpireNames` reports its failures by the text it
logs. An `assert` or a thrown `logic_error` is `Failure.assertion`, as in
`ConnectBlock`. -/

namespace Namecoin.Names
open Namecoin.Script

/-- `DisconnectResult`. -/
inductive DisconnectResult where
  | DISCONNECT_OK
  | DISCONNECT_UNCLEAN
  | DISCONNECT_FAILED
  deriving DecidableEq, Repr

/-- `MAX_OUTPUTS_PER_BLOCK`: `MAX_BLOCK_WEIGHT` over the weight of an empty
`CTxOut`, nine bytes at `WITNESS_SCALE_FACTOR` four. -/
def MAX_OUTPUTS_PER_BLOCK : Nat := 4000000 / (4 * 9)

/-- `AccessByTxid (view, txid)`: the first unspent coin among the first
`MAX_OUTPUTS_PER_BLOCK` outputs of the transaction. -/
def AccessByTxid (view : CoinsView) (txid : uint256) : Option Coin :=
  (List.range MAX_OUTPUTS_PER_BLOCK).findSome? fun n => view.coins ⟨txid, n⟩

namespace CoinsView

/-- `ApplyTxInUndo (undo, view, out)`. An undo coin without a height, as older
versions wrote them, takes its height and coinbase flag from another unspent
output of its transaction. -/
def ApplyTxInUndo (view : CoinsView) (undo : Coin) (out : COutPoint) :
    Except Failure (DisconnectResult × CoinsView) :=
  let fClean := !view.HaveCoin out
  let undo? : Option Coin :=
    if undo.nHeight = 0 then
      (AccessByTxid view out.hash).map fun alternate =>
        { undo with nHeight := alternate.nHeight, fCoinBase := alternate.fCoinBase }
    else some undo
  match undo? with
  | none => .ok (.DISCONNECT_FAILED, view)
  | some undo => do
    let view ← view.AddCoin out undo !fClean
    pure (if fClean then .DISCONNECT_OK else .DISCONNECT_UNCLEAN, view)

end CoinsView

/-- `CNameTxUndo::apply (view)`: a new name is deleted again, an updated one
gets its old data back, off the history. -/
def CNameTxUndo.apply (fNameHistory : Bool) (u : CNameTxUndo) (view : CoinsView) :
    Except Failure CoinsView :=
  if u.isNew then view.DeleteName fNameHistory u.name
  else view.SetName fNameHistory u.name u.oldData true

/-! ## Unexpiring names -/

/-- One turn of the loop of `UnexpireNames`, on an expired coin and the names
unexpired so far: the coin goes back to the update outpoint of its name. A
failed check gives the text it logs. -/
def unexpireCoin (rules : ConsensusRules) (nHeight : Nat) (coin : Coin) (names : List valtype)
    (view : CoinsView) : Except Failure (Option String × CoinsView × List valtype) :=
  let nameOp := CNameScript.ofScript coin.out.scriptPubKey
  if !nameOp.isNameOp || !nameOp.isAnyUpdate then
    .ok (some "wrong script to be unexpired", view, names)
  else
    let name := nameOp.getOpName
    if names.contains name then .ok (some "name unexpired twice", view, names)
    else
      let names := Lib.OrdSet.insert name names
      match view.GetName name with
      | none => .ok (some "no data for name to be unexpired", view, names)
      | some data =>
        if !data.isExpired rules nHeight || data.isExpired rules (nHeight - 1) then
          .ok (some
            "name to be unexpired is not expired in the DB or it was already expired before the current height",
            view, names)
        else do
          let (res, view) ← view.ApplyTxInUndo coin data.prevout
          if res ≠ .DISCONNECT_OK then .ok (some "failed to undo name coin spending", view, names)
          else .ok (none, view, names)

/-- The loop of `UnexpireNames` over the expired coins, the last first; it stops
at the first failed check. -/
def unexpireLoop (rules : ConsensusRules) (nHeight : Nat) :
    List Coin → List valtype → CoinsView → Except Failure (Option String × CoinsView × List valtype)
  | [], names, view => .ok (none, view, names)
  | coin :: rest, names, view => do
    match ← unexpireCoin rules nHeight coin names view with
    | (some err, view, names) => .ok (some err, view, names)
    | (none, view, names) => unexpireLoop rules nHeight rest names view

/-- `UnexpireNames (nHeight, undo, view, names)`: the coins the expiry at
`nHeight` spent go back to the update outpoints of their names. -/
def UnexpireNames (rules : ConsensusRules) (nHeight : Nat) (undo : CBlockUndo) (view : CoinsView) :
    Except Failure (Option String × CoinsView × List valtype) :=
  if nHeight = 0 then .ok (none, view, [])
  else unexpireLoop rules nHeight undo.vexpired.reverse [] view

/-! ## Undoing the transactions -/

/-- The output loop of `DisconnectBlock` for `tx`, from output `o` on: each
spendable output is spent, and must be the coin the block created, unless the
transaction is a historic bug whose name outputs were never added. -/
def spendOutputs (params : CChainParams) (nHeight : Nat) (tx : CTransaction) :
    Nat → List CTxOut → Bool → CoinsView → Bool × CoinsView
  | _, [], fClean, view => (fClean, view)
  | o, txout :: rest, fClean, view =>
    if IsUnspendable txout.scriptPubKey then spendOutputs params nHeight tx (o + 1) rest fClean view
    else
      let (coin?, view) := match view.SpendCoin ⟨tx.GetHash, o⟩ with
        | some (coin, view) => (some coin, view)
        | none => (none, view)
      let same := coin?.any fun coin =>
        txout == coin.out && nHeight == coin.nHeight && tx.IsCoinBase == coin.fCoinBase
      let ignored := IsHistoricBug params.mapHistoricBugs tx.GetHash nHeight == some .BUG_FULLY_IGNORE
      spendOutputs params nHeight tx (o + 1) rest (fClean && (same || ignored)) view

/-- The input loop of `DisconnectBlock`, over the inputs with their undo coins,
the last first. -/
def restoreInputs : List (Coin × CTxIn) → Bool → CoinsView →
    Except Failure (DisconnectResult × Bool × CoinsView)
  | [], fClean, view => .ok (.DISCONNECT_OK, fClean, view)
  | (undo, txin) :: rest, fClean, view => do
    let (res, view) ← view.ApplyTxInUndo undo txin.prevout
    if res = .DISCONNECT_FAILED then .ok (.DISCONNECT_FAILED, fClean, view)
    else restoreInputs rest (fClean && res != .DISCONNECT_UNCLEAN) view

/-- The body of the loop of `DisconnectBlock` for transaction `tx` at position
`i`: its outputs are spent, and unless it is the coinbase the coins it spent
come back from its undo data. -/
def undoTx (params : CChainParams) (nHeight : Nat) (vtxundo : List CTxUndo) (tx : CTransaction)
    (i : Nat) (fClean : Bool) (view : CoinsView) : Except Failure (DisconnectResult × Bool × CoinsView) :=
  let (fClean, view) := spendOutputs params nHeight tx 0 tx.vout fClean view
  if i = 0 then .ok (.DISCONNECT_OK, fClean, view)
  else
    match vtxundo[i - 1]? with
    -- the size check of `DisconnectBlock` leaves no position without undo data
    | none => .ok (.DISCONNECT_FAILED, fClean, view)
    | some txundo =>
      if txundo.length ≠ tx.vin.length then .ok (.DISCONNECT_FAILED, fClean, view)
      else restoreInputs (txundo.zip tx.vin).reverse fClean view

/-- The loop of `DisconnectBlock` over the transactions with their positions,
the last first; it stops at the first `DISCONNECT_FAILED`. -/
def undoTxs (params : CChainParams) (nHeight : Nat) (vtxundo : List CTxUndo) :
    List (CTransaction × Nat) → Bool → CoinsView → Except Failure (DisconnectResult × Bool × CoinsView)
  | [], fClean, view => .ok (.DISCONNECT_OK, fClean, view)
  | (tx, i) :: rest, fClean, view => do
    let (res, fClean, view) ← undoTx params nHeight vtxundo tx i fClean view
    if res = .DISCONNECT_FAILED then .ok (.DISCONNECT_FAILED, fClean, view)
    else undoTxs params nHeight vtxundo rest fClean view

/-- The coinbase checks of `CheckBlock`: the first transaction is a coinbase,
and no other is. -/
def checkBlockCoinbase : List CTransaction → Except Failure Unit
  | [] => .error (.invalid "bad-cb-missing")
  | tx :: rest =>
    if !tx.IsCoinBase then .error (.invalid "bad-cb-missing")
    else if rest.any CTransaction.IsCoinBase then .error (.invalid "bad-cb-multiple")
    else .ok ()

/-- The name part of `DisconnectBlock (block, pindex, view, unexpiredNames)` for a
block at height `nHeight` with its undo data: the result, the view, and the names
`UnexpireNames (nHeight + 1)` unexpired. -/
def DisconnectBlock (params : CChainParams) (fNameHistory : Bool) (nHeight : Nat) (view : CoinsView)
    (vtx : List CTransaction) (blockUndo : CBlockUndo) :
    Except Failure (DisconnectResult × CoinsView × List valtype) := do
  if blockUndo.vtxundo.length + 1 ≠ vtx.length then return (.DISCONNECT_FAILED, view, [])
  let (err, view, unexpiredNames) ← UnexpireNames params.rules (nHeight + 1) blockUndo view
  let (res, fClean, view) ←
    undoTxs params nHeight blockUndo.vtxundo (vtx.zipIdx.reverse) err.isNone view
  if res = .DISCONNECT_FAILED then return (.DISCONNECT_FAILED, view, unexpiredNames)
  let view ← blockUndo.vnameundo.reverse.foldlM (fun view u => u.apply fNameHistory view) view
  pure (if fClean then .DISCONNECT_OK else .DISCONNECT_UNCLEAN, view, unexpiredNames)

end Namecoin.Names
