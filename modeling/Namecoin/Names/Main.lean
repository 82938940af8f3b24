import Namecoin.Names.View

/-! # names/main.cpp and the name part of `ConnectBlock`

`CheckNameTransaction` validates the name operation of a transaction against
the view; `ApplyNameTransaction` writes its name outputs to the name database;
`ExpireNames` spends the coins of the names that expire at a height. A block
is connected as `ConnectBlock` does it: per transaction the checks of
`CheckBlock` and `CheckTxInputs` that concern names (no input twice,
`CheckNameTransaction`, not run on the coinbase), then `UpdateCoins` and
`ApplyNameTransaction`, and last `ExpireNames (height + 1)`. `Hash160` is the
hash function of `hash.h`. -/

namespace Namecoin.Names
open Namecoin.Script

inductive TxValidationResult where
  | TX_CONSENSUS
  | TX_MISSING_INPUTS
  | TX_PREMATURE_SPEND
  deriving DecidableEq, Repr

/-- How `CheckNameTransaction` fails: `state.Invalid (result, reason, debug)`,
or an `assert`. -/
inductive CheckError where
  | invalid (result : TxValidationResult) (reason debug : String)
  | assertion
  deriving DecidableEq, Repr

/-- The flags `CheckNameTransaction` reads. -/
structure NameFlags where
  SCRIPT_VERIFY_NAMES_MEMPOOL : Bool
  SCRIPT_VERIFY_NAMES_LONG_SALT : Bool
  deriving DecidableEq, Repr

/-- The input loop of `CheckNameTransaction` from input `i` on: every input
coin must exist, and at most one is a name script. -/
def findNameIn (view : CoinsView) :
    Nat → List CTxIn → Option (Nat × CNameScript × Coin) →
      Except CheckError (Option (Nat × CNameScript × Coin))
  | _, [], found => .ok found
  | i, txin :: rest, found =>
    match view.GetCoin txin.prevout with
    | none => .error (.invalid .TX_MISSING_INPUTS "bad-txns-inputs-missingorspent"
        "Failed to fetch name input coin")
    | some coin =>
      let op := CNameScript.ofScript coin.out.scriptPubKey
      if op.isNameOp then
        if found.isSome then .error (.invalid .TX_CONSENSUS "tx-multiple-name-inputs"
          "Multiple name inputs")
        else findNameIn view (i + 1) rest (some (i, op, coin))
      else findNameIn view (i + 1) rest found

@[simp] theorem findNameIn_nil {view : CoinsView} {i : Nat} {found} :
    findNameIn view i [] found = .ok found := rfl

theorem findNameIn_cons {view : CoinsView} {i : Nat} {txin : CTxIn} {rest : List CTxIn} {found} :
    findNameIn view i (txin :: rest) found =
      match view.coins txin.prevout with
      | none => .error (.invalid .TX_MISSING_INPUTS "bad-txns-inputs-missingorspent"
          "Failed to fetch name input coin")
      | some coin =>
        if (CNameScript.ofScript coin.out.scriptPubKey).isNameOp then
          if found.isSome then .error (.invalid .TX_CONSENSUS "tx-multiple-name-inputs"
            "Multiple name inputs")
          else findNameIn view (i + 1) rest (some (i, CNameScript.ofScript coin.out.scriptPubKey, coin))
        else findNameIn view (i + 1) rest found := rfl

/-- The output loop of `CheckNameTransaction` from output `i` on. -/
def findNameOut : Nat → List CTxOut → Option (Nat × CNameScript) →
    Except CheckError (Option (Nat × CNameScript))
  | _, [], found => .ok found
  | i, txout :: rest, found =>
    let op := CNameScript.ofScript txout.scriptPubKey
    if op.isNameOp then
      if found.isSome then .error (.invalid .TX_CONSENSUS "tx-multiple-name-outputs"
        "Multiple name outputs")
      else findNameOut (i + 1) rest (some (i, op))
    else findNameOut (i + 1) rest found

@[simp] theorem findNameOut_nil {i : Nat} {found} : findNameOut i [] found = .ok found := rfl

theorem findNameOut_cons {i : Nat} {txout : CTxOut} {rest : List CTxOut} {found} :
    findNameOut i (txout :: rest) found =
      if (CNameScript.ofScript txout.scriptPubKey).isNameOp then
        if found.isSome then .error (.invalid .TX_CONSENSUS "tx-multiple-name-outputs"
          "Multiple name outputs")
        else findNameOut (i + 1) rest (some (i, CNameScript.ofScript txout.scriptPubKey))
      else findNameOut (i + 1) rest found := rfl

/-- `if (cond) return state.Invalid (result, reason, debug);` -/
def rejectIf (cond : Bool) (result : TxValidationResult) (reason debug : String) :
    Except CheckError Unit :=
  if cond then .error (.invalid result reason debug) else .ok ()

@[simp] theorem rejectIf_true {result reason debug} :
    rejectIf true result reason debug = .error (.invalid result reason debug) := rfl

@[simp] theorem rejectIf_false {result reason debug} : rejectIf false result reason debug = .ok () :=
  rfl

/-- `assert (cond);` -/
def assertThat (cond : Prop) [Decidable cond] : Except CheckError Unit :=
  if cond then .ok () else .error .assertion

theorem assertThat_def (cond : Prop) [Decidable cond] :
    assertThat cond = if cond then .ok () else .error .assertion := rfl

@[simp] theorem rejectIf_eq_ok {cond : Bool} {result reason debug} {u : Unit} :
    rejectIf cond result reason debug = .ok u ↔ cond = false := by
  cases cond <;> simp

@[simp] theorem rejectIf_ne_assertion {cond : Bool} {result reason debug} :
    rejectIf cond result reason debug ≠ .error .assertion := by
  cases cond <;> simp

@[simp] theorem assertThat_eq_ok {cond : Prop} [Decidable cond] {u : Unit} :
    assertThat cond = .ok u ↔ cond := by
  by_cases h : cond <;> simp [assertThat_def, h]

@[simp] theorem assertThat_eq_error {cond : Prop} [Decidable cond] {e : CheckError} :
    assertThat cond = .error e ↔ ¬cond ∧ e = .assertion := by
  by_cases h : cond <;> simp [assertThat_def, h, eq_comm]

/-- The `NAME_UPDATE` part of `CheckNameTransaction`, for the name input
`nIn` with script `nameOpIn` and coin `coinIn`. -/
def checkNameUpdate (rules : ConsensusRules) (tx : CTransaction) (nHeight : Nat)
    (view : CoinsView) (nIn : Nat) (nameOpIn : CNameScript) (coinIn : Coin) (name : valtype) :
    Except CheckError Unit := do
  rejectIf (!nameOpIn.isAnyUpdate) .TX_CONSENSUS "tx-nameupdate-invalid-prev"
    "Name input for NAME_UPDATE is not an update"
  rejectIf (name ≠ nameOpIn.getOpName) .TX_CONSENSUS "tx-nameupdate-name-mismatch"
    "NAME_UPDATE name mismatch to name input"
  let inHeight := coinIn.nHeight
  -- a pending name input is not checked against the database
  if inHeight = MEMPOOL_HEIGHT then pure ()
  else
    let some oldName := view.GetName name
      | throw (.invalid .TX_CONSENSUS "tx-nameupdate-nonexistant" "NAME_UPDATE name does not exist")
    rejectIf (oldName.isExpired rules nHeight) .TX_CONSENSUS "tx-nameupdate-expired"
      "NAME_UPDATE on an expired name"
    assertThat (inHeight = oldName.nHeight)
    assertThat ((tx.vin.getD nIn ⟨⟨0, NULL_INDEX⟩⟩).prevout = oldName.prevout)

/-- The `NAME_FIRSTUPDATE` part of `CheckNameTransaction`. -/
def checkNameFirstUpdate (rules : ConsensusRules) (Hash160 : valtype → valtype) (nHeight : Nat)
    (view : CoinsView) (flags : NameFlags) (nameOpOut nameOpIn : CNameScript) (coinIn : Coin)
    (name : valtype) : Except CheckError Unit := do
  let fMempool := flags.SCRIPT_VERIFY_NAMES_MEMPOOL
  rejectIf (nameOpIn.op ≠ .OP_NAME_NEW) .TX_CONSENSUS "tx-firstupdate-nonnew-input"
    "NAME_FIRSTUPDATE input is not a NAME_NEW"
  -- the maturity of the NAME_NEW is not checked for the mempool
  (if !fMempool then do
      assertThat (coinIn.nHeight ≠ MEMPOOL_HEIGHT)
      rejectIf (coinIn.nHeight + MIN_FIRSTUPDATE_DEPTH > nHeight) .TX_PREMATURE_SPEND
        "tx-firstupdate-immature" "NAME_FIRSTUPDATE on immature NAME_NEW"
    else pure ())
  let requireLongSalt := flags.SCRIPT_VERIFY_NAMES_LONG_SALT
  rejectIf (requireLongSalt && nameOpOut.getOpRand.length < 20) .TX_CONSENSUS
    "tx-firstupdate-invalid-rand" "NAME_FIRSTUPDATE rand value is too short"
  rejectIf (nameOpOut.getOpRand.length > 20) .TX_CONSENSUS "tx-firstupdate-invalid-rand"
    "NAME_FIRSTUPDATE rand value is too large"
  let hash := Hash160 (nameOpOut.getOpRand ++ name)
  -- `uint160 (nameOpIn.getOpHash ())` asserts a 20-byte hash
  assertThat (nameOpIn.getOpHash.length = 20)
  rejectIf (hash ≠ nameOpIn.getOpHash) .TX_CONSENSUS "tx-firstupdate-hash-mismatch"
    "NAME_FIRSTUPDATE mismatch in hash / rand value"
  match view.GetName name with
  | some oldName =>
    rejectIf (!oldName.isExpired rules nHeight) .TX_CONSENSUS "tx-firstupdate-existing-name"
      "NAME_FIRSTUPDATE on existing name"
  | none => pure ()

section Check

variable (params : CChainParams) (Hash160 : valtype → valtype)

/-- `CheckNameTransaction (tx, nHeight, view, state, flags)`. -/
def CheckNameTransaction (tx : CTransaction) (nHeight : Nat) (view : CoinsView)
    (flags : NameFlags) : Except CheckError Unit :=
  -- historic bugs are accepted as they are
  if (IsHistoricBug params.mapHistoricBugs tx.GetHash nHeight).isSome then pure ()
  else do
    let nameIn ← findNameIn view 0 tx.vin none
    let nameOut ← findNameOut 0 tx.vout none
    if !tx.IsNamecoin then
      rejectIf nameIn.isSome .TX_CONSENSUS "tx-nonname-with-name-input"
        "Non-name transaction has name input"
      rejectIf nameOut.isSome .TX_CONSENSUS "tx-nonname-with-name-output"
        "Non-name transaction has name output"
    else
      let some (nOut, nameOpOut) := nameOut
        | throw (.invalid .TX_CONSENSUS "tx-name-without-name-output"
            "Name transaction has no name output")
      rejectIf ((tx.vout.getD nOut ⟨0, []⟩).nValue < params.rules.MinNameCoinAmount nHeight)
        .TX_CONSENSUS "tx-name-greedy" "Greedy name operation"
      if nameOpOut.op = .OP_NAME_NEW then
        rejectIf nameIn.isSome .TX_CONSENSUS "tx-namenew-with-name-input"
          "NAME_NEW with previous name input"
        rejectIf (nameOpOut.getOpHash.length ≠ 20) .TX_CONSENSUS "tx-namenew-wrong-size"
          "NAME_NEW's hash has the wrong size"
      else
        let some (nIn, nameOpIn, coinIn) := nameIn
          | throw (.invalid .TX_CONSENSUS "tx-nameupdate-without-name-input"
              "Name update has no previous name input")
        let name := nameOpOut.getOpName
        rejectIf (name.length > MAX_NAME_LENGTH) .TX_CONSENSUS "tx-name-invalid" "Invalid name"
        rejectIf (nameOpOut.getOpValue.length > MAX_VALUE_LENGTH) .TX_CONSENSUS "tx-value-invalid"
          "Invalid value"
        if nameOpOut.op = .OP_NAME_UPDATE then
          checkNameUpdate params.rules tx nHeight view nIn nameOpIn coinIn name
        else checkNameFirstUpdate params.rules Hash160 nHeight view flags nameOpOut nameOpIn coinIn name

end Check

/-! ## Applying a block -/

/-- `CNameTxUndo`: the data a name had before an update, or that it was new. -/
structure CNameTxUndo where
  name : valtype
  isNew : Bool
  oldData : CNameData
  deriving DecidableEq, Repr

/-- The default-constructed `CNameData` that `fromOldState` leaves for a new name. -/
def CNameData.null : CNameData := ⟨[], 0, ⟨0, NULL_INDEX⟩, []⟩

/-- `CNameTxUndo::fromOldState (name, view)`. -/
def CNameTxUndo.fromOldState (name : valtype) (view : CoinsView) : CNameTxUndo :=
  match view.GetName name with
  | some oldData => ⟨name, false, oldData⟩
  | none => ⟨name, true, CNameData.null⟩

/-- `CTxUndo`: the coins a transaction spent. -/
abbrev CTxUndo := List Coin

structure CBlockUndo where
  vtxundo : List CTxUndo
  vnameundo : List CNameTxUndo
  vexpired : List Coin
  deriving DecidableEq, Repr

def CBlockUndo.empty : CBlockUndo := ⟨[], [], []⟩

/-- `AddCoins (view, tx, nHeight)`: output `i` and on; only a coinbase may
overwrite. -/
def AddCoins (tx : CTransaction) (nHeight : Nat) :
    Nat → List CTxOut → CoinsView → Except Failure CoinsView
  | _, [], view => .ok view
  | i, txout :: rest, view => do
    let view ← view.AddCoin ⟨tx.GetHash, i⟩ ⟨txout, nHeight, tx.IsCoinBase⟩ tx.IsCoinBase
    AddCoins tx nHeight (i + 1) rest view

/-- The input loop of `UpdateCoins`: each input is spent (`assert (is_spent)`). -/
def SpendInputs : List CTxIn → CoinsView → CTxUndo → Except Failure (CoinsView × CTxUndo)
  | [], view, txundo => .ok (view, txundo)
  | txin :: rest, view, txundo =>
    match view.SpendCoin txin.prevout with
    | none => .error .assertion
    | some (coin, view) => SpendInputs rest view (txundo ++ [coin])

/-- `UpdateCoins (tx, view, txundo, nHeight)`. -/
def UpdateCoins (tx : CTransaction) (view : CoinsView) (nHeight : Nat) :
    Except Failure (CoinsView × CTxUndo) := do
  let (view, txundo) ← if tx.IsCoinBase then pure (view, []) else SpendInputs tx.vin view []
  let view ← AddCoins tx nHeight 0 tx.vout view
  pure (view, txundo)

/-- The outputs loop of `ApplyNameTransaction`, from output `i` on. -/
def applyNameOutputs (fNameHistory : Bool) (tx : CTransaction) (nHeight : Nat) :
    Nat → List CTxOut → CoinsView × CBlockUndo → Except Failure (CoinsView × CBlockUndo)
  | _, [], (view, undo) => .ok (view, undo)
  | i, txout :: rest, (view, undo) => do
    let op := CNameScript.ofScript txout.scriptPubKey
    if op.isNameOp && op.isAnyUpdate then
      let name := op.getOpName
      let opUndo := CNameTxUndo.fromOldState name view
      let undo := { undo with vnameundo := undo.vnameundo ++ [opUndo] }
      let data := CNameData.fromScript nHeight ⟨tx.GetHash, i⟩ op
      let view ← view.SetName fNameHistory name data false
      applyNameOutputs fNameHistory tx nHeight (i + 1) rest (view, undo)
    else applyNameOutputs fNameHistory tx nHeight (i + 1) rest (view, undo)

/-- The name outputs of a `BUG_FULLY_IGNORE` transaction are spent at once. -/
def spendNameOutputs (tx : CTransaction) : Nat → List CTxOut → CoinsView → CoinsView
  | _, [], view => view
  | i, txout :: rest, view =>
    let op := CNameScript.ofScript txout.scriptPubKey
    let view := if op.isNameOp && op.isAnyUpdate then
        ((view.SpendCoin ⟨tx.GetHash, i⟩).map Prod.snd).getD view
      else view
    spendNameOutputs tx (i + 1) rest view

/-- `ApplyNameTransaction (tx, nHeight, view, undo)`. -/
def ApplyNameTransaction (params : CChainParams) (fNameHistory : Bool) (tx : CTransaction)
    (nHeight : Nat) (view : CoinsView) (undo : CBlockUndo) : Except Failure (CoinsView × CBlockUndo) :=
  if nHeight = MEMPOOL_HEIGHT then .error .assertion
  else
    match IsHistoricBug params.mapHistoricBugs tx.GetHash nHeight with
    | some .BUG_FULLY_IGNORE => .ok (spendNameOutputs tx 0 tx.vout view, undo)
    | some .BUG_IN_UTXO => .ok (view, undo)
    | _ =>
      -- names of historic bugs may sit in transactions that are no name transactions
      if !tx.IsNamecoin then .ok (view, undo)
      else applyNameOutputs fNameHistory tx nHeight 0 tx.vout (view, undo)

/-- One expiring name in `ExpireNames (nHeight, ...)`: its coin is spent and
kept in the undo data. At height 175868 the name `d/postmortem`, whose coin was
spent by the name stealing bug, is skipped; `EncodeName` throws there for a
name that is not ASCII. -/
def expireName (rules : ConsensusRules) (nHeight : Nat) (acc : CoinsView × CBlockUndo)
    (name : valtype) : Except Failure (CoinsView × CBlockUndo) :=
  let (view, undo) := acc
  match view.GetName name with
  | none => .error (.failed "name not found in the database")
  | some data =>
    if !data.isExpired rules nHeight then .error (.failed "name is not actually expired")
    else if nHeight = 175868 && !IsStringValidAscii name then .error .exception
    else if nHeight = 175868 && name = postmortem then .ok (view, undo)
    else
      let out := data.prevout
      match view.GetCoin out with
      | none => .error (.failed "name coin is not available")
      | some coin =>
        let nameOp := CNameScript.ofScript coin.out.scriptPubKey
        if !nameOp.isNameOp || !nameOp.isAnyUpdate || nameOp.getOpName ≠ name then
          .error (.failed "name coin to be expired is wrong script")
        else
          match view.SpendCoin out with
          | none => .error (.failed "spending name coin failed")
          | some (_, view) => .ok (view, { undo with vexpired := undo.vexpired ++ [coin] })

/-- The window of update heights whose names expire at `nHeight`, or `none`
when nothing can expire yet; the `assert (expireFrom <= expireTo + 1)` fails
as `.error`. The subtractions are the `unsigned` ones of the source, which the
rules keep from wrapping. -/
def expireWindow (rules : ConsensusRules) (nHeight : Nat) : Except Failure (Option (Nat × Nat)) :=
  if nHeight = 0 then .ok none
  else
    let expDepthOld := rules.NameExpirationDepth (nHeight - 1)
    let expDepthNow := rules.NameExpirationDepth nHeight
    if expDepthNow > nHeight then .ok none
    else
      let expireFrom := nHeight - expDepthOld
      let expireTo := nHeight - expDepthNow
      if expireFrom ≤ expireTo + 1 then .ok (some (expireFrom, expireTo)) else .error .assertion

/-- The union of `GetNamesForHeight (h)` for `h` from `expireFrom` to `expireTo`. -/
def namesInWindow (view : CoinsView) (expireFrom expireTo : Nat) : List valtype :=
  (List.range' expireFrom (expireTo + 1 - expireFrom)).foldl
    (fun names h => Lib.OrdSet.union names (view.GetNamesForHeight h)) []

/-- `ExpireNames (nHeight, view, undo, names)`: the view and undo data after
the expiry, and the expired names. -/
def ExpireNames (rules : ConsensusRules) (nHeight : Nat) (view : CoinsView) (undo : CBlockUndo) :
    Except Failure (CoinsView × CBlockUndo × List valtype) := do
  match ← expireWindow rules nHeight with
  | none => pure (view, undo, [])
  | some (expireFrom, expireTo) =>
    let names := namesInWindow view expireFrom expireTo
    let (view, undo) ← names.foldlM (expireName rules nHeight) (view, undo)
    pure (view, undo, names)

section Connect

variable (params : CChainParams) (Hash160 : valtype → valtype) (fNameHistory : Bool)
  (flags : NameFlags)

/-- The output loop of `CheckTransaction` (consensus/tx_check.cpp): each value
and the running total `nValueOut` in `MoneyRange`. -/
def checkOutputValues : Int → List CTxOut → Except Failure Unit
  | _, [] => .ok ()
  | nValueOut, txout :: rest =>
    if txout.nValue < 0 then .error (.invalid "bad-txns-vout-negative")
    else if txout.nValue > MAX_MONEY then .error (.invalid "bad-txns-vout-toolarge")
    else if !MoneyRange (nValueOut + txout.nValue) then .error (.invalid "bad-txns-txouttotal-toolarge")
    else checkOutputValues (nValueOut + txout.nValue) rest

/-- The checks of a transaction that concern its coins and names before
`ConnectBlock` applies it. `CheckBlock` has run `CheckTransaction`: no output
value is out of range and, for a transaction that is no coinbase, no input is
spent twice. Then `CheckNameTransaction`, the first check of `CheckTxInputs`. -/
def checkTx (nHeight : Nat) (view : CoinsView) (tx : CTransaction) : Except Failure Unit := do
  checkOutputValues 0 tx.vout
  if tx.IsCoinBase then .ok ()
  else if !(tx.vin.map CTxIn.prevout).Nodup then .error (.invalid "bad-txns-inputs-duplicate")
  else
    match CheckNameTransaction params Hash160 tx nHeight view flags with
    | .error (.invalid _ reason _) => .error (.invalid reason)
    | .error .assertion => .error .assertion
    | .ok () => .ok ()

/-- The name part of `ConnectBlock` for transaction `i` of the block. -/
def connectTx (nHeight : Nat) (acc : CoinsView × CBlockUndo) (i : Nat) (tx : CTransaction) :
    Except Failure (CoinsView × CBlockUndo) := do
  let (view, undo) := acc
  checkTx params Hash160 flags nHeight view tx
  let (view, txundo) ← UpdateCoins tx view nHeight
  let undo := if i > 0 then { undo with vtxundo := undo.vtxundo ++ [txundo] } else undo
  ApplyNameTransaction params fNameHistory tx nHeight view undo

/-- The transactions of a block from transaction `i` on. -/
def connectTxs (nHeight : Nat) : Nat → List CTransaction → CoinsView × CBlockUndo →
    Except Failure (CoinsView × CBlockUndo)
  | _, [], acc => .ok acc
  | i, tx :: rest, acc => do
    let acc ← connectTx params Hash160 fNameHistory flags nHeight acc i tx
    connectTxs nHeight (i + 1) rest acc

/-- The name part of `ConnectBlock` for a block at height `nHeight`: the view,
the undo data and the names `ExpireNames (nHeight + 1)` expired. -/
def ConnectBlock (nHeight : Nat) (view : CoinsView) (vtx : List CTransaction) :
    Except Failure (CoinsView × CBlockUndo × List valtype) := do
  let (view, undo) ← connectTxs params Hash160 fNameHistory flags nHeight 0 vtx (view, .empty)
  ExpireNames params.rules (nHeight + 1) view undo

/-- Connecting blocks at heights `nHeight`, `nHeight + 1`, and so on. -/
def connectBlocks : Nat → CoinsView → List (List CTransaction) → Except Failure CoinsView
  | _, view, [] => .ok view
  | nHeight, view, vtx :: rest => do
    let (view, _, _) ← ConnectBlock params Hash160 fNameHistory flags nHeight view vtx
    connectBlocks (nHeight + 1) view rest

end Connect

end Namecoin.Names
