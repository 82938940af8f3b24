import Namecoin.Names.Data
import Namecoin.Lib.OrdSet

/-! # The chain state as one flat view

What a `CCoinsView` answers once every cache above it is flushed: the coins,
the name database, its expire index (the names of each update height) and the
name history. `AddCoin`, `SpendCoin`, `SetName` and `DeleteName` are the
`CCoinsViewCache` operations as they act on that state; an `assert` or a thrown
`logic_error` is `Failure.assertion`. -/

namespace Namecoin.Names
open Namecoin.Script

/-- How an operation of the node goes wrong. -/
inductive Failure where
  /-- an `assert` fails or a `logic_error` is thrown: the node aborts -/
  | assertion
  /-- `state.Invalid (...)` with this reject reason -/
  | invalid (reason : String)
  /-- a check returns `false` after `LogError (message)` -/
  | failed (message : String)
  /-- `InvalidNameString` is thrown by `EncodeName` -/
  | exception
  deriving DecidableEq, Repr

/-- The failure rejects the block as invalid, and the node goes on. -/
def Failure.isInvalid : Failure → Bool
  | .invalid _ => true
  | _ => false

structure CoinsView where
  coins : COutPoint → Option Coin
  names : valtype → Option CNameData
  expireIndex : Nat → List valtype
  history : valtype → List CNameData

namespace CoinsView

def empty : CoinsView := ⟨fun _ => none, fun _ => none, fun _ => [], fun _ => []⟩

def GetCoin (view : CoinsView) (outpoint : COutPoint) : Option Coin := view.coins outpoint

def HaveCoin (view : CoinsView) (outpoint : COutPoint) : Bool := (view.coins outpoint).isSome

/-- `AddCoin (outpoint, coin, possible_overwrite)`: a spent coin fails the
`assert`; an unspendable output is dropped; overwriting an unspent coin without
`possible_overwrite` throws. -/
def AddCoin (view : CoinsView) (outpoint : COutPoint) (coin : Coin) (possible_overwrite : Bool) :
    Except Failure CoinsView :=
  if coin.IsSpent then .error .assertion
  else if IsUnspendable coin.out.scriptPubKey then .ok view
  else if !possible_overwrite && view.HaveCoin outpoint then .error .assertion
  else .ok { view with coins := Function.update view.coins outpoint (some coin) }

/-- `SpendCoin (outpoint, &moveout)`: the spent coin, or `none` when there is
none to spend. -/
def SpendCoin (view : CoinsView) (outpoint : COutPoint) : Option (Coin × CoinsView) :=
  (view.coins outpoint).map fun coin =>
    (coin, { view with coins := Function.update view.coins outpoint none })

def GetName (view : CoinsView) (name : valtype) : Option CNameData := view.names name

def GetNameHistory (view : CoinsView) (name : valtype) : List CNameData := view.history name

def GetNamesForHeight (view : CoinsView) (nHeight : Nat) : List valtype := view.expireIndex nHeight

def addExpireIndex (view : CoinsView) (name : valtype) (nHeight : Nat) : CoinsView :=
  { view with expireIndex :=
      Function.update view.expireIndex nHeight (Lib.OrdSet.insert name (view.expireIndex nHeight)) }

def removeExpireIndex (view : CoinsView) (name : valtype) (nHeight : Nat) : CoinsView :=
  { view with expireIndex :=
      Function.update view.expireIndex nHeight (Lib.OrdSet.erase name (view.expireIndex nHeight)) }

@[simp] theorem addExpireIndex_coins (view : CoinsView) (name : valtype) (h : Nat) :
    (view.addExpireIndex name h).coins = view.coins := rfl

@[simp] theorem addExpireIndex_names (view : CoinsView) (name : valtype) (h : Nat) :
    (view.addExpireIndex name h).names = view.names := rfl

@[simp] theorem addExpireIndex_history (view : CoinsView) (name : valtype) (h : Nat) :
    (view.addExpireIndex name h).history = view.history := rfl

@[simp] theorem removeExpireIndex_coins (view : CoinsView) (name : valtype) (h : Nat) :
    (view.removeExpireIndex name h).coins = view.coins := rfl

@[simp] theorem removeExpireIndex_names (view : CoinsView) (name : valtype) (h : Nat) :
    (view.removeExpireIndex name h).names = view.names := rfl

@[simp] theorem removeExpireIndex_history (view : CoinsView) (name : valtype) (h : Nat) :
    (view.removeExpireIndex name h).history = view.history := rfl

@[simp] theorem mem_addExpireIndex {view : CoinsView} {name n : valtype} {h h' : Nat} :
    n ∈ (view.addExpireIndex name h).expireIndex h' ↔
      (h' = h ∧ n = name) ∨ n ∈ view.expireIndex h' := by
  by_cases hh : h' = h
  · subst hh
    simp [addExpireIndex]
  · simp [addExpireIndex, hh]

@[simp] theorem mem_removeExpireIndex {view : CoinsView} {name n : valtype} {h h' : Nat} :
    n ∈ (view.removeExpireIndex name h).expireIndex h' ↔
      n ∈ view.expireIndex h' ∧ ¬(h' = h ∧ n = name) := by
  by_cases hh : h' = h
  · subst hh
    simp [removeExpireIndex]
  · simp [removeExpireIndex, hh]

/-- `CNameHistory::push`: the new entry is no older than the top. -/
def historyPush (history : List CNameData) (entry : CNameData) : Except Failure (List CNameData) :=
  if history.getLast?.all (·.nHeight ≤ entry.nHeight) then .ok (history ++ [entry])
  else .error .assertion

/-- `CNameHistory::pop`: the top is the entry the name goes back to. -/
def historyPop (history : List CNameData) (entry : CNameData) : Except Failure (List CNameData) :=
  if history.getLast? = some entry then .ok history.dropLast else .error .assertion

/-- `SetName (name, data, undo)`. Overwritten data goes onto the history
(with `-namehistory`), or comes off it when undoing. -/
def SetName (fNameHistory : Bool) (view : CoinsView) (name : valtype) (data : CNameData)
    (undo : Bool) : Except Failure CoinsView := do
  let view ← match view.names name with
    | some oldData => do
      let view := view.removeExpireIndex name oldData.nHeight
      if fNameHistory then
        let history ←
          if undo then historyPop (view.history name) data else historyPush (view.history name) oldData
        pure { view with history := Function.update view.history name history }
      else pure view
    | none => if undo then throw .assertion else pure view
  pure ({ view with names := Function.update view.names name (some data) }.addExpireIndex name
    data.nHeight)

/-- `DeleteName (name)`: only for an existing name, whose history is empty. -/
def DeleteName (fNameHistory : Bool) (view : CoinsView) (name : valtype) :
    Except Failure CoinsView :=
  match view.names name with
  | none => .error .assertion
  | some oldData =>
    let view := view.removeExpireIndex name oldData.nHeight
    if fNameHistory && !(view.history name).isEmpty then .error .assertion
    else .ok { view with names := Function.update view.names name none }

end CoinsView

end Namecoin.Names
