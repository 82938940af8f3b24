import Mathlib
import Namecoin.Names.CacheView
import Namecoin.Lib.AssocMap

/-! # The coins of a coins view cache (coins.cpp)

`cacheCoins` is an unordered map from outpoints to entries: a coin, spent or
not, with a DIRTY flag (it may differ from the base) and a FRESH flag (the base
has no unspent coin there). A coin the cache lacks is read from the base and
cached clean (`FetchCoin`). `AddCoin` and `SpendCoin` change the cache only;
a FRESH coin that is spent is dropped at once, as the base never has to hear of
it.

`Flush` and `Sync` hand the entries to the base's `BatchWrite`. When the base is
itself a cache (`cacheBase`), its `BatchWrite` merges the DIRTY entries into its
own, and throws when a FRESH entry meets an unspent coin of its own. The
database is the flat view (`coinsDB`).

A thrown `logic_error` is `Failure.assertion`, and so is the failed `assert`
of `AddCoin` that the coin it adds is unspent. The memory accounting
(`cachedCoinsUsage`, `m_dirty_count`) and the linked list of flagged entries
are not modelled: the cursor of `BatchWrite` is the whole map, whose entries
without the DIRTY flag it skips. -/

namespace Namecoin.Names
open Lib.ExceptM Lib.AssocMap Lib.KeyList Namecoin.Script

/-- What a cache reads from its base `CCoinsView`: the name reads and
`BatchWrite` of `ViewBase`, `GetCoin`, which may change the base (a base that
is a cache caches what it reads), and `GetNamesForHeight`. -/
structure CoinsBase (σ : Type) extends ViewBase σ where
  GetCoin : σ → COutPoint → Option Coin × σ
  GetNamesForHeight : σ → Nat → Except Failure (List valtype)

namespace CCoinsViewCache

variable {σ : Type} (B : CoinsBase σ)

/-- A clean entry for a coin read from the base. -/
def fetched (coin : Coin) : CCoinsCacheEntry := ⟨some coin, false, false⟩

@[simp] theorem fetched_coin (coin : Coin) : (fetched coin).coin = some coin := rfl

@[simp] theorem fetched_dirty (coin : Coin) : (fetched coin).dirty = false := rfl

@[simp] theorem fetched_fresh (coin : Coin) : (fetched coin).fresh = false := rfl

/-- `FetchCoin (outpoint)`: the entry of the outpoint; a coin that is not cached
is read from the base and cached clean, an outpoint the base has no coin for is
not cached. -/
def FetchCoin (v : CCoinsViewCache σ) (outpoint : COutPoint) :
    Option CCoinsCacheEntry × CCoinsViewCache σ :=
  match v.cacheCoins.lookup outpoint with
  | some entry => (some entry, v)
  | none =>
    match B.GetCoin v.base outpoint with
    | (some coin, base) =>
      (some (fetched coin), { v with base := base, cacheCoins := (outpoint, fetched coin) :: v.cacheCoins })
    | (none, base) => (none, { v with base := base })

/-- `GetCoin (outpoint)`: the unspent coin at the outpoint. -/
def GetCoin (v : CCoinsViewCache σ) (outpoint : COutPoint) : Option Coin × CCoinsViewCache σ :=
  match FetchCoin B v outpoint with
  | (entry, v) => (entry.bind CCoinsCacheEntry.coin, v)

/-- `HaveCoin (outpoint)`. -/
def HaveCoin (v : CCoinsViewCache σ) (outpoint : COutPoint) : Bool × CCoinsViewCache σ :=
  match GetCoin B v outpoint with
  | (coin, v) => (coin.isSome, v)

/-- `AddCoin (outpoint, coin, possible_overwrite)`. A spent coin fails the
`assert`, and an unspendable output is not added. Without `possible_overwrite`
an unspent entry throws, and otherwise the coin is FRESH unless the entry is
DIRTY: then its spending has not reached the base. The base is not asked. -/
def AddCoin (v : CCoinsViewCache σ) (outpoint : COutPoint) (coin : Coin) (possible_overwrite : Bool) :
    Except Failure (CCoinsViewCache σ) :=
  if coin.IsSpent then .error .assertion
  else if IsUnspendable coin.out.scriptPubKey then .ok v
  else
    -- `emplace` puts a spent entry without flags where there is none
    let entry := (v.cacheCoins.lookup outpoint).getD ⟨none, false, false⟩
    let fresh : Except Failure Bool :=
      if possible_overwrite then .ok false
      else if entry.coin.isSome then .error .assertion
      else .ok !entry.dirty
    fresh >>= fun fresh =>
      .ok { v with cacheCoins := assign outpoint ⟨some coin, true, entry.fresh || fresh⟩ v.cacheCoins }

/-- `SpendCoin (outpoint, moveout)`: whether there was an entry, and the coin
moved out of it (none when the entry was spent already). A FRESH entry is
erased, any other is left spent and DIRTY. -/
def SpendCoin (v : CCoinsViewCache σ) (outpoint : COutPoint) : Bool × Option Coin × CCoinsViewCache σ :=
  match FetchCoin B v outpoint with
  | (none, v) => (false, none, v)
  | (some entry, v) =>
    if entry.fresh then (true, entry.coin, { v with cacheCoins := eraseKey outpoint v.cacheCoins })
    else (true, entry.coin,
      { v with cacheCoins := assign outpoint { entry with coin := none, dirty := true } v.cacheCoins })

/-- `Uncache (outpoint)`: an entry that is not DIRTY is dropped. -/
def Uncache (v : CCoinsViewCache σ) (outpoint : COutPoint) : CCoinsViewCache σ :=
  match v.cacheCoins.lookup outpoint with
  | some entry => if !entry.dirty then { v with cacheCoins := eraseKey outpoint v.cacheCoins } else v
  | none => v

/-- `SetBestBlock (in_block_hash)`. -/
def SetBestBlock (v : CCoinsViewCache σ) (in_block_hash : uint256) : CCoinsViewCache σ :=
  { v with m_block_hash := in_block_hash }

/-- `GetNamesForHeight (nHeight, names)`: the base's names, with the changes
of the record. -/
def GetNamesForHeight (v : CCoinsViewCache σ) (nHeight : Nat) : Except Failure (List valtype) := do
  let names ← B.GetNamesForHeight v.base nHeight
  v.cacheNames.updateNamesForHeight nHeight names

/-- One entry of the cursor in `BatchWrite` of a cache: a DIRTY child entry is
merged into the cache's own entry for its outpoint. -/
def batchWriteEntry (coins : List (COutPoint × CCoinsCacheEntry)) (child : COutPoint × CCoinsCacheEntry) :
    Except Failure (List (COutPoint × CCoinsCacheEntry)) :=
  let (outpoint, entry) := child
  if !entry.dirty then .ok coins
  else
    match coins.lookup outpoint with
    | none =>
      -- a FRESH coin spent in the child never reaches the parent
      if entry.fresh && entry.coin.isNone then .ok coins
      else .ok ((outpoint, ⟨entry.coin, true, entry.fresh⟩) :: coins)
    | some us =>
      if entry.fresh && us.coin.isSome then .error .assertion
      -- the grandparent has no coin here, so the spent coin need not be kept
      else if us.fresh && entry.coin.isNone then .ok (eraseKey outpoint coins)
      else .ok (assign outpoint { us with coin := entry.coin, dirty := true } coins)

/-- `BatchWrite (cursor, in_block_hash, names)` of a cache: the entries merged
one by one, then the block hash and the name changes. -/
def BatchWrite (v : CCoinsViewCache σ) (cursor : List (COutPoint × CCoinsCacheEntry)) (in_block_hash : uint256)
    (names : CNameCache) : Except Failure (CCoinsViewCache σ) := do
  let coins ← cursor.foldlM batchWriteEntry v.cacheCoins
  pure { v with cacheCoins := coins, m_block_hash := in_block_hash, cacheNames := v.cacheNames.apply names }

end CCoinsViewCache

/-- A cache as the base of another. -/
def cacheBase {σ : Type} (B : CoinsBase σ) : CoinsBase (CCoinsViewCache σ) where
  GetName := CCoinsViewCache.GetName B.toViewBase
  GetNameHistory := CCoinsViewCache.GetNameHistory B.toViewBase
  BatchWrite := CCoinsViewCache.BatchWrite
  GetCoin := CCoinsViewCache.GetCoin B
  GetNamesForHeight := CCoinsViewCache.GetNamesForHeight B

/-- The database as a base, reading the flat view. -/
def coinsDB : CoinsBase CoinsView :=
  { CCoinsViewDB with
    GetCoin := fun view outpoint => (view.GetCoin outpoint, view)
    GetNamesForHeight := fun view nHeight => .ok (view.GetNamesForHeight nHeight) }

/-- The operations on the coins of a cache. -/
inductive CoinOp where
  | GetCoin (outpoint : COutPoint)
  | AddCoin (outpoint : COutPoint) (coin : Coin) (possible_overwrite : Bool)
  | SpendCoin (outpoint : COutPoint)
  | Uncache (outpoint : COutPoint)
  | SetBestBlock (in_block_hash : uint256)
  | Flush
  | Sync
  | Reset

namespace CCoinsViewCache

variable {σ : Type} (B : CoinsBase σ)

def coinStep (v : CCoinsViewCache σ) : CoinOp → Except Failure (CCoinsViewCache σ)
  | .GetCoin outpoint => .ok (GetCoin B v outpoint).2
  | .AddCoin outpoint coin possible_overwrite => AddCoin v outpoint coin possible_overwrite
  | .SpendCoin outpoint => .ok (SpendCoin B v outpoint).2.2
  | .Uncache outpoint => .ok (Uncache v outpoint)
  | .SetBestBlock in_block_hash => .ok (SetBestBlock v in_block_hash)
  | .Flush => Flush B.toViewBase v
  | .Sync => Sync B.toViewBase v
  | .Reset => .ok (Reset v)

def coinRun : CCoinsViewCache σ → List CoinOp → Except Failure (CCoinsViewCache σ)
  | v, [] => .ok v
  | v, op :: ops => coinStep B v op >>= fun v => coinRun v ops

end CCoinsViewCache

/-- A call on a cache: an operation on its coins or on its names. -/
inductive ViewOp where
  | coin (op : CoinOp)
  | name (op : CacheOp)

namespace CCoinsViewCache

variable {σ : Type} (B : CoinsBase σ) (fNameHistory : Bool)

def viewStep (v : CCoinsViewCache σ) : ViewOp → Except Failure (CCoinsViewCache σ)
  | .coin op => coinStep B v op
  | .name op => step B.toViewBase fNameHistory v op

def viewRun : CCoinsViewCache σ → List ViewOp → Except Failure (CCoinsViewCache σ)
  | v, [] => .ok v
  | v, op :: ops => viewStep B fNameHistory v op >>= fun v => viewRun v ops

end CCoinsViewCache

end Namecoin.Names
