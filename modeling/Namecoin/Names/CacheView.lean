import Namecoin.Names.NameCache
import Namecoin.Lib.ExceptM

/-! # The name part of a coins view cache (coins.cpp)

A `CCoinsViewCache` sits on a base view: the database, or another cache. It
answers name queries from its `CNameCache` first and from the base otherwise,
and `SetName` and `DeleteName` record their changes in the `CNameCache` only.
`Flush` and `Sync` hand the record to the base's `BatchWrite`; `Reset` clears
it.

`Flush` clears the coins but not the names (`Flush_cacheNames`). So along every
run without a `Reset` the record holds every name that was set or deleted since
the cache was made, not since its last flush, and each later `Flush` hands all
of them to the base again (`flush_keeps_cacheNames`). -/

namespace Namecoin.Names
open Lib.ExceptM Namecoin.Script

/-- A `cacheCoins` entry: the coin (`none` once spent) and its DIRTY and FRESH
flags. -/
structure CCoinsCacheEntry where
  coin : Option Coin
  dirty : Bool
  fresh : Bool

/-- What a cache reads from and writes to its base `CCoinsView`. -/
structure ViewBase (σ : Type) where
  GetName : σ → valtype → Option CNameData
  GetNameHistory : σ → valtype → List CNameData
  BatchWrite : σ → List (COutPoint × CCoinsCacheEntry) → uint256 → CNameCache → Except Failure σ

structure CCoinsViewCache (σ : Type) where
  base : σ
  m_block_hash : uint256
  cacheCoins : List (COutPoint × CCoinsCacheEntry)
  cacheNames : CNameCache

namespace CCoinsViewCache

variable {σ : Type} (B : ViewBase σ) (fNameHistory : Bool)

/-- `GetName (name, data)`: a deleted name is absent, a cached one is the
cache's, any other is the base's. -/
def GetName (v : CCoinsViewCache σ) (name : valtype) : Option CNameData :=
  if v.cacheNames.isDeleted name then none else (v.cacheNames.get name).or (B.GetName v.base name)

def GetNameHistory (v : CCoinsViewCache σ) (name : valtype) : List CNameData :=
  (v.cacheNames.getHistory name).getD (B.GetNameHistory v.base name)

/-- The first part of `SetName (name, data, undo)`: for an existing name the
record drops its old expire-index entry and, with `-namehistory`, pushes the
overwritten data onto the history (or, when undoing, pops the restored data off
it); a new name cannot be undone. -/
def recordOld (v : CCoinsViewCache σ) (name : valtype) (data : CNameData) (undo : Bool) :
    Except Failure CNameCache :=
  match GetName B v name with
  | some oldData =>
    let names := v.cacheNames.removeExpireIndex name oldData.nHeight
    if fNameHistory then
      (if undo then CoinsView.historyPop (GetNameHistory B v name) data
        else CoinsView.historyPush (GetNameHistory B v name) oldData) >>= fun history =>
          pure (names.setHistory name history)
    else .ok names
  | none => if undo then .error .assertion else .ok v.cacheNames

/-- `SetName (name, data, undo)`: the record of the old data, then the new
entry and its expire-index entry. -/
def SetName (v : CCoinsViewCache σ) (name : valtype) (data : CNameData) (undo : Bool) :
    Except Failure (CCoinsViewCache σ) :=
  recordOld B fNameHistory v name data undo >>= fun names =>
    pure { v with cacheNames := (names.set name data).addExpireIndex name data.nHeight }

/-- `DeleteName (name)`: only an existing name, with an empty history. -/
def DeleteName (v : CCoinsViewCache σ) (name : valtype) : Except Failure (CCoinsViewCache σ) :=
  match GetName B v name with
  | none => .error .assertion
  | some oldData =>
    let names := v.cacheNames.removeExpireIndex name oldData.nHeight
    if fNameHistory && !(GetNameHistory B v name).isEmpty then .error .assertion
    else .ok { v with cacheNames := names.remove name }

/-- `Flush ()`: a no-op when the block hash is null and nothing is cached
(`cacheNames.empty ()` is asked last); otherwise `BatchWrite` of everything,
after which `cacheCoins` is cleared. -/
def Flush (v : CCoinsViewCache σ) : Except Failure (CCoinsViewCache σ) :=
  let write : Except Failure (CCoinsViewCache σ) := do
    let base ← B.BatchWrite v.base v.cacheCoins v.m_block_hash v.cacheNames
    pure { v with base := base, cacheCoins := [] }
  if v.m_block_hash = 0 ∧ v.cacheCoins = [] then
    v.cacheNames.empty >>= fun empty => if empty then pure v else write
  else write

/-- The coins after the cursor of `Sync`: a flagged spent entry is erased, a
flagged unspent one unflagged. -/
def syncCoins (coins : List (COutPoint × CCoinsCacheEntry)) : List (COutPoint × CCoinsCacheEntry) :=
  coins.filterMap fun e =>
    if e.2.dirty || e.2.fresh then e.2.coin.map fun c => (e.1, ⟨some c, false, false⟩) else some e

/-- `Sync ()`: `BatchWrite` of everything, keeping the cache. -/
def Sync (v : CCoinsViewCache σ) : Except Failure (CCoinsViewCache σ) := do
  let base ← B.BatchWrite v.base v.cacheCoins v.m_block_hash v.cacheNames
  pure { v with base := base, cacheCoins := syncCoins v.cacheCoins }

/-- `Reset ()`. -/
def Reset (v : CCoinsViewCache σ) : CCoinsViewCache σ :=
  { v with cacheCoins := [], m_block_hash := 0, cacheNames := CNameCache.clear }

end CCoinsViewCache

/-- The operations of a run on a cache. -/
inductive CacheOp where
  | SetName (name : valtype) (data : CNameData) (undo : Bool)
  | DeleteName (name : valtype)
  | Flush
  | Sync
  | Reset
  deriving DecidableEq

/-- The name an operation changes. -/
def CacheOp.name? : CacheOp → Option valtype
  | .SetName name _ _ => some name
  | .DeleteName name => some name
  | _ => none

namespace CCoinsViewCache

variable {σ : Type} (B : ViewBase σ) (fNameHistory : Bool)

def step (v : CCoinsViewCache σ) : CacheOp → Except Failure (CCoinsViewCache σ)
  | .SetName name data undo => SetName B fNameHistory v name data undo
  | .DeleteName name => DeleteName B fNameHistory v name
  | .Flush => Flush B v
  | .Sync => Sync B v
  | .Reset => .ok (Reset v)

def run : CCoinsViewCache σ → List CacheOp → Except Failure (CCoinsViewCache σ)
  | v, [] => .ok v
  | v, op :: ops => step B fNameHistory v op >>= fun v => run v ops

end CCoinsViewCache

/-! ## What each operation does to the record -/

namespace CCoinsViewCache

variable {σ : Type} (B : ViewBase σ) (fNameHistory : Bool)

/-- `SetName` changes only the record, which then changes `name` too. -/
theorem SetName_spec {v v' : CCoinsViewCache σ} {name : valtype} {data : CNameData} {undo : Bool}
    (h : SetName B fNameHistory v name data undo = .ok v') :
    v'.base = v.base ∧ v'.cacheCoins = v.cacheCoins ∧ v'.m_block_hash = v.m_block_hash ∧
      ∀ n, v'.cacheNames.touches n = true ↔ n = name ∨ v.cacheNames.touches n = true := by
  unfold SetName at h
  obtain ⟨names, hnames, hv⟩ := bind_eq_ok.mp h
  rw [pure_eq_ok] at hv
  subst hv
  -- the history and expire-index changes leave the changed names alone
  have hsame : names.touches = v.cacheNames.touches := by
    unfold recordOld at hnames
    split at hnames
    · split at hnames
      · obtain ⟨history, -, hn⟩ := bind_eq_ok.mp hnames
        rw [pure_eq_ok] at hn
        subst hn
        simp
      · rw [Except.ok.injEq] at hnames
        subst hnames
        simp
    · split at hnames
      · exact absurd hnames (by simp)
      · rw [Except.ok.injEq] at hnames
        rw [← hnames]
  refine ⟨rfl, rfl, rfl, fun n => ?_⟩
  rw [CNameCache.touches_addExpireIndex, CNameCache.touches_set, hsame]

/-- `DeleteName` changes only the record, which then changes `name` too. -/
theorem DeleteName_spec {v v' : CCoinsViewCache σ} {name : valtype}
    (h : DeleteName B fNameHistory v name = .ok v') :
    v'.base = v.base ∧ v'.cacheCoins = v.cacheCoins ∧ v'.m_block_hash = v.m_block_hash ∧
      ∀ n, v'.cacheNames.touches n = true ↔ n = name ∨ v.cacheNames.touches n = true := by
  unfold DeleteName at h
  split at h
  · exact absurd h (by simp)
  · split at h
    · exact absurd h (by simp)
    · rw [Except.ok.injEq] at h
      subst h
      refine ⟨rfl, rfl, rfl, fun n => ?_⟩
      rw [CNameCache.touches_remove, CNameCache.touches_removeExpireIndex]

/-- `Flush` leaves the record as it is. -/
theorem Flush_cacheNames {v v' : CCoinsViewCache σ} (h : Flush B v = .ok v') :
    v'.cacheNames = v.cacheNames := by
  have hwrite : ∀ w, (do
      let base ← B.BatchWrite v.base v.cacheCoins v.m_block_hash v.cacheNames
      pure { v with base := base, cacheCoins := [] } : Except Failure (CCoinsViewCache σ)) = .ok w →
      w.cacheNames = v.cacheNames := by
    intro w hw
    obtain ⟨base, -, hw⟩ := bind_eq_ok.mp hw
    rw [pure_eq_ok] at hw
    rw [← hw]
  unfold Flush at h
  split_ifs at h
  · obtain ⟨empty, -, he⟩ := bind_eq_ok.mp h
    split_ifs at he
    · rw [pure_eq_ok] at he
      rw [← he]
    · exact hwrite v' he
  · exact hwrite v' h

/-- `Sync` leaves the record as it is. -/
theorem Sync_cacheNames {v v' : CCoinsViewCache σ} (h : Sync B v = .ok v') :
    v'.cacheNames = v.cacheNames := by
  unfold Sync at h
  obtain ⟨base, -, hv⟩ := bind_eq_ok.mp h
  rw [pure_eq_ok] at hv
  rw [← hv]

/-- Every operation but `Reset` adds its name to the names the record changes. -/
theorem step_touches {v v' : CCoinsViewCache σ} {op : CacheOp} (hop : op ≠ .Reset)
    (h : step B fNameHistory v op = .ok v') (n : valtype) :
    v'.cacheNames.touches n = true ↔ v.cacheNames.touches n = true ∨ op.name? = some n := by
  cases op with
  | SetName name data undo =>
    rw [(SetName_spec B fNameHistory h).2.2.2 n]
    show _ ↔ _ ∨ some name = some n
    rw [Option.some.injEq, @eq_comm _ name n]
    exact or_comm
  | DeleteName name =>
    rw [(DeleteName_spec B fNameHistory h).2.2.2 n]
    show _ ↔ _ ∨ some name = some n
    rw [Option.some.injEq, @eq_comm _ name n]
    exact or_comm
  | Flush =>
    rw [Flush_cacheNames B h]
    exact (or_iff_left nofun).symm
  | Sync =>
    rw [Sync_cacheNames B h]
    exact (or_iff_left nofun).symm
  | Reset => exact absurd rfl hop

/-- **`Flush` does not wipe the name changes.** `Flush` leaves `cacheNames` as
it is, and along every run without `Reset` the record changes exactly the names
it changed before and the names the run set or deleted, flushes and syncs
notwithstanding. -/
theorem flush_keeps_cacheNames :
    (∀ v v' : CCoinsViewCache σ, Flush B v = .ok v' → v'.cacheNames = v.cacheNames) ∧
    ∀ (ops : List CacheOp) (v v' : CCoinsViewCache σ), (∀ op ∈ ops, op ≠ .Reset) →
      run B fNameHistory v ops = .ok v' → ∀ n,
        (v'.cacheNames.touches n = true ↔
          v.cacheNames.touches n = true ∨ ∃ op ∈ ops, op.name? = some n) := by
  refine ⟨fun v v' h => Flush_cacheNames B h, fun ops => ?_⟩
  induction ops with
  | nil =>
    intro v v' _ h n
    rw [run, Except.ok.injEq] at h
    subst h
    simp
  | cons op ops ih =>
    intro v v' hops h n
    obtain ⟨w, hw, hrun⟩ := bind_eq_ok.mp h
    rw [ih w v' (fun o ho => hops o (List.mem_cons_of_mem op ho)) hrun n,
      step_touches B fNameHistory (hops op List.mem_cons_self) hw n]
    simp only [List.mem_cons, exists_eq_or_imp]
    tauto

end CCoinsViewCache

/-! ## The database as a base -/

/-- `CNameCache::writeBatch` applied to the database: the entries written, the
deleted names erased, the histories written (an empty one is an erased one),
the expire-index changes made. -/
def writeNames (c : CNameCache) (view : CoinsView) : CoinsView :=
  let view := c.entries.foldl (fun view e =>
    { view with names := Function.update view.names e.1 (some e.2) }) view
  let view := c.deleted.foldl (fun view name =>
    { view with names := Function.update view.names name none }) view
  let view := c.history.foldl (fun view e =>
    { view with history := Function.update view.history e.1 e.2 }) view
  c.expireIndex.foldl (fun view e =>
    if e.2 then view.addExpireIndex e.1.name e.1.nHeight
    else view.removeExpireIndex e.1.name e.1.nHeight) view

/-- The coin loop of `CCoinsViewDB::BatchWrite`: a dirty entry is written, or
erased when spent. -/
def writeCoins (coins : List (COutPoint × CCoinsCacheEntry)) (view : CoinsView) : CoinsView :=
  coins.foldl (fun view e =>
    if e.2.dirty then { view with coins := Function.update view.coins e.1 e.2.coin } else view) view

/-- `CCoinsViewDB` as a base: its `BatchWrite` asserts a block hash. -/
def CCoinsViewDB : ViewBase CoinsView where
  GetName := CoinsView.GetName
  GetNameHistory := CoinsView.GetNameHistory
  BatchWrite view coins block_hash names :=
    if block_hash = 0 then .error .assertion else .ok (writeNames names (writeCoins coins view))

/-- A cache on an empty database at a block, with nothing cached yet. -/
def freshCache : CCoinsViewCache CoinsView := ⟨CoinsView.empty, 1, [], CNameCache.clear⟩

theorem flush_keeps_cacheNames_twice :
    ∃ v', CCoinsViewCache.run CCoinsViewDB false freshCache
        [.SetName [0x61] ⟨[], 1, ⟨1, 0⟩, []⟩ false, .Flush, .Flush] = .ok v' ∧
      v'.cacheNames.empty = .ok false := by
  refine ⟨_, rfl, ?_⟩
  have hnoReset : ∀ op ∈ [CacheOp.SetName [0x61] ⟨[], 1, ⟨1, 0⟩, []⟩ false, .Flush, .Flush],
      op ≠ .Reset := by
    intro op hop
    simp only [List.mem_cons, List.not_mem_nil, or_false] at hop
    rcases hop with rfl | rfl | rfl <;> nofun
  exact CNameCache.empty_of_touches (Iff.mpr
    ((CCoinsViewCache.flush_keeps_cacheNames CCoinsViewDB false).2 _ freshCache _ hnoReset rfl [0x61])
    (.inr ⟨_, List.mem_cons_self, rfl⟩))

end Namecoin.Names
