import Mathlib
import Namecoin.Names.CacheNamesSpec

/-! # A stack of caches is two flat views (coins.cpp, txdb.cpp)

The node reads and changes the chain state through a `CCoinsViewCache` on other
caches on the database, calling the coin and the name operations in any order.
Each level shows a flat view, its coins and its names (`cacheFlat`): the cache's
record of name changes written over what its base shows, and its coin entries
over the base's coins. A base is lawful (`LawfulView`) when it answers every
query from the view it shows and its `BatchWrite` writes the cursor and the
record into that view; a cache on a lawful base is one (`LawfulView.cache`), so
every stack on the database is (`lawfulView_stack`).

What a cache is for is then two flat views (`LayeredView`): the one its base
shows, and its own, the base's with the changes since the last `Flush`, `Sync`
or `Reset`. Along every run, each operation of the cache fails exactly where
the same operation on the flat views fails, with the same error, and otherwise
leaves the cache and its base showing the two views the flat run gives
(`viewRun_repr`); `Flush` keeps the record, which the base then already holds,
and changes nothing that the cache shows. -/

namespace Namecoin.Names
open Lib.ExceptM Lib.AssocMap Lib.KeyList Namecoin.Script

variable {σ : Type}

/-- What a cache shows, as one flat view: its record of name changes written
over what its base shows, its coin entries over the base's coins. -/
def cacheFlat (flat : σ → CoinsView) (v : CCoinsViewCache σ) : CoinsView :=
  writeNames v.cacheNames { flat v.base with coins := overlay (flat v.base).coins v.cacheCoins }

/-! ## Writing the coins and the names -/

theorem writeNames_with_coins (c : CNameCache) (view : CoinsView) (coins : COutPoint → Option Coin) :
    writeNames c { view with coins := coins } = { writeNames c view with coins := coins } := by
  apply CoinsView.ext
  · exact writeNames_coins c _
  · funext n
    rw [writeNames_names, writeNames_names]
  · rw [writeNames_expireIndex, writeNames_expireIndex]
  · rw [writeNames_history, writeNames_history]

/-- The coin loop of the database changes only the coins. -/
theorem writeCoins_eq (cursor : List (COutPoint × CCoinsCacheEntry)) (view : CoinsView) :
    writeCoins cursor view = { view with coins := written cursor view.coins } := by
  apply CoinsView.ext
  · exact writeCoins_coins cursor view
  · exact foldl_keeps CoinsView.names (fun _ _ => by split <;> rfl) cursor view
  · exact foldl_keeps CoinsView.expireIndex (fun _ _ => by split <;> rfl) cursor view
  · exact foldl_keeps CoinsView.history (fun _ _ => by split <;> rfl) cursor view

/-! ## Bases that show a flat view -/

/-- What a cache needs of its base, which shows the flat view `flat` in the
states where `Inv` holds: what `LawfulBase` asks of the coins, the coins shown
are the view's, `GetCoin` keeps the view, the name queries answer from it, its
names of each height are sorted, and `BatchWrite` writes the cursor and then the
record of name changes into it. -/
structure LawfulView (B : CoinsBase σ) (Inv : σ → Prop) (flat : σ → CoinsView) : Prop
    extends LawfulBase B Inv where
  coinsOf : ∀ s, B.coinsOf s = (flat s).coins
  getCoin_flat : ∀ s o, Inv s → flat (B.GetCoin s o).2 = flat s
  getName : ∀ s, Inv s → B.GetName s = (flat s).names
  getNameHistory : ∀ s, Inv s → B.GetNameHistory s = (flat s).history
  getNamesForHeight : ∀ s h, Inv s → B.GetNamesForHeight s h = .ok ((flat s).expireIndex h)
  sorted : ∀ s, Inv s → (flat s).SortedIndex
  batchWrite_flat : ∀ s cursor in_block_hash names s', Inv s → EntriesInv (flat s).coins cursor →
    B.BatchWrite s cursor in_block_hash names = .ok s' → flat s' = writeNames names (writeCoins cursor (flat s))

/-- A cache on a base where `Inv` holds: its coin entries stand against the
base's coins, and its record of name changes is one of maps. -/
structure ViewInv (B : CoinsBase σ) (Inv : σ → Prop) (v : CCoinsViewCache σ) : Prop extends CacheInv B Inv v where
  names : v.cacheNames.WF

section Cache

variable {B : CoinsBase σ} {Inv : σ → Prop} {flat : σ → CoinsView}

/-- What a cache shows is its record written over its base's view, with the
coins the cache shows. -/
theorem cacheFlat_eq (hB : LawfulView B Inv flat) (v : CCoinsViewCache σ) :
    cacheFlat flat v = { writeNames v.cacheNames (flat v.base) with coins := (cacheBase B).coinsOf v } := by
  rw [cacheFlat, writeNames_with_coins, coinsOf_cacheBase, hB.coinsOf]

/-- The base's view, with the coins the cache shows, is sorted where the base's is. -/
theorem sortedIndex_with_coins {view : CoinsView} (hview : view.SortedIndex) (coins : COutPoint → Option Coin) :
    ({ view with coins := coins } : CoinsView).SortedIndex := hview

namespace CCoinsViewCache

/-- `FetchCoin` changes neither the record nor the block hash, and the base
only by its `GetCoin`. -/
theorem FetchCoin_frame (B : CoinsBase σ) (v : CCoinsViewCache σ) (o : COutPoint) :
    (FetchCoin B v o).2.cacheNames = v.cacheNames ∧ (FetchCoin B v o).2.m_block_hash = v.m_block_hash ∧
      ((FetchCoin B v o).2.base = v.base ∨ (FetchCoin B v o).2.base = (B.GetCoin v.base o).2) := by
  unfold FetchCoin
  cases v.cacheCoins.lookup o with
  | some e => exact ⟨rfl, rfl, .inl rfl⟩
  | none =>
    rcases B.GetCoin v.base o with ⟨_ | coin, base⟩
    · exact ⟨rfl, rfl, .inr rfl⟩
    · exact ⟨rfl, rfl, .inr rfl⟩

theorem GetCoin_snd (B : CoinsBase σ) (v : CCoinsViewCache σ) (o : COutPoint) :
    (GetCoin B v o).2 = (FetchCoin B v o).2 := by
  unfold GetCoin
  rcases FetchCoin B v o with ⟨entry, v'⟩
  rfl

/-- `BatchWrite` of a cache keeps its base and applies the record it is handed. -/
theorem BatchWrite_frame {v v' : CCoinsViewCache σ} {cursor : List (COutPoint × CCoinsCacheEntry)}
    {in_block_hash : uint256} {names : CNameCache} (h : BatchWrite v cursor in_block_hash names = .ok v') :
    v'.base = v.base ∧ v'.cacheNames = v.cacheNames.apply names := by
  obtain ⟨coins, -, hv⟩ := bind_eq_ok.mp h
  rw [pure_eq_ok] at hv
  subst hv
  exact ⟨rfl, rfl⟩

end CCoinsViewCache

/-- `FetchCoin` keeps the record and what the base shows. -/
theorem FetchCoin_flat (hB : LawfulView B Inv flat) {v : CCoinsViewCache σ} (hv : Inv v.base) (o : COutPoint) :
    (CCoinsViewCache.FetchCoin B v o).2.cacheNames = v.cacheNames ∧
      flat (CCoinsViewCache.FetchCoin B v o).2.base = flat v.base := by
  obtain ⟨hnames, -, hbase⟩ := CCoinsViewCache.FetchCoin_frame B v o
  refine ⟨hnames, ?_⟩
  -- the base changes only by its own `GetCoin`, which keeps its view
  rcases hbase with h | h
  · rw [h]
  · rw [h, hB.getCoin_flat _ _ hv]

/-- `GetCoin` of a lawful base keeps the view of a cache on it. -/
theorem cacheFlat_GetCoin (hB : LawfulView B Inv flat) {v : CCoinsViewCache σ} (hv : ViewInv B Inv v)
    (o : COutPoint) :
    ViewInv B Inv (CCoinsViewCache.GetCoin B v o).2 ∧
      cacheFlat flat (CCoinsViewCache.GetCoin B v o).2 = cacheFlat flat v := by
  obtain ⟨hnames, hflat⟩ := FetchCoin_flat hB hv.base o
  rw [← CCoinsViewCache.GetCoin_snd] at hnames hflat
  rcases hg : CCoinsViewCache.GetCoin B v o with ⟨coin, v'⟩
  rw [hg] at hnames hflat
  obtain ⟨hinv, -, hshown, -, -⟩ := CCoinsViewCache.GetCoin_spec hB.toLawfulBase hv.toCacheInv hg
  refine ⟨⟨hinv, hnames ▸ hv.names⟩, ?_⟩
  rw [cacheFlat_eq hB, cacheFlat_eq hB, hflat, coinsOf_cacheBase, coinsOf_cacheBase, hshown, hnames]

/-- `BatchWrite` of a cache: its view is the cursor and the record handed to it
written into the view it showed. -/
theorem cacheFlat_BatchWrite (hB : LawfulView B Inv flat) {v v' : CCoinsViewCache σ} (hv : ViewInv B Inv v)
    {cursor : List (COutPoint × CCoinsCacheEntry)} (hc : EntriesInv (cacheFlat flat v).coins cursor)
    {in_block_hash : uint256} {names : CNameCache}
    (hw : CCoinsViewCache.BatchWrite v cursor in_block_hash names = .ok v') :
    cacheFlat flat v' = writeNames names (writeCoins cursor (cacheFlat flat v)) := by
  have hshown : (cacheFlat flat v).coins = overlay (B.coinsOf v.base) v.cacheCoins := by
    rw [cacheFlat_eq hB, coinsOf_cacheBase]
  rw [hshown] at hc
  obtain ⟨v'', hw', -, -, hcoins⟩ := CCoinsViewCache.BatchWrite_spec hv.toCacheInv hc in_block_hash names
  rw [hw, Except.ok.injEq] at hw'
  subst hw'
  obtain ⟨hbase, hnames⟩ := CCoinsViewCache.BatchWrite_frame hw
  rw [hbase, hB.coinsOf] at hcoins
  have hwritten : writeNames v.cacheNames { flat v.base with coins := overlay (flat v.base).coins v'.cacheCoins } =
      writeCoins cursor (cacheFlat flat v) := by
    rw [writeCoins_eq, cacheFlat, writeNames_with_coins _ _ (overlay (flat v.base).coins v'.cacheCoins),
      writeNames_with_coins _ _ (overlay (flat v.base).coins v.cacheCoins), hcoins]
  -- the cache applies the record, which is writing it after its own
  rw [cacheFlat, hbase, hnames, writeNames_apply hv.names (sortedIndex_with_coins (hB.sorted v.base hv.base) _),
    hwritten]

/-- A cache on a lawful base is a lawful base, which shows its record written
over its base's view: stacks of caches compose. -/
theorem LawfulView.cache (hB : LawfulView B Inv flat) :
    LawfulView (cacheBase B) (ViewInv B Inv) (cacheFlat flat) where
  getCoin_inv v o hv := (cacheFlat_GetCoin hB hv o).1
  getCoin_coinsOf v o hv := hB.toLawfulBase.cache.getCoin_coinsOf v o hv.toCacheInv
  batchWrite v cursor in_block_hash names hv hh hc := by
    obtain ⟨v', hw, hinv, hcoins⟩ :=
      hB.toLawfulBase.cache.batchWrite v cursor in_block_hash names hv.toCacheInv hh hc
    obtain ⟨-, hnames⟩ := CCoinsViewCache.BatchWrite_frame hw
    exact ⟨v', hw, ⟨hinv, hnames ▸ hv.names.apply names⟩, hcoins⟩
  coinsOf v := by rw [cacheFlat_eq hB]
  getCoin_flat v o hv := (cacheFlat_GetCoin hB hv o).2
  getName v hv := CCoinsViewCache.GetName_eq B.toViewBase (hB.getName v.base hv.base)
  getNameHistory v hv := CCoinsViewCache.GetNameHistory_eq B.toViewBase hv.names (hB.getNameHistory v.base hv.base)
  getNamesForHeight v h hv := by
    rw [cacheFlat_eq hB]
    exact CCoinsViewCache.GetNamesForHeight_eq B hv.names (fun h => hB.getNamesForHeight v.base h hv.base) h
  sorted v hv := (sortedIndex_with_coins (hB.sorted v.base hv.base) _).writeNames v.cacheNames
  batchWrite_flat _ _ _ _ _ hv hc hw := cacheFlat_BatchWrite hB hv hc hw

end Cache

/-! ## The database and stacks of caches -/

/-- The database shows itself, in the states whose names of each height are
sorted. -/
theorem lawfulView_coinsDB : LawfulView coinsDB CoinsView.SortedIndex id where
  getCoin_inv _ _ hs := hs
  getCoin_coinsOf _ _ _ := rfl
  batchWrite view cursor in_block_hash names hs hh _ := by
    refine ⟨writeNames names (writeCoins cursor view), by simp [coinsDB, CCoinsViewDB, hh], ?_, ?_⟩
    · rw [writeCoins_eq]
      exact (sortedIndex_with_coins hs _).writeNames names
    · rw [coinsOf_coinsDB, coinsOf_coinsDB, writeNames_coins, writeCoins_coins]
  coinsOf _ := rfl
  getCoin_flat _ _ _ := rfl
  getName _ _ := rfl
  getNameHistory _ _ := rfl
  getNamesForHeight _ _ _ := rfl
  sorted _ hs := hs
  batchWrite_flat view cursor in_block_hash names view' _ _ hw := by
    simp only [coinsDB, CCoinsViewDB] at hw
    split at hw
    · cases hw
    · exact (Except.ok.inj hw).symm

/-- What the top of a stack of `n` caches on the database shows. -/
def stackFlat : (n : Nat) → CacheStack n → CoinsView
  | 0 => id
  | n + 1 => cacheFlat (stackFlat n)

/-- Every cache of the stack stands against the one below it and keeps a record
of maps, and the database's names of each height are sorted. -/
def ViewStackInv : (n : Nat) → CacheStack n → Prop
  | 0 => CoinsView.SortedIndex
  | n + 1 => ViewInv (stackBase n) (ViewStackInv n)

theorem lawfulView_stack : ∀ n, LawfulView (stackBase n) (ViewStackInv n) (stackFlat n)
  | 0 => lawfulView_coinsDB
  | n + 1 => (lawfulView_stack n).cache

/-! ## The layered flat model -/

/-- What a cache is for: the view its base shows, and its own, the base's with
the changes made since the last `Flush`, `Sync` or `Reset`. -/
structure LayeredView where
  parent : CoinsView
  top : CoinsView

namespace LayeredView

/-- A coin operation on the flat views: `Flush` and `Sync` hand the top down,
`Reset` drops it, and the others change the top's coins as they change the
layered coins. -/
def coinStep (s : LayeredView) (op : CoinOp) : LayeredView :=
  match op with
  | .Flush | .Sync => { s with parent := s.top }
  | .Reset => { s with top := s.parent }
  | _ => { s with top := { s.top with coins := (Layered.step ⟨s.parent.coins, s.top.coins⟩ op).top } }

/-- A name operation on the flat views: `SetName` and `DeleteName` of the top,
and `Flush`, `Sync` and `Reset` as for the coins. -/
def nameStep (fNameHistory : Bool) (s : LayeredView) : CacheOp → Except Failure LayeredView
  | .SetName name data undo => do
    let top ← s.top.SetName fNameHistory name data undo
    pure { s with top := top }
  | .DeleteName name => do
    let top ← s.top.DeleteName fNameHistory name
    pure { s with top := top }
  | .Flush | .Sync => .ok { s with parent := s.top }
  | .Reset => .ok { s with top := s.parent }

def step (fNameHistory : Bool) (s : LayeredView) : ViewOp → Except Failure LayeredView
  | .coin op => .ok (s.coinStep op)
  | .name op => s.nameStep fNameHistory op

def run (fNameHistory : Bool) : LayeredView → List ViewOp → Except Failure LayeredView
  | s, [] => .ok s
  | s, op :: ops => s.step fNameHistory op >>= fun s => run fNameHistory s ops

end LayeredView

/-! ## A cache refines the layered flat model -/

/-- The cache `v`, on a base that shows the view `flat` where `Inv` holds, is
the layered views `s`. -/
structure ViewRepr (B : CoinsBase σ) (Inv : σ → Prop) (flat : σ → CoinsView) (v : CCoinsViewCache σ)
    (s : LayeredView) : Prop where
  inv : ViewInv B Inv v
  parent : flat v.base = s.parent
  top : cacheFlat flat v = s.top

/-- What the caller of each operation must know: `CoinPre` of the coin
operations, and a block hash for `Flush` and `Sync`. -/
def ViewPre (B : CoinsBase σ) (v : CCoinsViewCache σ) : ViewOp → Prop
  | .coin op => CoinPre B v op
  | .name .Flush | .name .Sync => v.m_block_hash ≠ 0
  | .name (.SetName _ _ _) | .name (.DeleteName _) | .name .Reset => True

/-- The callers' side along a run. -/
def ViewPreRun (B : CoinsBase σ) (fNameHistory : Bool) : CCoinsViewCache σ → List ViewOp → Prop
  | _, [] => True
  | v, op :: ops =>
    ViewPre B v op ∧ ∀ v', CCoinsViewCache.viewStep B fNameHistory v op = .ok v' → ViewPreRun B fNameHistory v' ops

namespace CCoinsViewCache

theorem AddCoin_frame {v v' : CCoinsViewCache σ} {o : COutPoint} {coin : Coin} {possible_overwrite : Bool}
    (h : AddCoin v o coin possible_overwrite = .ok v') : v'.base = v.base ∧ v'.cacheNames = v.cacheNames := by
  unfold AddCoin at h
  split at h
  · cases h
  split at h
  · cases h
    exact ⟨rfl, rfl⟩
  · obtain ⟨_, -, h⟩ := Iff.mp bind_eq_ok h
    cases h
    exact ⟨rfl, rfl⟩

theorem SpendCoin_frame (B : CoinsBase σ) (v : CCoinsViewCache σ) (o : COutPoint) :
    (SpendCoin B v o).2.2.base = (FetchCoin B v o).2.base ∧
      (SpendCoin B v o).2.2.cacheNames = (FetchCoin B v o).2.cacheNames := by
  unfold SpendCoin
  rcases FetchCoin B v o with ⟨_ | entry, v'⟩
  · exact ⟨rfl, rfl⟩
  · dsimp only
    split <;> exact ⟨rfl, rfl⟩

theorem Uncache_frame (v : CCoinsViewCache σ) (o : COutPoint) :
    (Uncache v o).base = v.base ∧ (Uncache v o).cacheNames = v.cacheNames := by
  unfold Uncache
  split
  · split <;> exact ⟨rfl, rfl⟩
  · exact ⟨rfl, rfl⟩

end CCoinsViewCache

section Refinement

variable {B : CoinsBase σ} {Inv : σ → Prop} {flat : σ → CoinsView} {v : CCoinsViewCache σ} {s : LayeredView}

/-- The callers' side along a run whose first operation succeeds at `v₁`. -/
theorem ViewPreRun.cons {fNameHistory : Bool} {v₁ : CCoinsViewCache σ} {op : ViewOp} {ops : List ViewOp}
    (hp : ViewPre B v op) (hstep : CCoinsViewCache.viewStep B fNameHistory v op = .ok v₁)
    (hrest : ViewPreRun B fNameHistory v₁ ops) : ViewPreRun B fNameHistory v (op :: ops) :=
  ⟨hp, fun v' h => by
    rw [hstep] at h
    cases h
    exact hrest⟩

/-- The coins of the layered views are the layered coins. -/
theorem ViewRepr.toRepr (hB : LawfulView B Inv flat) (h : ViewRepr B Inv flat v s) :
    Repr B Inv v ⟨s.parent.coins, s.top.coins⟩ :=
  ⟨h.inv.toCacheInv, by rw [hB.coinsOf, h.parent], by rw [← h.top, cacheFlat_eq hB]⟩

/-- After a `BatchWrite` of everything, the base shows what the cache showed. -/
theorem flat_batchWrite (hB : LawfulView B Inv flat) (h : ViewRepr B Inv flat v s) {base : σ}
    (hw : B.BatchWrite v.base v.cacheCoins v.m_block_hash v.cacheNames = .ok base) :
    flat base = cacheFlat flat v := by
  have hc : EntriesInv (flat v.base).coins v.cacheCoins := hB.coinsOf v.base ▸ h.inv.entries
  rw [hB.batchWrite_flat _ _ _ _ _ h.inv.base hc hw, writeCoins_eq, hc.written_eq]
  rfl

/-- `Flush` of a cache with a block hash does not throw: its base shows what it
showed, and so does the cache, whose record the base now already holds. -/
theorem Flush_repr (hB : LawfulView B Inv flat) (h : ViewRepr B Inv flat v s) (hh : v.m_block_hash ≠ 0) :
    Agree (ViewRepr B Inv flat) (CCoinsViewCache.Flush B.toViewBase v) (.ok { s with parent := s.top }) := by
  obtain ⟨base, hw, hinv, -⟩ :=
    hB.batchWrite v.base v.cacheCoins v.m_block_hash v.cacheNames h.inv.base hh h.inv.entries
  have hflat := flat_batchWrite hB h hw
  refine agree_of_ok (a := { v with base := base, cacheCoins := [] }) ?_ rfl
    ⟨⟨⟨hinv, entriesInv_nil _⟩, h.inv.names⟩, hflat.trans h.top, ?_⟩
  · simp only [CCoinsViewCache.Flush, hh, false_and, if_false]
    simp [hw]
  · -- the record is written again over the view it stands for
    have hsame : cacheFlat flat { v with base := base, cacheCoins := [] } = writeNames v.cacheNames (flat base) :=
      rfl
    rw [hsame, hflat, cacheFlat, writeNames_idem h.inv.names (sortedIndex_with_coins (hB.sorted _ h.inv.base) _)]
    exact h.top

/-- `Sync` of a cache with a block hash does not throw: its base shows what it
shows, and the cache keeps showing it. -/
theorem Sync_repr (hB : LawfulView B Inv flat) (h : ViewRepr B Inv flat v s) (hh : v.m_block_hash ≠ 0) :
    Agree (ViewRepr B Inv flat) (CCoinsViewCache.Sync B.toViewBase v) (.ok { s with parent := s.top }) := by
  obtain ⟨base, hw, hinv, -⟩ :=
    hB.batchWrite v.base v.cacheCoins v.m_block_hash v.cacheNames h.inv.base hh h.inv.entries
  have hflat := flat_batchWrite hB h hw
  have hc : EntriesInv (flat v.base).coins v.cacheCoins := hB.coinsOf v.base ▸ h.inv.entries
  have hbase : (flat base).coins = overlay (flat v.base).coins v.cacheCoins := by
    rw [hflat, cacheFlat, writeNames_coins]
  refine agree_of_ok (a := { v with base := base, cacheCoins := CCoinsViewCache.syncCoins v.cacheCoins })
    (by simp [CCoinsViewCache.Sync, hw]) rfl ⟨⟨⟨hinv, ?_⟩, h.inv.names⟩, hflat.trans h.top, ?_⟩
  · rw [hB.coinsOf, hbase]
    exact hc.syncCoins
  · -- the synced entries show the coins the base now shows
    have hcoins : overlay (flat base).coins (CCoinsViewCache.syncCoins v.cacheCoins) = (flat base).coins := by
      rw [hbase]
      exact overlay_syncCoins hc
    have hsame : cacheFlat flat { v with base := base, cacheCoins := CCoinsViewCache.syncCoins v.cacheCoins } =
        writeNames v.cacheNames (flat base) := by
      show writeNames v.cacheNames { flat base with coins := overlay (flat base).coins _ } = _
      rw [hcoins]
    rw [hsame, hflat, cacheFlat, writeNames_idem h.inv.names (sortedIndex_with_coins (hB.sorted _ h.inv.base) _)]
    exact h.top

/-- `Reset` empties the cache, which then shows its base's view. -/
theorem Reset_repr (h : ViewRepr B Inv flat v s) :
    ViewRepr B Inv flat (CCoinsViewCache.Reset v) { s with top := s.parent } :=
  ⟨⟨⟨h.inv.base, entriesInv_nil _⟩, CNameCache.wf_clear⟩, h.parent, h.parent⟩

/-- A coin operation that keeps the record and what the base shows moves the
cache as it moves the coins of the top. -/
theorem coin_repr (hB : LawfulView B Inv flat) (h : ViewRepr B Inv flat v s) {op : CoinOp} (hp : CoinPre B v op)
    (hframe : ∀ v', CCoinsViewCache.coinStep B v op = .ok v' →
      v'.cacheNames = v.cacheNames ∧ flat v'.base = flat v.base)
    (hstep : s.coinStep op =
      { s with top := { s.top with coins := (Layered.step ⟨s.parent.coins, s.top.coins⟩ op).top } }) :
    Agree (ViewRepr B Inv flat) (CCoinsViewCache.coinStep B v op) (.ok (s.coinStep op)) := by
  obtain ⟨v', hv', hrepr⟩ := coinStep_repr hB.toLawfulBase (h.toRepr hB) hp
  obtain ⟨hnames, hflat⟩ := hframe v' hv'
  refine agree_of_ok hv' rfl ⟨⟨hrepr.inv, hnames ▸ h.inv.names⟩, ?_, ?_⟩
  · rw [hflat, h.parent, hstep]
  · rw [hstep, cacheFlat_eq hB, hrepr.top, hnames, hflat, ← h.top, cacheFlat_eq hB]

/-- A name operation that agrees with the flat one on what the cache shows
moves the cache as the flat operation moves the top. -/
theorem name_repr (h : ViewRepr B Inv flat v s) {x : Except Failure (CCoinsViewCache σ)}
    {y : Except Failure CoinsView}
    (hxy : Agree (fun v' view' => v'.base = v.base ∧ v'.cacheCoins = v.cacheCoins ∧
        v'.m_block_hash = v.m_block_hash ∧ v'.cacheNames.WF ∧
        writeNames v'.cacheNames { flat v.base with coins := overlay (flat v.base).coins v.cacheCoins } = view') x y) :
    Agree (ViewRepr B Inv flat) x (y >>= fun top => pure { s with top := top }) := by
  rw [← bind_pure x]
  refine Agree.bind hxy fun v' top _ hrel => agree_of_ok rfl rfl ?_
  obtain ⟨hbase, hcoins, -, hwf, hwrite⟩ := hrel
  refine ⟨⟨⟨hbase ▸ h.inv.base, ?_⟩, hwf⟩, hbase ▸ h.parent, ?_⟩
  · rw [hbase, hcoins]
    exact h.inv.entries
  · rw [cacheFlat, hbase, hcoins]
    exact hwrite

/-- One operation, under its caller's side, fails exactly where the flat
operation fails, with the same error, and otherwise moves the cache as it moves
the layered views. -/
theorem viewStep_repr (hB : LawfulView B Inv flat) (fNameHistory : Bool) (h : ViewRepr B Inv flat v s)
    {op : ViewOp} (hp : ViewPre B v op) :
    Agree (ViewRepr B Inv flat) (CCoinsViewCache.viewStep B fNameHistory v op) (s.step fNameHistory op) := by
  have hview := sortedIndex_with_coins (hB.sorted v.base h.inv.base) (overlay (flat v.base).coins v.cacheCoins)
  cases op with
  | coin op =>
    have hp : CoinPre B v op := hp
    cases op with
    | GetCoin o =>
      refine coin_repr hB h hp (fun v' hv' => ?_) rfl
      obtain rfl := Except.ok.inj hv'
      rw [CCoinsViewCache.GetCoin_snd]
      exact FetchCoin_flat hB h.inv.base o
    | AddCoin o coin possible_overwrite =>
      refine coin_repr hB h hp (fun v' hv' => ?_) rfl
      obtain ⟨hbase, hnames⟩ := CCoinsViewCache.AddCoin_frame hv'
      exact ⟨hnames, by rw [hbase]⟩
    | SpendCoin o =>
      refine coin_repr hB h hp (fun v' hv' => ?_) rfl
      obtain rfl := Except.ok.inj hv'
      obtain ⟨hbase, hnames⟩ := CCoinsViewCache.SpendCoin_frame B v o
      rw [hbase, hnames]
      exact FetchCoin_flat hB h.inv.base o
    | Uncache o =>
      refine coin_repr hB h hp (fun v' hv' => ?_) rfl
      obtain rfl := Except.ok.inj hv'
      obtain ⟨hbase, hnames⟩ := CCoinsViewCache.Uncache_frame v o
      exact ⟨hnames, by rw [hbase]⟩
    | SetBestBlock in_block_hash =>
      refine coin_repr hB h hp (fun v' hv' => ?_) rfl
      obtain rfl := Except.ok.inj hv'
      exact ⟨rfl, rfl⟩
    | Flush => exact Flush_repr hB h hp
    | Sync => exact Sync_repr hB h hp
    | Reset => exact agree_of_ok rfl rfl (Reset_repr h)
  | name op =>
    cases op with
    | SetName name data undo =>
      show Agree _ (CCoinsViewCache.SetName B.toViewBase fNameHistory v name data undo)
        (s.top.SetName fNameHistory name data undo >>= fun top => pure { s with top := top })
      rw [← h.top]
      exact name_repr h (CCoinsViewCache.SetName_agree B.toViewBase fNameHistory h.inv.names hview
        (hB.getName _ h.inv.base) (hB.getNameHistory _ h.inv.base) name data undo)
    | DeleteName name =>
      show Agree _ (CCoinsViewCache.DeleteName B.toViewBase fNameHistory v name)
        (s.top.DeleteName fNameHistory name >>= fun top => pure { s with top := top })
      rw [← h.top]
      exact name_repr h (CCoinsViewCache.DeleteName_agree B.toViewBase fNameHistory h.inv.names hview
        (hB.getName _ h.inv.base) (hB.getNameHistory _ h.inv.base) name)
    | Flush => exact Flush_repr hB h hp
    | Sync => exact Sync_repr hB h hp
    | Reset => exact agree_of_ok rfl rfl (Reset_repr h)

/-- A run whose callers keep their side fails exactly where the flat run fails,
with the same error, and otherwise leaves the cache showing the layered views
the flat run gives. -/
theorem viewRun_repr (hB : LawfulView B Inv flat) (fNameHistory : Bool) :
    ∀ (ops : List ViewOp) {v : CCoinsViewCache σ} {s : LayeredView}, ViewRepr B Inv flat v s →
      ViewPreRun B fNameHistory v ops →
      Agree (ViewRepr B Inv flat) (CCoinsViewCache.viewRun B fNameHistory v ops) (s.run fNameHistory ops)
  | [], _, _, h, _ => agree_of_ok rfl rfl h
  | op :: ops, _, _, h, ⟨hp, hrest⟩ => by
    rw [CCoinsViewCache.viewRun, LayeredView.run]
    exact Agree.bind (viewStep_repr hB fNameHistory h hp) fun v' _ hv' h' =>
      viewRun_repr hB fNameHistory ops h' (hrest v' hv')

end Refinement

/-! ## Stacks of caches on the database -/

/-- A cache on a stack of any number of caches on the database, under any
interleaving of coin and name operations whose callers keep their side: the run
fails exactly where the same run on the two flat views fails, with the same
error, and otherwise leaves the cache and the stack below it showing the two
views the flat run gives. -/
theorem viewRun_stack (n : Nat) (fNameHistory : Bool) {v : CCoinsViewCache (CacheStack n)}
    (hv : ViewInv (stackBase n) (ViewStackInv n) v) (ops : List ViewOp)
    (hp : ViewPreRun (stackBase n) fNameHistory v ops) :
    Agree (ViewRepr (stackBase n) (ViewStackInv n) (stackFlat n))
      (CCoinsViewCache.viewRun (stackBase n) fNameHistory v ops)
      ((⟨stackFlat n v.base, cacheFlat (stackFlat n) v⟩ : LayeredView).run fNameHistory ops) :=
  viewRun_repr (lawfulView_stack n) fNameHistory ops ⟨hv, rfl, rfl⟩ hp

/-- Two names registered and a coin added on two empty caches, and flushed;
then one name updated at another height, the other deleted and the coin spent. -/
def overlayOps : List ViewOp :=
  [.name (.SetName [0x61] ⟨[0x31], 1, ⟨1, 0⟩, []⟩ false), .name (.SetName [0x62] ⟨[0x32], 1, ⟨1, 1⟩, []⟩ false),
    .coin (.AddCoin ⟨1, 0⟩ ⟨⟨1000000, [0x52]⟩, 1, false⟩ false), .name .Flush,
    .name (.SetName [0x61] ⟨[0x33], 2, ⟨2, 0⟩, []⟩ false), .name (.DeleteName [0x62]),
    .coin (.SpendCoin ⟨1, 0⟩)]

theorem viewInv_twoCaches : ViewInv (stackBase 1) (ViewStackInv 1) twoCaches :=
  ⟨cacheInv_empty (⟨cacheInv_empty (fun _ => List.Pairwise.nil) 1 CNameCache.clear, CNameCache.wf_clear⟩ :
    ViewInv (stackBase 0) (ViewStackInv 0) freshCache) 1 CNameCache.clear, CNameCache.wf_clear⟩

/-- The callers' side of `overlayOps`, then of a sync. -/
theorem overlayOps_sync_pre : ViewPreRun (stackBase 1) false twoCaches (overlayOps ++ [.name .Sync]) :=
  .cons trivial rfl <| .cons trivial rfl <| .cons ⟨rfl, fun _ => rfl⟩ rfl <|
    .cons (show _ ≠ (0 : uint256) by decide) rfl <| .cons trivial rfl <| .cons trivial rfl <|
    .cons trivial rfl <| .cons (show _ ≠ (0 : uint256) by decide) rfl trivial

/-- The callers' side of `overlayOps`, a sync, and deleting a deleted name. -/
theorem overlayOps_delete_pre :
    ViewPreRun (stackBase 1) false twoCaches (overlayOps ++ [.name .Sync, .name (.DeleteName [0x62])]) :=
  .cons trivial rfl <| .cons trivial rfl <| .cons ⟨rfl, fun _ => rfl⟩ rfl <|
    .cons (show _ ≠ (0 : uint256) by decide) rfl <| .cons trivial rfl <| .cons trivial rfl <|
    .cons trivial rfl <| .cons (show _ ≠ (0 : uint256) by decide) rfl ⟨trivial, fun _ _ => trivial⟩

/-- The run of `overlayOps` and a sync on two caches keeps every layer's
invariant and shows the two flat views; deleting the deleted name once more
then fails in the cache and in the flat views alike. -/
theorem viewRun_stack_overlay :
    ViewInv (stackBase 1) (ViewStackInv 1) twoCaches ∧
      ViewPreRun (stackBase 1) false twoCaches (overlayOps ++ [.name .Sync]) ∧
      ViewPreRun (stackBase 1) false twoCaches (overlayOps ++ [.name .Sync, .name (.DeleteName [0x62])]) ∧
      Agree (ViewRepr (stackBase 1) (ViewStackInv 1) (stackFlat 1))
        (CCoinsViewCache.viewRun (stackBase 1) false twoCaches (overlayOps ++ [.name .Sync]))
        ((⟨stackFlat 1 twoCaches.base, cacheFlat (stackFlat 1) twoCaches⟩ : LayeredView).run false
          (overlayOps ++ [.name .Sync])) ∧
      Agree (ViewRepr (stackBase 1) (ViewStackInv 1) (stackFlat 1))
        (CCoinsViewCache.viewRun (stackBase 1) false twoCaches
          (overlayOps ++ [.name .Sync, .name (.DeleteName [0x62])]))
        ((⟨stackFlat 1 twoCaches.base, cacheFlat (stackFlat 1) twoCaches⟩ : LayeredView).run false
          (overlayOps ++ [.name .Sync, .name (.DeleteName [0x62])])) ∧
      (∃ v, CCoinsViewCache.viewRun (stackBase 1) false twoCaches (overlayOps ++ [.name .Sync]) = .ok v) ∧
      CCoinsViewCache.viewRun (stackBase 1) false twoCaches
        (overlayOps ++ [.name .Sync, .name (.DeleteName [0x62])]) = .error .assertion :=
  ⟨viewInv_twoCaches, overlayOps_sync_pre, overlayOps_delete_pre,
    viewRun_stack 1 false viewInv_twoCaches _ overlayOps_sync_pre,
    viewRun_stack 1 false viewInv_twoCaches _ overlayOps_delete_pre, ⟨_, rfl⟩, rfl⟩

/-- A cache on a stack of caches on the database answers every query from the
view it shows; `GetNamesForHeight` never asserts, and makes the record's
changes of the height to its base's names of it. -/
theorem stack_queries (n : Nat) {v : CCoinsViewCache (CacheStack n)}
    (hv : ViewInv (stackBase n) (ViewStackInv n) v) :
    (∀ o, (CCoinsViewCache.GetCoin (stackBase n) v o).1 = (cacheFlat (stackFlat n) v).coins o) ∧
      CCoinsViewCache.GetName (stackBase n).toViewBase v = (cacheFlat (stackFlat n) v).names ∧
      CCoinsViewCache.GetNameHistory (stackBase n).toViewBase v = (cacheFlat (stackFlat n) v).history ∧
      ∀ h, CCoinsViewCache.GetNamesForHeight (stackBase n) v h = .ok ((cacheFlat (stackFlat n) v).expireIndex h) := by
  have hB := (lawfulView_stack n).cache
  exact ⟨fun o => congrFun (hB.coinsOf v) o, hB.getName v hv, hB.getNameHistory v hv,
    fun h => hB.getNamesForHeight v h hv⟩

/-- The top of `twoCaches` after `overlayOps`: its record updates one name at
another height and deletes the other, over the record flushed below, and its
coin entry spends the coin below. -/
def overlayCache : CCoinsViewCache (CacheStack 1) :=
  match CCoinsViewCache.viewRun (stackBase 1) false twoCaches overlayOps with
  | .ok v => v
  | .error _ => twoCaches

theorem stack_queries_overlay :
    ViewInv (stackBase 1) (ViewStackInv 1) overlayCache ∧
      ((∀ o, (CCoinsViewCache.GetCoin (stackBase 1) overlayCache o).1 =
          (cacheFlat (stackFlat 1) overlayCache).coins o) ∧
        CCoinsViewCache.GetName (stackBase 1).toViewBase overlayCache = (cacheFlat (stackFlat 1) overlayCache).names ∧
        CCoinsViewCache.GetNameHistory (stackBase 1).toViewBase overlayCache =
          (cacheFlat (stackFlat 1) overlayCache).history ∧
        ∀ h, CCoinsViewCache.GetNamesForHeight (stackBase 1) overlayCache h =
          .ok ((cacheFlat (stackFlat 1) overlayCache).expireIndex h)) ∧
      -- below, both names are at height 1 and the coin is there; the record changes all three
      (stackFlat 1 overlayCache.base).names [0x62] = some ⟨[0x32], 1, ⟨1, 1⟩, []⟩ ∧
      (cacheFlat (stackFlat 1) overlayCache).names [0x62] = none ∧
      (cacheFlat (stackFlat 1) overlayCache).names [0x61] = some ⟨[0x33], 2, ⟨2, 0⟩, []⟩ ∧
      (stackFlat 1 overlayCache.base).expireIndex 1 = [[0x61], [0x62]] ∧
      (cacheFlat (stackFlat 1) overlayCache).expireIndex 1 = [] ∧
      (cacheFlat (stackFlat 1) overlayCache).expireIndex 2 = [[0x61]] ∧
      (stackFlat 1 overlayCache.base).coins ⟨1, 0⟩ = some ⟨⟨1000000, [0x52]⟩, 1, false⟩ ∧
      (cacheFlat (stackFlat 1) overlayCache).coins ⟨1, 0⟩ = none := by
  have hpre : ViewPreRun (stackBase 1) false twoCaches overlayOps :=
    .cons trivial rfl <| .cons trivial rfl <| .cons ⟨rfl, fun _ => rfl⟩ rfl <|
      .cons (show _ ≠ (0 : uint256) by decide) rfl <| .cons trivial rfl <| .cons trivial rfl <|
      .cons trivial rfl trivial
  obtain ⟨s, -, hrepr⟩ := (viewRun_repr (lawfulView_stack 1) false overlayOps
    (s := ⟨stackFlat 1 twoCaches.base, cacheFlat (stackFlat 1) twoCaches⟩) ⟨viewInv_twoCaches, rfl, rfl⟩
    hpre).of_ok (a := overlayCache) rfl
  exact ⟨hrepr.inv, stack_queries 1 hrepr.inv, rfl, rfl, rfl, rfl, rfl, rfl, rfl, rfl⟩

end Namecoin.Names
