import Mathlib
import Namecoin.Names.CoinsCache

/-! # A coins cache shows the coins of a flat map (coins.cpp)

Each entry of a cache stands against the coin its base shows at its outpoint
(`CCoinsCacheEntry.Sound`): it is in one of the four states coins.h lists, it
is FRESH only where the base shows no coin, and a clean entry shows the base's
coin. A cache then shows its entries over its base's coins (`overlay`), and

* every operation moves those coins as it moves a flat map, `Flush` and `Sync`
  leave the base showing them, and none of them throws: `BatchWrite` never
  meets a FRESH entry over an unspent coin (`coinStep_repr`, `coinRun_repr`);
* a cache is a base of the same kind (`LawfulBase.cache`), so the same holds
  of every stack of caches on the database (`lawful_stack`).

`AddCoin` without `possible_overwrite` reads only the cache's own entry: the
caller must know that there is no coin (`CoinPre`), or the coin would be marked
FRESH over an unspent coin of the base. -/

namespace Namecoin.Names
open Lib.ExceptM Lib.AssocMap Lib.KeyList Namecoin.Script

variable {σ : Type}

/-- The coins a base shows: what its `GetCoin` reads. -/
def CoinsBase.coinsOf (B : CoinsBase σ) (s : σ) (outpoint : COutPoint) : Option Coin :=
  (B.GetCoin s outpoint).1

/-- The coins of a base under the entries of a cache. -/
def overlay (pv : COutPoint → Option Coin) (coins : List (COutPoint × CCoinsCacheEntry))
    (outpoint : COutPoint) : Option Coin :=
  (coins.lookup outpoint).elim (pv outpoint) CCoinsCacheEntry.coin

/-- The coins of a base once the DIRTY entries of a cursor are written, one by
one. -/
def written (cursor : List (COutPoint × CCoinsCacheEntry)) (pv : COutPoint → Option Coin) :
    COutPoint → Option Coin :=
  cursor.foldl (fun m e => if e.2.dirty then Function.update m e.1 e.2.coin else m) pv

/-- An entry against the coin its base shows at the outpoint: one of the four
states of coins.h (unspent FRESH DIRTY, unspent DIRTY, unspent clean, spent
DIRTY), FRESH only over no coin, and clean only over the coin it holds. -/
structure CCoinsCacheEntry.Sound (parent : Option Coin) (e : CCoinsCacheEntry) : Prop where
  fresh_dirty : e.fresh = true → e.dirty = true
  fresh_unspent : e.fresh = true → e.coin.isSome
  fresh_parent : e.fresh = true → parent = none
  clean_unspent : e.dirty = false → e.coin.isSome
  clean_parent : e.dirty = false → e.coin = parent

/-- The entries of a cache, against the coins of its base. -/
structure EntriesInv (pv : COutPoint → Option Coin) (coins : List (COutPoint × CCoinsCacheEntry)) :
    Prop where
  keys : KeysNodup coins
  sound : ∀ o e, coins.lookup o = some e → e.Sound (pv o)

/-! ## Overlays -/

section Overlay

variable {pv : COutPoint → Option Coin} {coins : List (COutPoint × CCoinsCacheEntry)}

theorem overlay_of_lookup {o : COutPoint} {e : CCoinsCacheEntry} (h : coins.lookup o = some e) :
    overlay pv coins o = e.coin := by
  simp [overlay, h]

theorem overlay_of_lookup_none {o : COutPoint} (h : coins.lookup o = none) :
    overlay pv coins o = pv o := by
  simp [overlay, h]

@[simp] theorem overlay_nil (pv : COutPoint → Option Coin) : overlay pv [] = pv := rfl

theorem overlay_cons (o : COutPoint) (e : CCoinsCacheEntry) :
    overlay pv ((o, e) :: coins) = Function.update (overlay pv coins) o e.coin := by
  funext o'
  by_cases ho : o' = o
  · subst ho
    simp [overlay]
  · simp [overlay, ho]

theorem overlay_eraseKey (o : COutPoint) :
    overlay pv (eraseKey o coins) = Function.update (overlay pv coins) o (pv o) := by
  funext o'
  by_cases ho : o' = o
  · subst ho
    simp [overlay, lookup_eraseKey]
  · simp [overlay, lookup_eraseKey, ho]

theorem overlay_assign (o : COutPoint) (e : CCoinsCacheEntry) :
    overlay pv (assign o e coins) = Function.update (overlay pv coins) o e.coin := by
  rw [assign, overlay_cons, overlay_eraseKey, Function.update_idem]

theorem written_cons (o : COutPoint) (e : CCoinsCacheEntry) (cursor : List (COutPoint × CCoinsCacheEntry)) :
    written ((o, e) :: cursor) pv =
      written cursor (if e.dirty then Function.update pv o e.coin else pv) := rfl

/-- Written over the coins its entries stand against, a cursor shows what the
cache showed: a clean entry holds the base's coin. -/
theorem EntriesInv.written_eq (h : EntriesInv pv coins) : written coins pv = overlay pv coins := by
  funext o
  rw [written, foldl_update_apply CCoinsCacheEntry.dirty CCoinsCacheEntry.coin h.keys]
  cases hl : coins.lookup o with
  | none => rw [overlay_of_lookup_none hl]
  | some e =>
    rw [overlay_of_lookup hl]
    cases hd : e.dirty with
    | true => simp [hd]
    | false => simpa [hd] using ((h.sound o e hl).clean_parent hd).symm

end Overlay

/-! ## Entries -/

section Entries

variable {pv : COutPoint → Option Coin} {coins : List (COutPoint × CCoinsCacheEntry)}

theorem entriesInv_nil (pv : COutPoint → Option Coin) : EntriesInv pv [] :=
  ⟨keysNodup_nil, fun _ _ h => by cases h⟩

theorem EntriesInv.eraseKey (h : EntriesInv pv coins) (o : COutPoint) :
    EntriesInv pv (eraseKey o coins) := by
  refine ⟨h.keys.eraseKey o, fun o' e' hl => ?_⟩
  rw [lookup_eraseKey] at hl
  by_cases ho : o' = o
  · simp [ho] at hl
  · rw [if_neg ho] at hl
    exact h.sound o' e' hl

theorem EntriesInv.cons (h : EntriesInv pv coins) {o : COutPoint} {e : CCoinsCacheEntry}
    (hn : coins.lookup o = none) (he : e.Sound (pv o)) : EntriesInv pv ((o, e) :: coins) := by
  refine ⟨Iff.mpr keysNodup_cons ⟨hn, h.keys⟩, fun o' e' hl => ?_⟩
  rw [lookup_cons_eq] at hl
  by_cases ho : o' = o
  · subst ho
    simp only [if_true, Option.some.injEq] at hl
    exact hl ▸ he
  · rw [if_neg ho] at hl
    exact h.sound o' e' hl

theorem EntriesInv.assign (h : EntriesInv pv coins) {o : COutPoint} {e : CCoinsCacheEntry}
    (he : e.Sound (pv o)) : EntriesInv pv (assign o e coins) :=
  (h.eraseKey o).cons (by simp [lookup_eraseKey]) he

end Entries

/-! ## What `Sync` leaves -/

/-- What `Sync` leaves of an entry: a flagged one is unflagged, or dropped when
spent. -/
def syncEntry (_ : COutPoint) (e : CCoinsCacheEntry) : Option CCoinsCacheEntry :=
  if e.dirty || e.fresh then e.coin.map fun c => ⟨some c, false, false⟩ else some e

theorem syncCoins_eq (coins : List (COutPoint × CCoinsCacheEntry)) :
    CCoinsViewCache.syncCoins coins = mapVals syncEntry coins := by
  unfold CCoinsViewCache.syncCoins mapVals syncEntry
  congr 1
  funext e
  split <;> simp [Function.comp_def]

/-- After `Sync` the entries stand against the base, which shows what the cache
showed: a flagged unspent entry now holds the base's coin. -/
theorem EntriesInv.syncCoins {coins : List (COutPoint × CCoinsCacheEntry)} {pv : COutPoint → Option Coin}
    (h : EntriesInv pv coins) : EntriesInv (overlay pv coins) (CCoinsViewCache.syncCoins coins) := by
  rw [syncCoins_eq]
  refine ⟨h.keys.mapVals syncEntry, fun o e' hl => ?_⟩
  rw [lookup_mapVals h.keys] at hl
  cases hlo : coins.lookup o with
  | none => simp [hlo] at hl
  | some e =>
    have he := h.sound o e hlo
    rw [hlo, Option.bind_some, syncEntry] at hl
    rw [overlay_of_lookup hlo]
    split at hl
    · -- a flagged entry is left clean, over the coin it holds
      obtain ⟨c, hc, rfl⟩ := Option.map_eq_some_iff.mp hl
      exact ⟨nofun, nofun, nofun, fun _ => rfl, fun _ => hc.symm⟩
    · rename_i hflag
      cases hl
      simp only [Bool.or_eq_true, not_or, Bool.not_eq_true] at hflag
      exact ⟨fun hf => absurd hf (by simp [hflag.2]), fun hf => absurd hf (by simp [hflag.2]),
        fun hf => absurd hf (by simp [hflag.2]), he.clean_unspent, fun _ => rfl⟩

theorem overlay_syncCoins {coins : List (COutPoint × CCoinsCacheEntry)} {pv : COutPoint → Option Coin}
    (h : EntriesInv pv coins) : overlay (overlay pv coins) (CCoinsViewCache.syncCoins coins) = overlay pv coins := by
  funext o
  rw [syncCoins_eq]
  cases hl : (mapVals syncEntry coins).lookup o with
  | none => rw [overlay_of_lookup_none hl]
  | some e' =>
    rw [overlay_of_lookup hl]
    rw [lookup_mapVals h.keys] at hl
    obtain ⟨e, hlo, hs⟩ := Option.bind_eq_some_iff.mp hl
    rw [overlay_of_lookup hlo]
    unfold syncEntry at hs
    split at hs
    · obtain ⟨c, hc, rfl⟩ := Option.map_eq_some_iff.mp hs
      exact hc.symm
    · cases hs
      rfl

/-! ## Bases -/

/-- What a cache needs of its base, in the states where `Inv` holds: `GetCoin`
keeps `Inv` and the coins shown, and `BatchWrite` with a block hash, of a
cursor whose entries stand against the coins shown, succeeds, keeps `Inv`, and
leaves the base showing the DIRTY entries written. -/
structure LawfulBase (B : CoinsBase σ) (Inv : σ → Prop) : Prop where
  getCoin_inv : ∀ s o, Inv s → Inv (B.GetCoin s o).2
  getCoin_coinsOf : ∀ s o, Inv s → B.coinsOf (B.GetCoin s o).2 = B.coinsOf s
  batchWrite : ∀ s cursor in_block_hash names, Inv s → in_block_hash ≠ 0 →
    EntriesInv (B.coinsOf s) cursor →
    ∃ s', B.BatchWrite s cursor in_block_hash names = .ok s' ∧ Inv s' ∧
      B.coinsOf s' = written cursor (B.coinsOf s)

/-- A cache on a base where `Inv` holds, whose entries stand against the coins
of the base. -/
structure CacheInv (B : CoinsBase σ) (Inv : σ → Prop) (v : CCoinsViewCache σ) : Prop where
  base : Inv v.base
  entries : EntriesInv (B.coinsOf v.base) v.cacheCoins

/-- A cache shows its entries over the coins of its base. -/
theorem coinsOf_cacheBase (B : CoinsBase σ) (v : CCoinsViewCache σ) :
    (cacheBase B).coinsOf v = overlay (B.coinsOf v.base) v.cacheCoins := by
  funext o
  simp only [CoinsBase.coinsOf, cacheBase, CCoinsViewCache.GetCoin, CCoinsViewCache.FetchCoin, overlay]
  cases hl : v.cacheCoins.lookup o with
  | some e => rfl
  | none =>
    rcases B.GetCoin v.base o with ⟨_ | coin, base⟩ <;> rfl

namespace CCoinsViewCache

section Ops

variable {B : CoinsBase σ} {Inv : σ → Prop} {v : CCoinsViewCache σ}

/-- `FetchCoin` keeps the invariant and what the cache and its base show;
what it returns is the cache's entry afterwards, and its coin is the one shown. -/
theorem FetchCoin_spec (hB : LawfulBase B Inv) (hv : CacheInv B Inv v) {o : COutPoint}
    {entry : Option CCoinsCacheEntry} {v' : CCoinsViewCache σ} (hf : FetchCoin B v o = (entry, v')) :
    CacheInv B Inv v' ∧ B.coinsOf v'.base = B.coinsOf v.base ∧ v'.cacheCoins.lookup o = entry ∧
      overlay (B.coinsOf v'.base) v'.cacheCoins = overlay (B.coinsOf v.base) v.cacheCoins ∧
      entry.bind CCoinsCacheEntry.coin = overlay (B.coinsOf v.base) v.cacheCoins o ∧
      v'.m_block_hash = v.m_block_hash := by
  unfold FetchCoin at hf
  cases hl : v.cacheCoins.lookup o with
  | some e =>
    -- a cached entry: nothing changes
    rw [hl] at hf
    cases hf
    exact ⟨hv, rfl, hl, rfl, by simp [overlay_of_lookup hl], rfl⟩
  | none =>
    rw [hl] at hf
    have hinv := hB.getCoin_inv v.base o hv.base
    have hcoins := hB.getCoin_coinsOf v.base o hv.base
    have hshown : (B.GetCoin v.base o).1 = overlay (B.coinsOf v.base) v.cacheCoins o := by
      rw [overlay_of_lookup_none hl]
      rfl
    rcases hget : B.GetCoin v.base o with ⟨_ | coin, base⟩ <;> rw [hget] at hf hinv hcoins hshown <;>
      cases hf
    · -- the base has no coin: only the base may change
      exact ⟨⟨hinv, hcoins ▸ hv.entries⟩, hcoins, hl, by rw [hcoins], hshown, rfl⟩
    · -- the coin read is cached clean, over the coin the base shows
      have hsound : (fetched coin).Sound (B.coinsOf v.base o) := by
        have hbase : B.coinsOf v.base o = some coin := by rw [CoinsBase.coinsOf, hget]
        refine ⟨nofun, nofun, nofun, fun _ => rfl, fun _ => hbase.symm⟩
      refine ⟨⟨hinv, hcoins ▸ hv.entries.cons hl hsound⟩, hcoins, by simp, ?_, hshown, rfl⟩
      rw [hcoins, overlay_cons]
      funext o'
      by_cases ho : o' = o
      · subst ho
        simpa using hshown
      · simp [ho]

/-- `GetCoin` reads the coin the cache shows, keeping the invariant and what
the cache and its base show. -/
theorem GetCoin_spec (hB : LawfulBase B Inv) (hv : CacheInv B Inv v) {o : COutPoint}
    {coin : Option Coin} {v' : CCoinsViewCache σ} (hg : GetCoin B v o = (coin, v')) :
    CacheInv B Inv v' ∧ B.coinsOf v'.base = B.coinsOf v.base ∧
      overlay (B.coinsOf v'.base) v'.cacheCoins = overlay (B.coinsOf v.base) v.cacheCoins ∧
      coin = overlay (B.coinsOf v.base) v.cacheCoins o ∧ v'.m_block_hash = v.m_block_hash := by
  unfold GetCoin at hg
  rcases hf : FetchCoin B v o with ⟨entry, v₁⟩
  rw [hf] at hg
  cases hg
  obtain ⟨hinv, hbase, -, hshown, hcoin, hhash⟩ := FetchCoin_spec hB hv hf
  exact ⟨hinv, hbase, hshown, hcoin, hhash⟩

/-- `AddCoin` of a spendable coin that does not throw writes an unspent DIRTY
entry, FRESH where the old entry was, and, without `possible_overwrite`, where
the old entry was not DIRTY. -/
theorem AddCoin_of_spendable {o : COutPoint} {coin : Coin} {possible_overwrite : Bool}
    {old : CCoinsCacheEntry} (hold : (v.cacheCoins.lookup o).getD ⟨none, false, false⟩ = old)
    (hnull : coin.IsSpent = false) (hu : IsUnspendable coin.out.scriptPubKey = false)
    (hspent : possible_overwrite = false → old.coin = none) :
    AddCoin v o coin possible_overwrite =
      .ok { v with
        cacheCoins := assign o ⟨some coin, true, old.fresh || (!possible_overwrite && !old.dirty)⟩ v.cacheCoins } := by
  cases possible_overwrite <;> simp [AddCoin, hold, hnull, hu, hspent]

/-- `AddCoin` of a coin that is not spent, where the caller knows that a coin
it may not overwrite is not there, succeeds and writes the coin, unless it is
unspendable. -/
theorem AddCoin_spec (hv : CacheInv B Inv v) {o : COutPoint} {coin : Coin} {possible_overwrite : Bool}
    (hnull : coin.IsSpent = false)
    (hpre : possible_overwrite = false → overlay (B.coinsOf v.base) v.cacheCoins o = none) :
    ∃ v', AddCoin v o coin possible_overwrite = .ok v' ∧ CacheInv B Inv v' ∧ v'.base = v.base ∧
      overlay (B.coinsOf v'.base) v'.cacheCoins =
        if IsUnspendable coin.out.scriptPubKey then overlay (B.coinsOf v.base) v.cacheCoins
        else Function.update (overlay (B.coinsOf v.base) v.cacheCoins) o (some coin) := by
  by_cases hu : IsUnspendable coin.out.scriptPubKey
  · exact ⟨v, by simp [AddCoin, hnull, hu], hv, rfl, by simp [hu]⟩
  have hu' : IsUnspendable coin.out.scriptPubKey = false := by simpa using hu
  have hshown : ∀ fresh, overlay (B.coinsOf v.base) (assign o ⟨some coin, true, fresh⟩ v.cacheCoins) =
      if IsUnspendable coin.out.scriptPubKey then overlay (B.coinsOf v.base) v.cacheCoins
      else Function.update (overlay (B.coinsOf v.base) v.cacheCoins) o (some coin) := fun _ => by
    rw [overlay_assign, if_neg hu]
  cases hl : v.cacheCoins.lookup o with
  | none =>
    -- no entry: a FRESH flag stands over the base's coin, which the cache shows
    have hnone : possible_overwrite = false → B.coinsOf v.base o = none := fun hp => by
      rw [← @overlay_of_lookup_none (B.coinsOf v.base) _ _ hl]
      exact hpre hp
    rw [AddCoin_of_spendable (by rw [hl, Option.getD_none]) hnull hu' fun _ => rfl]
    refine ⟨_, rfl, ⟨hv.base, hv.entries.assign ⟨fun _ => rfl, fun _ => rfl, fun hf => hnone ?_, nofun, nofun⟩⟩,
      rfl, hshown _⟩
    simpa using hf
  | some e =>
    have he := hv.entries.sound o e hl
    -- without `possible_overwrite` the cache shows no coin: the entry is spent, so DIRTY
    have hspent : possible_overwrite = false → e.coin = none := fun hp => by
      rw [← @overlay_of_lookup (B.coinsOf v.base) _ _ _ hl]
      exact hpre hp
    have hdirty : possible_overwrite = false → e.dirty = true := fun hp => by
      cases hd : e.dirty with
      | true => rfl
      | false => simpa [hspent hp] using he.clean_unspent hd
    rw [AddCoin_of_spendable (by rw [hl, Option.getD_some]) hnull hu' hspent]
    refine ⟨_, rfl, ⟨hv.base, hv.entries.assign ⟨fun _ => rfl, fun _ => rfl, fun hf => he.fresh_parent ?_,
      nofun, nofun⟩⟩, rfl, hshown _⟩
    -- so the new entry is FRESH only where the old one was
    cases possible_overwrite with
    | true => simpa using hf
    | false => simpa [hdirty rfl] using hf

/-- `SpendCoin` moves out the coin the cache shows and leaves none there. -/
theorem SpendCoin_spec (hB : LawfulBase B Inv) (hv : CacheInv B Inv v) {o : COutPoint}
    {found : Bool} {coin : Option Coin} {v' : CCoinsViewCache σ} (hs : SpendCoin B v o = (found, coin, v')) :
    CacheInv B Inv v' ∧ B.coinsOf v'.base = B.coinsOf v.base ∧
      coin = overlay (B.coinsOf v.base) v.cacheCoins o ∧
      overlay (B.coinsOf v'.base) v'.cacheCoins =
        Function.update (overlay (B.coinsOf v.base) v.cacheCoins) o none ∧
      v'.m_block_hash = v.m_block_hash := by
  rcases hf : FetchCoin B v o with ⟨_ | entry, v₁⟩ <;> simp only [SpendCoin, hf] at hs
  · -- no entry: the cache shows no coin, and nothing changes
    cases hs
    obtain ⟨hinv, hbase, -, hshown, hcoin, hhash⟩ := FetchCoin_spec hB hv hf
    refine ⟨hinv, hbase, hcoin, ?_, hhash⟩
    rw [hshown, eq_comm, Function.update_eq_self_iff]
    exact hcoin
  · obtain ⟨hinv, hbase, hl, hshown, hcoin, hhash⟩ := FetchCoin_spec hB hv hf
    have hsound := hinv.entries.sound o entry hl
    simp only [Option.bind_some] at hcoin
    by_cases hfresh : entry.fresh = true
    · -- a FRESH entry is erased: the base shows no coin there
      simp only [hfresh, if_true, Prod.mk.injEq] at hs
      obtain ⟨-, rfl, rfl⟩ := hs
      refine ⟨⟨hinv.base, hinv.entries.eraseKey o⟩, hbase, hcoin, ?_, hhash⟩
      rw [overlay_eraseKey, hsound.fresh_parent hfresh, hshown]
    · simp only [hfresh, if_false, Bool.false_eq_true, Prod.mk.injEq] at hs
      obtain ⟨-, rfl, rfl⟩ := hs
      have hsound' : (⟨none, true, false⟩ : CCoinsCacheEntry).Sound (B.coinsOf v₁.base o) :=
        ⟨fun _ => rfl, nofun, nofun, nofun, nofun⟩
      refine ⟨⟨hinv.base, hinv.entries.assign hsound'⟩, hbase, hcoin, ?_, hhash⟩
      rw [overlay_assign, hshown]

/-- `Uncache` keeps what the cache shows: a clean entry shows the base's coin. -/
theorem Uncache_spec (hv : CacheInv B Inv v) (o : COutPoint) :
    CacheInv B Inv (Uncache v o) ∧ (Uncache v o).base = v.base ∧
      overlay (B.coinsOf (Uncache v o).base) (Uncache v o).cacheCoins =
        overlay (B.coinsOf v.base) v.cacheCoins := by
  cases hl : v.cacheCoins.lookup o with
  | none =>
    simp only [Uncache, hl]
    exact ⟨hv, trivial, trivial⟩
  | some e =>
    cases hd : e.dirty with
    | true =>
      simp only [Uncache, hl, hd, Bool.not_true, Bool.false_eq_true, if_false]
      exact ⟨hv, trivial, trivial⟩
    | false =>
      simp only [Uncache, hl, hd, Bool.not_false, if_true]
      refine ⟨⟨hv.base, hv.entries.eraseKey o⟩, trivial, ?_⟩
      rw [overlay_eraseKey, ← (hv.entries.sound o e hl).clean_parent hd, ← overlay_of_lookup hl,
        Function.update_eq_self]

/-! ### `BatchWrite` of a cache -/

/-- One entry of a cursor, standing against what the cache shows, merges
without throwing, and the cache then shows it written. -/
theorem batchWriteEntry_spec {pv : COutPoint → Option Coin} {coins : List (COutPoint × CCoinsCacheEntry)}
    (h : EntriesInv pv coins) {o : COutPoint} {e : CCoinsCacheEntry} (he : e.Sound (overlay pv coins o)) :
    ∃ coins', batchWriteEntry coins (o, e) = .ok coins' ∧ EntriesInv pv coins' ∧
      overlay pv coins' = if e.dirty then Function.update (overlay pv coins) o e.coin else overlay pv coins := by
  cases hd : e.dirty with
  | false => exact ⟨coins, by simp [batchWriteEntry, hd], h, rfl⟩
  | true =>
    simp only [batchWriteEntry, hd, Bool.not_true, Bool.false_eq_true, if_false, if_true]
    cases hl : coins.lookup o with
    | none =>
      have hpv : overlay pv coins o = pv o := overlay_of_lookup_none hl
      by_cases hskip : (e.fresh && e.coin.isNone) = true
      · -- a FRESH coin spent in the child: the parent shows no coin there either
        obtain ⟨hf, hn⟩ := Bool.and_eq_true_iff.mp hskip
        have hnone : e.coin = none := Option.isNone_iff_eq_none.mp hn
        refine ⟨coins, by simp [hskip], h, ?_⟩
        rw [hnone, ← he.fresh_parent hf, Function.update_eq_self]
      · have hsound : (⟨e.coin, true, e.fresh⟩ : CCoinsCacheEntry).Sound (pv o) := by
          refine ⟨fun _ => rfl, fun hf => ?_, fun hf => hpv ▸ he.fresh_parent hf, nofun, nofun⟩
          rw [hf, Bool.true_and, Option.isNone_iff_eq_none] at hskip
          exact Option.isSome_iff_ne_none.mpr hskip
        refine ⟨_, by simp only [hskip, Bool.false_eq_true, if_false], h.cons hl hsound, ?_⟩
        rw [overlay_cons]
    | some us =>
      have hus := h.sound o us hl
      have hshown : overlay pv coins o = us.coin := overlay_of_lookup hl
      -- a FRESH child entry stands over no coin, which the parent's entry shows
      have hclash : (e.fresh && us.coin.isSome) = false := by
        cases hf : e.fresh with
        | false => rfl
        | true => simp [← hshown, he.fresh_parent hf]
      simp only [hclash, Bool.false_eq_true, if_false]
      by_cases hdrop : (us.fresh && e.coin.isNone) = true
      · -- the grandparent has no coin here: the spent coin is dropped
        obtain ⟨hf, hn⟩ := Bool.and_eq_true_iff.mp hdrop
        refine ⟨_, by simp only [hdrop, if_true], h.eraseKey o, ?_⟩
        rw [overlay_eraseKey, hus.fresh_parent hf, Option.isNone_iff_eq_none.mp hn]
      · have hsound : ({ us with coin := e.coin, dirty := true } : CCoinsCacheEntry).Sound (pv o) := by
          refine ⟨fun _ => rfl, fun hf => ?_, hus.fresh_parent, nofun, nofun⟩
          rw [hf, Bool.true_and, Option.isNone_iff_eq_none] at hdrop
          exact Option.isSome_iff_ne_none.mpr hdrop
        refine ⟨_, by simp only [hdrop, Bool.false_eq_true, if_false], h.assign hsound, ?_⟩
        rw [overlay_assign]

/-- A cursor whose entries stand against what the cache shows merges entry by
entry without throwing, and the cache then shows the cursor written. -/
theorem foldlM_batchWriteEntry {pv : COutPoint → Option Coin} :
    ∀ {cursor coins : List (COutPoint × CCoinsCacheEntry)}, KeysNodup cursor → EntriesInv pv coins →
      (∀ o e, cursor.lookup o = some e → e.Sound (overlay pv coins o)) →
      ∃ coins', cursor.foldlM batchWriteEntry coins = .ok coins' ∧ EntriesInv pv coins' ∧
        overlay pv coins' = written cursor (overlay pv coins)
  | [], coins, _, h, _ => ⟨coins, rfl, h, rfl⟩
  | (o, e) :: rest, coins, hk, h, hs => by
    obtain ⟨hko, hkr⟩ := Iff.mp keysNodup_cons hk
    obtain ⟨coins₁, h₁, hinv₁, hshown₁⟩ := batchWriteEntry_spec h (hs o e (by simp))
    -- the rest of the cursor is about other outpoints, where the cache shows what it showed
    have hs₁ : ∀ o' e', rest.lookup o' = some e' → e'.Sound (overlay pv coins₁ o') := by
      intro o' e' hl
      have hne : o' ≠ o := by
        rintro rfl
        rw [hko] at hl
        cases hl
      have hsame : overlay pv coins₁ o' = overlay pv coins o' := by
        rw [hshown₁]
        split <;> simp [hne]
      rw [hsame]
      exact hs o' e' (by rw [lookup_cons_eq, if_neg hne]; exact hl)
    obtain ⟨coins₂, h₂, hinv₂, hshown₂⟩ := foldlM_batchWriteEntry hkr hinv₁ hs₁
    refine ⟨coins₂, by simp [List.foldlM_cons, h₁, h₂], hinv₂, ?_⟩
    rw [hshown₂, hshown₁, written_cons]

/-- `BatchWrite` of a cache, of a cursor standing against what it shows, keeps
its invariant and leaves it showing the cursor written. -/
theorem BatchWrite_spec (hv : CacheInv B Inv v) {cursor : List (COutPoint × CCoinsCacheEntry)}
    (hc : EntriesInv (overlay (B.coinsOf v.base) v.cacheCoins) cursor) (in_block_hash : uint256)
    (names : CNameCache) :
    ∃ v', BatchWrite v cursor in_block_hash names = .ok v' ∧ CacheInv B Inv v' ∧ v'.base = v.base ∧
      overlay (B.coinsOf v'.base) v'.cacheCoins = written cursor (overlay (B.coinsOf v.base) v.cacheCoins) := by
  obtain ⟨coins, hfold, hinv, hshown⟩ := foldlM_batchWriteEntry hc.keys hv.entries hc.sound
  exact ⟨{ v with cacheCoins := coins, m_block_hash := in_block_hash, cacheNames := v.cacheNames.apply names },
    by simp [BatchWrite, hfold], ⟨hv.base, hinv⟩, rfl, hshown⟩

/-! ### `Flush`, `Sync` and `Reset` -/

/-- `Flush` of a cache with a block hash: the base shows what the cache showed,
and so does the cache, now empty. -/
theorem Flush_spec (hB : LawfulBase B Inv) (hv : CacheInv B Inv v) (hh : v.m_block_hash ≠ 0) :
    ∃ v', Flush B.toViewBase v = .ok v' ∧ CacheInv B Inv v' ∧
      B.coinsOf v'.base = overlay (B.coinsOf v.base) v.cacheCoins ∧
      overlay (B.coinsOf v'.base) v'.cacheCoins = overlay (B.coinsOf v.base) v.cacheCoins := by
  obtain ⟨base, hw, hinv, hcoins⟩ :=
    hB.batchWrite v.base v.cacheCoins v.m_block_hash v.cacheNames hv.base hh hv.entries
  rw [hv.entries.written_eq] at hcoins
  refine ⟨{ v with base := base, cacheCoins := [] }, ?_, ⟨hinv, entriesInv_nil _⟩, hcoins, hcoins⟩
  simp only [Flush, hh, false_and, if_false]
  simp [hw]

/-- `Sync` of a cache with a block hash: the base shows what the cache shows,
and the cache keeps showing it. -/
theorem Sync_spec (hB : LawfulBase B Inv) (hv : CacheInv B Inv v) (hh : v.m_block_hash ≠ 0) :
    ∃ v', Sync B.toViewBase v = .ok v' ∧ CacheInv B Inv v' ∧
      B.coinsOf v'.base = overlay (B.coinsOf v.base) v.cacheCoins ∧
      overlay (B.coinsOf v'.base) v'.cacheCoins = overlay (B.coinsOf v.base) v.cacheCoins := by
  obtain ⟨base, hw, hinv, hcoins⟩ :=
    hB.batchWrite v.base v.cacheCoins v.m_block_hash v.cacheNames hv.base hh hv.entries
  rw [hv.entries.written_eq] at hcoins
  refine ⟨{ v with base := base, cacheCoins := syncCoins v.cacheCoins }, by simp [Sync, hw],
    ⟨hinv, ?_⟩, hcoins, ?_⟩
  · rw [hcoins]
    exact hv.entries.syncCoins
  · rw [hcoins]
    exact overlay_syncCoins hv.entries

/-- `Reset` empties the cache, which then shows its base's coins. -/
theorem Reset_spec (hv : CacheInv B Inv v) :
    CacheInv B Inv (Reset v) ∧ (Reset v).base = v.base ∧
      overlay (B.coinsOf (Reset v).base) (Reset v).cacheCoins = B.coinsOf v.base :=
  ⟨⟨hv.base, entriesInv_nil _⟩, rfl, rfl⟩

end Ops

end CCoinsViewCache

/-! ## Caches and the database are bases -/

section Bases

variable {B : CoinsBase σ} {Inv : σ → Prop}

/-- A cache on a lawful base is a lawful base, for the caches whose entries
stand against their base: stacks of caches compose. -/
theorem LawfulBase.cache (hB : LawfulBase B Inv) : LawfulBase (cacheBase B) (CacheInv B Inv) where
  getCoin_inv v o hv := by
    show CacheInv B Inv (CCoinsViewCache.GetCoin B v o).2
    rcases hg : CCoinsViewCache.GetCoin B v o with ⟨coin, v'⟩
    exact (CCoinsViewCache.GetCoin_spec hB hv hg).1
  getCoin_coinsOf v o hv := by
    show (cacheBase B).coinsOf (CCoinsViewCache.GetCoin B v o).2 = (cacheBase B).coinsOf v
    rcases hg : CCoinsViewCache.GetCoin B v o with ⟨coin, v'⟩
    rw [coinsOf_cacheBase, coinsOf_cacheBase]
    exact (CCoinsViewCache.GetCoin_spec hB hv hg).2.2.1
  batchWrite v cursor in_block_hash names hv _ hc := by
    rw [coinsOf_cacheBase] at hc
    obtain ⟨v', hw, hinv, -, hshown⟩ := CCoinsViewCache.BatchWrite_spec hv hc in_block_hash names
    exact ⟨v', hw, hinv, by rw [coinsOf_cacheBase, coinsOf_cacheBase, hshown]⟩

end Bases

theorem coinsOf_coinsDB (view : CoinsView) : coinsDB.coinsOf view = view.coins := rfl

/-- The database writes the coins of the DIRTY entries. -/
theorem writeCoins_coins (cursor : List (COutPoint × CCoinsCacheEntry)) (view : CoinsView) :
    (writeCoins cursor view).coins = written cursor view.coins := by
  induction cursor generalizing view with
  | nil => rfl
  | cons e rest ih =>
    have hstep : (if e.2.dirty then { view with coins := Function.update view.coins e.1 e.2.coin } else view).coins =
        if e.2.dirty then Function.update view.coins e.1 e.2.coin else view.coins := by
      split <;> rfl
    exact (ih _).trans (congrArg (written rest) hstep)

/-- A fold of steps that each keep a part of the state keeps it. -/
theorem foldl_keeps {α δ γ : Type} (p : δ → γ) {f : δ → α → δ} (hf : ∀ d a, p (f d a) = p d) :
    ∀ (l : List α) (d : δ), p (l.foldl f d) = p d
  | [], _ => rfl
  | a :: l, d => (foldl_keeps p hf l (f d a)).trans (hf d a)

/-- Writing the name changes keeps the coins. -/
theorem writeNames_coins (c : CNameCache) (view : CoinsView) : (writeNames c view).coins = view.coins := by
  unfold writeNames
  -- the expire-index changes, then the histories, the deletions and the entries
  rw [foldl_keeps CoinsView.coins (fun _ _ => by split <;> rfl), foldl_keeps CoinsView.coins,
    foldl_keeps CoinsView.coins, foldl_keeps CoinsView.coins]
  all_goals
    intro _ _
    rfl

/-- The database is a lawful base: `BatchWrite` with a block hash writes the
DIRTY entries. -/
theorem lawful_coinsDB : LawfulBase coinsDB fun _ => True where
  getCoin_inv _ _ _ := trivial
  getCoin_coinsOf _ _ _ := rfl
  batchWrite view cursor in_block_hash names _ hh _ :=
    ⟨writeNames names (writeCoins cursor view), by simp [coinsDB, CCoinsViewDB, hh], trivial,
      by rw [coinsOf_coinsDB, coinsOf_coinsDB, writeNames_coins, writeCoins_coins]⟩

/-! ## Stacks of caches -/

/-- The state of a stack of `n` caches on the database. -/
def CacheStack : Nat → Type
  | 0 => CoinsView
  | n + 1 => CCoinsViewCache (CacheStack n)

/-- The top of a stack of `n` caches as a base. -/
def stackBase : (n : Nat) → CoinsBase (CacheStack n)
  | 0 => coinsDB
  | n + 1 => cacheBase (stackBase n)

/-- Every cache of the stack stands against the one below it. -/
def StackInv : (n : Nat) → CacheStack n → Prop
  | 0 => fun _ => True
  | n + 1 => CacheInv (stackBase n) (StackInv n)

/-- Every stack of caches on the database is a lawful base. -/
theorem lawful_stack : ∀ n, LawfulBase (stackBase n) (StackInv n)
  | 0 => lawful_coinsDB
  | n + 1 => (lawful_stack n).cache

/-! ## The layered flat model -/

/-- What a cache is for: the coins of its base, and its own coins, which are
the base's with the changes made since the last `Flush`, `Sync` or `Reset`. -/
structure Layered where
  parent : COutPoint → Option Coin
  top : COutPoint → Option Coin

namespace Layered

/-- An operation on flat coins: `AddCoin` and `SpendCoin` change the top,
`Flush` and `Sync` hand it down, `Reset` drops it, the rest only read. -/
def step (s : Layered) : CoinOp → Layered
  | .AddCoin outpoint coin _ =>
    if IsUnspendable coin.out.scriptPubKey then s
    else { s with top := Function.update s.top outpoint (some coin) }
  | .SpendCoin outpoint => { s with top := Function.update s.top outpoint none }
  | .Flush | .Sync => { s with parent := s.top }
  | .Reset => { s with top := s.parent }
  | .GetCoin _ | .Uncache _ | .SetBestBlock _ => s

def run : Layered → List CoinOp → Layered
  | s, [] => s
  | s, op :: ops => run (s.step op) ops

end Layered

/-! ## A cache refines the layered flat model -/

/-- The cache `v`, on a base where `Inv` holds, is the layered coins `s`. -/
structure Repr (B : CoinsBase σ) (Inv : σ → Prop) (v : CCoinsViewCache σ) (s : Layered) : Prop where
  inv : CacheInv B Inv v
  parent : B.coinsOf v.base = s.parent
  top : (cacheBase B).coinsOf v = s.top

/-- What the caller of each operation must know: that a coin it adds is not
spent and a coin it may not overwrite is not there, and that a cache it flushes
or syncs has a block hash. -/
def CoinPre (B : CoinsBase σ) (v : CCoinsViewCache σ) : CoinOp → Prop
  | .AddCoin outpoint coin possible_overwrite =>
    coin.IsSpent = false ∧ (possible_overwrite = false → (cacheBase B).coinsOf v outpoint = none)
  | .Flush | .Sync => v.m_block_hash ≠ 0
  | .GetCoin _ | .SpendCoin _ | .Uncache _ | .SetBestBlock _ | .Reset => True

/-- The callers' side along a run. -/
def CoinPreRun (B : CoinsBase σ) : CCoinsViewCache σ → List CoinOp → Prop
  | _, [] => True
  | v, op :: ops => CoinPre B v op ∧ ∀ v', CCoinsViewCache.coinStep B v op = .ok v' → CoinPreRun B v' ops

section Refinement

variable {B : CoinsBase σ} {Inv : σ → Prop}

/-- The callers' side along a run whose first operation succeeds at `v₁`. -/
theorem CoinPreRun.cons {v v₁ : CCoinsViewCache σ} {op : CoinOp} {ops : List CoinOp} (hp : CoinPre B v op)
    (hstep : CCoinsViewCache.coinStep B v op = .ok v₁) (hrest : CoinPreRun B v₁ ops) :
    CoinPreRun B v (op :: ops) :=
  ⟨hp, fun v' h => by
    rw [hstep] at h
    cases h
    exact hrest⟩

/-- An empty cache on a base where the invariant holds. -/
theorem cacheInv_empty {base : σ} (hbase : Inv base) (m_block_hash : uint256) (cacheNames : CNameCache) :
    CacheInv B Inv ⟨base, m_block_hash, [], cacheNames⟩ :=
  ⟨hbase, entriesInv_nil _⟩

/-- One operation, under its caller's side, does not throw, and moves the cache
as it moves the layered flat coins. -/
theorem coinStep_repr (hB : LawfulBase B Inv) {v : CCoinsViewCache σ} {s : Layered} (h : Repr B Inv v s)
    {op : CoinOp} (hp : CoinPre B v op) :
    ∃ v', CCoinsViewCache.coinStep B v op = .ok v' ∧ Repr B Inv v' (s.step op) := by
  obtain ⟨hv, hpar, htop⟩ := h
  rw [coinsOf_cacheBase] at htop
  cases op with
  | GetCoin o =>
    rcases hg : CCoinsViewCache.GetCoin B v o with ⟨coin, v'⟩
    obtain ⟨hinv, hbase, hshown, -, -⟩ := CCoinsViewCache.GetCoin_spec hB hv hg
    refine ⟨v', by simp [CCoinsViewCache.coinStep, hg], hinv, hbase.trans hpar, ?_⟩
    rw [coinsOf_cacheBase, hshown, htop]
    rfl
  | AddCoin o coin possible_overwrite =>
    have hpre : possible_overwrite = false → overlay (B.coinsOf v.base) v.cacheCoins o = none := by
      rw [← coinsOf_cacheBase]
      exact hp.2
    obtain ⟨v', hadd, hinv, hbase, hshown⟩ := CCoinsViewCache.AddCoin_spec hv hp.1 hpre
    refine ⟨v', hadd, hinv, ?_, ?_⟩
    · rw [hbase, hpar]
      simp only [Layered.step]
      split <;> rfl
    · rw [coinsOf_cacheBase, hshown, htop]
      simp only [Layered.step]
      split <;> rfl
  | SpendCoin o =>
    rcases hs : CCoinsViewCache.SpendCoin B v o with ⟨found, coin, v'⟩
    obtain ⟨hinv, hbase, -, hshown, -⟩ := CCoinsViewCache.SpendCoin_spec hB hv hs
    refine ⟨v', by simp [CCoinsViewCache.coinStep, hs], hinv, hbase.trans hpar, ?_⟩
    rw [coinsOf_cacheBase, hshown, htop]
    rfl
  | Uncache o =>
    obtain ⟨hinv, hbase, hshown⟩ := CCoinsViewCache.Uncache_spec hv o
    refine ⟨_, rfl, hinv, by rw [hbase, hpar]; rfl, ?_⟩
    rw [coinsOf_cacheBase, hshown, htop]
    rfl
  | SetBestBlock in_block_hash =>
    refine ⟨_, rfl, ⟨hv.base, hv.entries⟩, hpar, ?_⟩
    rw [coinsOf_cacheBase]
    exact htop
  | Flush =>
    obtain ⟨v', hflush, hinv, hbase, hshown⟩ := CCoinsViewCache.Flush_spec hB hv hp
    refine ⟨v', hflush, hinv, by rw [hbase, htop]; rfl, ?_⟩
    rw [coinsOf_cacheBase, hshown, htop]
    rfl
  | Sync =>
    obtain ⟨v', hsync, hinv, hbase, hshown⟩ := CCoinsViewCache.Sync_spec hB hv hp
    refine ⟨v', hsync, hinv, by rw [hbase, htop]; rfl, ?_⟩
    rw [coinsOf_cacheBase, hshown, htop]
    rfl
  | Reset =>
    obtain ⟨hinv, hbase, hshown⟩ := CCoinsViewCache.Reset_spec hv
    refine ⟨_, rfl, hinv, by rw [hbase, hpar]; rfl, ?_⟩
    rw [coinsOf_cacheBase, hshown, hpar]
    rfl

/-- A run whose callers keep their side does not throw, and leaves the cache
showing the layered flat coins the same run gives. -/
theorem coinRun_repr (hB : LawfulBase B Inv) :
    ∀ (ops : List CoinOp) {v : CCoinsViewCache σ} {s : Layered}, Repr B Inv v s → CoinPreRun B v ops →
      ∃ v', CCoinsViewCache.coinRun B v ops = .ok v' ∧ Repr B Inv v' (s.run ops)
  | [], v, _, h, _ => ⟨v, rfl, h⟩
  | op :: ops, _, _, h, ⟨hp, hrest⟩ => by
    obtain ⟨v₁, hstep, h₁⟩ := coinStep_repr hB h hp
    obtain ⟨v', hrun, h'⟩ := coinRun_repr hB ops h₁ (hrest v₁ hstep)
    exact ⟨v', by simp [CCoinsViewCache.coinRun, hstep, hrun], h'⟩

end Refinement

/-- A cache on a stack of any number of caches on the database: along every run
whose callers keep their side no operation throws, and the cache and the stack
below it show the coins of the layered flat model after the same run. -/
theorem coinRun_stack (n : Nat) {v : CCoinsViewCache (CacheStack n)}
    (hv : CacheInv (stackBase n) (StackInv n) v) (ops : List CoinOp) (hp : CoinPreRun (stackBase n) v ops) :
    ∃ v', CCoinsViewCache.coinRun (stackBase n) v ops = .ok v' ∧
      Repr (stackBase n) (StackInv n) v'
        ((⟨(stackBase n).coinsOf v.base, (cacheBase (stackBase n)).coinsOf v⟩ : Layered).run ops) :=
  coinRun_repr (lawful_stack n) ops ⟨hv, rfl, rfl⟩ hp

/-- Two empty caches on the database. -/
def twoCaches : CCoinsViewCache (CacheStack 1) := ⟨freshCache, 1, [], CNameCache.clear⟩

/-- A run on the top of `twoCaches`: two coins are added and the second,
FRESH, is spent and dropped; after a flush the first is read from below, spent,
and added again, not FRESH, since its spending is DIRTY; after a sync it is
uncached, the second outpoint is overwritten, and the cache is reset. -/
def reorgOps : List CoinOp :=
  [.AddCoin ⟨7, 0⟩ ⟨⟨50, [0x76, 0xa9]⟩, 1, false⟩ false, .AddCoin ⟨7, 1⟩ ⟨⟨20, [0x76, 0xa9]⟩, 1, false⟩ false,
    .SpendCoin ⟨7, 1⟩, .Flush, .GetCoin ⟨7, 0⟩, .SpendCoin ⟨7, 0⟩,
    .AddCoin ⟨7, 0⟩ ⟨⟨50, [0x76, 0xa9]⟩, 2, false⟩ false, .Sync, .Uncache ⟨7, 0⟩,
    .AddCoin ⟨7, 1⟩ ⟨⟨30, [0x76, 0xa9]⟩, 2, false⟩ true, .Reset]

theorem coinRun_stack_reorg :
    CacheInv (stackBase 1) (StackInv 1) twoCaches ∧ CoinPreRun (stackBase 1) twoCaches reorgOps ∧
      (∃ v', CCoinsViewCache.coinRun (stackBase 1) twoCaches reorgOps = .ok v' ∧
        Repr (stackBase 1) (StackInv 1) v'
          ((⟨(stackBase 1).coinsOf twoCaches.base, (cacheBase (stackBase 1)).coinsOf twoCaches⟩ : Layered).run
            reorgOps)) ∧
      ((⟨(stackBase 1).coinsOf twoCaches.base, (cacheBase (stackBase 1)).coinsOf twoCaches⟩ : Layered).run
        reorgOps).parent ⟨7, 0⟩ = some ⟨⟨50, [0x76, 0xa9]⟩, 2, false⟩ := by
  have hv : CacheInv (stackBase 1) (StackInv 1) twoCaches :=
    cacheInv_empty (cacheInv_empty trivial 1 CNameCache.clear) 1 CNameCache.clear
  -- each operation's caller side, at the cache the run has reached
  have hp : CoinPreRun (stackBase 1) twoCaches reorgOps :=
    .cons ⟨rfl, fun _ => rfl⟩ rfl <| .cons ⟨rfl, fun _ => rfl⟩ rfl <| .cons trivial rfl <|
      .cons (show _ ≠ (0 : uint256) by decide) rfl <| .cons trivial rfl <| .cons trivial rfl <|
      .cons ⟨rfl, fun _ => rfl⟩ rfl <|
      .cons (show _ ≠ (0 : uint256) by decide) rfl <| .cons trivial rfl <| .cons ⟨rfl, nofun⟩ rfl <|
      .cons trivial rfl trivial
  exact ⟨hv, hp, coinRun_stack 1 hv _ hp, rfl⟩

end Namecoin.Names
