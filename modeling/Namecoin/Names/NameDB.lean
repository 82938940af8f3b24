import Namecoin.Names.Connect

/-! # What `ValidateNameDB` checks, after every chain the node connects

`CCoinsViewDB::ValidateNameDB` (txdb.cpp) compares the name database with the
UTXO set at the tip height `nHeight`. Each name is in the expire index once, at
the height of its data; the names unexpired at `nHeight + 1` are those that own
a coin with an update script, and no name owns two such coins; history is kept
only with `-namehistory`, and only for names in the database. `ValidNameDB`
states these, and that an unexpired name's update outpoint is that coin.

They follow from the invariant `Consistent` at `nHeight + 1`
(`Consistent.validNameDB`), so they hold after every chain of blocks from
height 1 that the node connects under `ChainAssumptions`, and the assertions of
`CheckNameTransaction` cannot fail on the state it leaves. A coinbase with name
outputs breaks them: the node checks no name script of a coinbase, so two
outputs of one name both enter the UTXO set, and spending the first fails an
`assert` of `CheckNameTransaction` (`connectBlocks_nameCoinbase_invalid`). -/

namespace Namecoin.Names
open Namecoin.Script Lib.ExceptM

/-- What `ValidateNameDB` accepts of the state at tip height `nHeight`, with the
update outpoint of every unexpired name. -/
structure ValidNameDB (rules : ConsensusRules) (fNameHistory : Bool) (nHeight : Nat)
    (view : CoinsView) : Prop where
  expireIndex : ∀ h name, name ∈ view.GetNamesForHeight h ↔
    ∃ d, view.GetName name = some d ∧ d.nHeight = h
  unexpired_iff_coin : ∀ name,
    (∃ d, view.GetName name = some d ∧ d.isExpired rules (nHeight + 1) = false) ↔
      ∃ o c, view.GetCoin o = some c ∧ updatedName c.out.scriptPubKey = some name
  coin_unique : ∀ o o' c c' name, view.GetCoin o = some c → view.GetCoin o' = some c' →
    updatedName c.out.scriptPubKey = some name → updatedName c'.out.scriptPubKey = some name →
    o = o'
  updateOutpoint : ∀ name d, view.GetName name = some d →
    d.isExpired rules (nHeight + 1) = false →
    ∃ c, view.GetCoin d.prevout = some c ∧ updatedName c.out.scriptPubKey = some name
  history : ∀ name, view.GetNameHistory name ≠ [] →
    fNameHistory = true ∧ ∃ d, view.GetName name = some d

/-- The invariant at `nHeight + 1` gives what `ValidateNameDB` checks at tip
height `nHeight`. -/
theorem Consistent.validNameDB {rules : ConsensusRules} {fNameHistory : Bool} {nHeight : Nat}
    {seen : List uint256} {view : CoinsView}
    (hinv : Consistent rules fNameHistory (nHeight + 1) seen view) :
    ValidNameDB rules fNameHistory nHeight view where
  expireIndex := hinv.expireIndex
  unexpired_iff_coin name := by
    constructor
    · rintro ⟨d, hd, hexp⟩
      obtain ⟨c, hc, hn, -⟩ := hinv.coinOfName name d hd hexp
      exact ⟨d.prevout, c, hc, hn⟩
    · rintro ⟨o, c, hc, hn⟩
      obtain ⟨d, hd, -, hexp⟩ := hinv.nameOfCoin o c name hc hn
      exact ⟨d, hd, hexp⟩
  coin_unique o o' c c' name hc hc' hn hn' := by
    -- both coins are the one outpoint the database names
    obtain ⟨d, hd, rfl, -⟩ := hinv.nameOfCoin o c name hc hn
    obtain ⟨d', hd', rfl, -⟩ := hinv.nameOfCoin o' c' name hc' hn'
    rw [hd] at hd'
    cases hd'
    rfl
  updateOutpoint name d hd hexp := by
    obtain ⟨c, hc, hn, -⟩ := hinv.coinOfName name d hd hexp
    exact ⟨c, hc, hn⟩
  history := hinv.historyName

/-- A chain of blocks at heights `1, ..., n`, connected from the empty state,
is rejected, or ends in a state that `ValidateNameDB` accepts and on which no
assertion of `CheckNameTransaction` at `n + 1` fails; no assertion fails and
`ExpireNames` never fails on the way. -/
theorem connectBlocks_validNameDB {params : CChainParams} (hr : ExpiryRules params.rules)
    {Hash160 : valtype → valtype} {fNameHistory : Bool} {flags : NameFlags}
    {blocks : List (List CTransaction)} (hc : ChainAssumptions params 1 blocks) :
    Post Rejection (fun view => ValidNameDB params.rules fNameHistory blocks.length view ∧
        ∀ (Hash160' : valtype → valtype) (tx : CTransaction) (flags' : NameFlags),
          CheckNameTransaction params Hash160' tx (blocks.length + 1) view flags' ≠ .error .assertion)
      (connectBlocks params Hash160 fNameHistory flags 1 CoinsView.empty blocks) := by
  have hrun : Post Rejection (fun view => ∃ seen, Consistent params.rules fNameHistory
        (1 + blocks.length) seen view)
      (connectBlocks params Hash160 fNameHistory flags 1 CoinsView.empty blocks) :=
    Consistent.connectBlocks hr hc (fun _ _ h => List.not_mem_nil h) consistent_empty
  refine hrun.imp ?_
  rintro view ⟨seen, hinv⟩
  rw [Nat.add_comm] at hinv
  have hH : blocks.length + 1 < MEMPOOL_HEIGHT := by
    have := hc.height
    omega
  exact ⟨hinv.validNameDB, fun _ _ _ => hinv.checkName_ne_assertion hH⟩

/-- `NAME_UPDATE` of the name `a` to the value `b`, paid to a truncated address. -/
def updateScript : CScript := [0x53, 0x01, 0x61, 0x01, 0x62, 0x6d, 0x75, 0x76, 0xa9]

/-- The coinbase of the block at height `h`, without name scripts. -/
def coinbaseAt (h : Nat) : CTransaction := ⟨1000 + h, 1, [⟨⟨0, NULL_INDEX⟩⟩], [⟨50 * COIN, [0x76, 0xa9]⟩]⟩

/-- The salt of the registration of `a`: with `Hash160` the identity, the
`NAME_NEW` hash is the salt followed by the name. -/
def nameRand : valtype := List.replicate 19 0x72

/-- `NAME_NEW` of `a`, spending the coinbase of block 1 once it is mature. -/
def nameNewTx : CTransaction :=
  ⟨201, NAMECOIN_VERSION, [⟨⟨1001, 0⟩⟩], [⟨COIN / 100, [0x51, 0x14] ++ nameRand ++ [0x61, 0x6d, 0x76, 0xa9]⟩]⟩

/-- `NAME_FIRSTUPDATE` of `a` to the value `v`. -/
def firstUpdateTx : CTransaction :=
  ⟨202, NAMECOIN_VERSION, [⟨⟨201, 0⟩⟩],
    [⟨COIN / 100, [0x52, 0x01, 0x61, 0x13] ++ nameRand ++ [0x01, 0x76, 0x6d, 0x6d, 0x76, 0xa9]⟩]⟩

/-- `NAME_UPDATE` of `a` to the value `b`. -/
def nameUpdateTx : CTransaction := ⟨203, NAMECOIN_VERSION, [⟨⟨202, 0⟩⟩], [⟨COIN / 100, updateScript⟩]⟩

/-- The name transactions of the block at height `h` of `nameChain`. -/
def nameTxsAt (h : Nat) : List CTransaction :=
  if h = 101 then [nameNewTx] else if h = 113 then [firstUpdateTx] else if h = 114 then [nameUpdateTx]
  else []

/-- 114 blocks: `a` is registered at 101, once the first coinbase is mature,
first updated twelve blocks later, at 113, and updated at 114. -/
def nameChain : List (List CTransaction) := (List.range' 1 114).map fun h => coinbaseAt h :: nameTxsAt h

set_option maxRecDepth 2000 in
theorem connectBlocks_validNameDB_nameChain :
    ChainAssumptions mainParams 1 nameChain ∧
      Post Rejection (fun view => ValidNameDB mainParams.rules false nameChain.length view ∧
          ∀ (Hash160' : valtype → valtype) (tx : CTransaction) (flags' : NameFlags),
            CheckNameTransaction mainParams Hash160' tx (nameChain.length + 1) view flags' ≠ .error .assertion)
        (connectBlocks mainParams id false ⟨false, false⟩ 1 CoinsView.empty nameChain) ∧
      (connectBlocks mainParams id false ⟨false, false⟩ 1 CoinsView.empty nameChain).toOption.map
        (fun view => view.GetName [0x61]) = some (some ⟨[0x62], 114, ⟨203, 0⟩, [0x76, 0xa9]⟩) := by
  -- the chain assumptions and the final name are read off 114 blocks
  have hc : ChainAssumptions mainParams 1 nameChain := by decide +kernel
  exact ⟨hc, connectBlocks_validNameDB mainNet_expiryRules hc, by decide +kernel⟩

/-- A coinbase that updates the name `a` twice. -/
def nameCoinbase : CTransaction :=
  ⟨7, NAMECOIN_VERSION, [⟨⟨0, NULL_INDEX⟩⟩], [⟨0, updateScript⟩, ⟨0, updateScript⟩]⟩

/-- A `NAME_UPDATE` of `a` that spends the first output of `nameCoinbase`. -/
def spendFirstNameCoin : CTransaction := ⟨9, NAMECOIN_VERSION, [⟨⟨7, 0⟩⟩], [⟨COIN / 100, updateScript⟩]⟩

/-- The block of `nameCoinbase` is connected, and leaves two coins of the name
`a`, which `ValidateNameDB` rejects. A `NAME_UPDATE` in the next block that
spends the first of them fails the `assert` of `CheckNameTransaction` that the
name input is the update outpoint of the name. -/
theorem connectBlocks_nameCoinbase_invalid :
    (∃ view, connectBlocks mainParams id false ⟨false, false⟩ 1 CoinsView.empty [[nameCoinbase]] =
        .ok view ∧ ¬ ValidNameDB mainParams.rules false 1 view) ∧
      connectBlocks mainParams id false ⟨false, false⟩ 1 CoinsView.empty
        [[nameCoinbase], [coinbaseAt 2, spendFirstNameCoin]] = .error .assertion := by
  refine ⟨?_, rfl⟩
  -- both outputs enter the UTXO set
  have hcoins : (connectBlocks mainParams id false ⟨false, false⟩ 1 CoinsView.empty
      [[nameCoinbase]]).toOption.map (fun view => (view.GetCoin ⟨7, 0⟩, view.GetCoin ⟨7, 1⟩)) =
      some (some ⟨⟨0, updateScript⟩, 1, true⟩, some ⟨⟨0, updateScript⟩, 1, true⟩) := by
    decide
  cases hrun : connectBlocks mainParams id false ⟨false, false⟩ 1 CoinsView.empty [[nameCoinbase]] with
  | error e =>
    rw [hrun] at hcoins
    cases hcoins
  | ok view =>
    rw [hrun] at hcoins
    simp only [Except.toOption, Option.map_some, Option.some.injEq, Prod.mk.injEq] at hcoins
    refine ⟨view, rfl, fun hvalid => ?_⟩
    have hname : updatedName updateScript = some [0x61] := by decide
    have := hvalid.coin_unique _ _ _ _ _ hcoins.1 hcoins.2 hname hname
    simp at this

end Namecoin.Names
