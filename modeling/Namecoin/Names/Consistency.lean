import Namecoin.Names.ApplySpec

/-! # The name database agrees with the coins

`Consistent rules fNameHistory H seen view` is the invariant of the chain
state between two transactions of a block at height `H` (and, once a block at
height `n` is connected and its expiry done, for `H = n + 1`); `seen` holds
the txids connected so far. The name database, its expire index and the
unspent name coins describe one another:

* the expire index lists each name at the height of its data;
* a name that is not expired at `H` has its coin at its update outpoint, with
  the same height, and every coin holding an update of a name is that coin;
* every stored height is at most `H`, a `NAME_NEW` coin holds a 20-byte hash,
  and the history only grows under names of the database.

From this state `CheckNameTransaction` never stops on an `assert`
(`Consistent.checkName_ne_assertion`). A transaction keeps the invariant: one
that touches no name coin (`Consistent.coins_step`), and one that updates
a name (`Consistent.name_step`); so does the expiry at the end of a block
(`Consistent.expireNames`). -/

namespace Namecoin.Names
open Namecoin.Script Lib.ExceptM

structure Consistent (rules : ConsensusRules) (fNameHistory : Bool) (H : Nat)
    (seen : List uint256) (view : CoinsView) : Prop where
  expireIndex : ∀ h name, name ∈ view.expireIndex h ↔
    ∃ d, view.names name = some d ∧ d.nHeight = h
  coinOfName : ∀ name d, view.names name = some d → d.isExpired rules H = false →
    ∃ c, view.coins d.prevout = some c ∧ updatedName c.out.scriptPubKey = some name ∧
      c.nHeight = d.nHeight
  nameOfCoin : ∀ o c name, view.coins o = some c → updatedName c.out.scriptPubKey = some name →
    ∃ d, view.names name = some d ∧ d.prevout = o ∧ d.isExpired rules H = false
  coinHeight : ∀ o c, view.coins o = some c → c.nHeight ≤ H
  nameHeight : ∀ name d, view.names name = some d → d.nHeight ≤ H
  newHash : ∀ o c, view.coins o = some c →
    (CNameScript.ofScript c.out.scriptPubKey).op = .OP_NAME_NEW →
    (CNameScript.ofScript c.out.scriptPubKey).getOpHash.length = 20
  historyTop : ∀ name d, view.names name = some d →
    (view.history name).getLast?.all (·.nHeight ≤ d.nHeight) = true
  historyName : ∀ name, view.history name ≠ [] →
    fNameHistory = true ∧ ∃ d, view.names name = some d
  txids : ∀ o c, view.coins o = some c → o.hash ∈ seen
  special : ∀ name d, view.names name = some d → expiresAt rules d.nHeight 175868 →
    IsStringValidAscii name = true ∧ name ≠ postmortem

theorem consistent_empty {rules fNameHistory H} :
    Consistent rules fNameHistory H [] CoinsView.empty where
  expireIndex := by simp [CoinsView.empty]
  coinOfName := by simp [CoinsView.empty]
  nameOfCoin := by simp [CoinsView.empty]
  coinHeight := by simp [CoinsView.empty]
  nameHeight := by simp [CoinsView.empty]
  newHash := by simp [CoinsView.empty]
  historyTop := by simp [CoinsView.empty]
  historyName := by simp [CoinsView.empty]
  txids := by simp [CoinsView.empty]
  special := by simp [CoinsView.empty]

section Invariant

variable {rules : ConsensusRules} {fNameHistory : Bool} {H : Nat} {seen : List uint256}
  {view : CoinsView}

theorem Consistent.no_coin_of_fresh (hinv : Consistent rules fNameHistory H seen view)
    {txid : uint256} (hfresh : txid ∉ seen) (n : Nat) : view.coins ⟨txid, n⟩ = none := by
  cases hc : view.coins ⟨txid, n⟩ with
  | none => rfl
  | some c => exact absurd (hinv.txids _ c hc) hfresh

/-- The coin of an update is the coin the database names for it. -/
theorem Consistent.coin_eq_of_update (hinv : Consistent rules fNameHistory H seen view)
    {o : COutPoint} {c : Coin} {name : valtype} (hc : view.coins o = some c)
    (hname : updatedName c.out.scriptPubKey = some name) :
    ∃ d, view.names name = some d ∧ d.prevout = o ∧ d.isExpired rules H = false ∧
      c.nHeight = d.nHeight := by
  obtain ⟨d, hd, hpo, hexp⟩ := hinv.nameOfCoin o c name hc hname
  obtain ⟨c', hc', -, hh⟩ := hinv.coinOfName name d hd hexp
  rw [hpo, hc] at hc'
  cases hc'
  exact ⟨d, hd, hpo, hexp, hh⟩

/-- On a consistent state below `MEMPOOL_HEIGHT`, none of the `assert`s of
`CheckNameTransaction` fails. -/
theorem Consistent.checkName_ne_assertion {params : CChainParams} {Hash160 tx flags}
    (hinv : Consistent params.rules fNameHistory H seen view) (hH : H < MEMPOOL_HEIGHT) :
    CheckNameTransaction params Hash160 tx H view flags ≠ .error .assertion := by
  intro h
  obtain ⟨nOut, op, nIn, opIn, coinIn, -, hin, hcases⟩ := CheckNameTransaction_assertion h
  -- the name input is a coin of the view, at input `nIn`
  obtain ⟨j, txin, coin, hj, hcoin, hn, heq⟩ := Iff.mp mem_nameInputs (hin ▸ List.mem_singleton_self _)
  simp only [Nat.zero_add, Prod.mk.injEq] at heq
  obtain ⟨rfl, rfl, rfl⟩ := heq
  have hlt := lt_of_le_of_lt (hinv.coinHeight _ _ hcoin) hH
  rcases hcases with ⟨-, hup, hname, -, oldName, hold, -, hbad⟩ | ⟨hnew, hbad⟩
  · -- `NAME_UPDATE`: the database entry is the one of the input coin
    have hupd : updatedName coinIn.out.scriptPubKey = some op.getOpName := by
      rw [updatedName_eq_some]
      exact ⟨hn, hup, hname.symm⟩
    obtain ⟨d, hd, hpo, -, hh⟩ := hinv.coin_eq_of_update hcoin hupd
    rw [CoinsView.GetName, hd] at hold
    cases hold
    have hvin : tx.vin.getD nIn ⟨⟨0, NULL_INDEX⟩⟩ = txin := by
      rw [List.getD_eq_getElem?_getD, hj]
      rfl
    rcases hbad with hbad | hbad
    · exact hbad hh
    · exact hbad (by rw [hvin, hpo])
  · -- `NAME_FIRSTUPDATE`: the `NAME_NEW` coin is no pending one and its hash has 20 bytes
    rcases hbad with ⟨-, hbad⟩ | hbad
    · omega
    · exact hbad (hinv.newHash _ _ hcoin hnew)

/-- Expiry at `H` implies expiry at `H + 1`: the expiry height never goes back. -/
theorem isExpired_succ (hr : ExpiryRules rules) {x : Nat}
    (h : isExpired rules x H = true) : isExpired rules x (H + 1) = true := by
  have hstep := hr.depth_step H
  unfold isExpired at h ⊢
  split at h
  · cases h
  · rename_i hx
    simp only [hx, if_false, decide_eq_true_eq] at h ⊢
    omega

/-- Data written at `H` is not expired at `H`. -/
theorem isExpired_self (hr : ExpiryRules rules) (H : Nat) : isExpired rules H H = false := by
  have hpos := hr.depth_pos H
  unfold isExpired
  split
  · rfl
  · simp only [decide_eq_false_iff_not]
    omega

/-! ## A transaction -/

variable {tx : CTransaction}

/-- A transaction that spends and creates no coin of a name update, and whose
`NAME_NEW` outputs hold 20-byte hashes, keeps the invariant. -/
theorem Consistent.coins_step (hinv : Consistent rules fNameHistory H seen view)
    (hfresh : tx.GetHash ∉ seen)
    (hspent : ∀ o c, spends tx o → view.coins o = some c → updatedName c.out.scriptPubKey = none)
    (hout : ∀ (j : Nat) (txout : CTxOut), tx.vout[j]? = some txout →
      updatedName txout.scriptPubKey = none)
    (hnew : ∀ (j : Nat) (txout : CTxOut), tx.vout[j]? = some txout →
      (CNameScript.ofScript txout.scriptPubKey).op = .OP_NAME_NEW →
      (CNameScript.ofScript txout.scriptPubKey).getOpHash.length = 20) :
    Consistent rules fNameHistory H (tx.GetHash :: seen)
      { view with coins := updatedCoins tx H view.coins } := by
  have hnone := hinv.no_coin_of_fresh hfresh
  refine
    { expireIndex := hinv.expireIndex
      coinOfName := ?_
      nameOfCoin := ?_
      coinHeight := ?_
      nameHeight := hinv.nameHeight
      newHash := ?_
      historyTop := hinv.historyTop
      historyName := hinv.historyName
      txids := ?_
      special := hinv.special }
  · intro name d hd hexp
    obtain ⟨c, hc, hname, hh⟩ := hinv.coinOfName name d hd hexp
    -- the coin is no input: inputs hold no update
    have hs : ¬spends tx d.prevout := fun hs => by
      rw [hspent _ _ hs hc] at hname
      cases hname
    exact ⟨c, updatedCoins_of_not_spends hnone hc hs, hname, hh⟩
  · intro o c name hc hname
    rcases (updatedCoins_eq_some hnone).mp hc with ⟨-, txout, hv, -, rfl⟩ | ⟨-, hc'⟩
    · rw [hout _ _ hv] at hname
      cases hname
    · exact hinv.nameOfCoin o c name hc' hname
  · intro o c hc
    rcases (updatedCoins_eq_some hnone).mp hc with ⟨-, txout, -, -, rfl⟩ | ⟨-, hc'⟩
    · exact le_rfl
    · exact hinv.coinHeight o c hc'
  · intro o c hc
    rcases (updatedCoins_eq_some hnone).mp hc with ⟨-, txout, hv, -, rfl⟩ | ⟨-, hc'⟩
    · exact hnew _ _ hv
    · exact hinv.newHash o c hc'
  · intro o c hc
    rcases (updatedCoins_eq_some hnone).mp hc with ⟨ho, -⟩ | ⟨-, hc'⟩
    · exact ho ▸ List.mem_cons_self ..
    · exact List.mem_cons_of_mem _ (hinv.txids o c hc')

/-- A transaction whose one name coin is output `k`, an update of `name`,
keeps the invariant once `SetName` has written `data` for it: every update
coin it spends is one of `name`, and it spends the coin of `name` unless that
one has expired. The view `view'` is given by what `SetName_spec` says of it. -/
theorem Consistent.name_step (hr : ExpiryRules rules)
    (hinv : Consistent rules fNameHistory H seen view) (hfresh : tx.GetHash ∉ seen)
    {k : Nat} {txout : CTxOut} {name : valtype} {data : CNameData} {view' : CoinsView}
    (hk : tx.vout[k]? = some txout) (hname : updatedName txout.scriptPubKey = some name)
    (hsize : IsUnspendable txout.scriptPubKey = false)
    (hother : ∀ (j : Nat) (txout' : CTxOut), tx.vout[j]? = some txout' → j ≠ k →
      (CNameScript.ofScript txout'.scriptPubKey).isNameOp = false)
    (hspent : ∀ o c name', spends tx o → view.coins o = some c →
      updatedName c.out.scriptPubKey = some name' → name' = name)
    (hold : ∀ old, view.names name = some old → old.isExpired rules H = false →
      spends tx old.prevout)
    (hspecial : expiresAt rules H 175868 → IsStringValidAscii name = true ∧ name ≠ postmortem)
    (hdh : data.nHeight = H) (hdpo : data.prevout = ⟨tx.GetHash, k⟩)
    (hcoins : view'.coins = updatedCoins tx H view.coins)
    (hnames : view'.names = Function.update view.names name (some data))
    (hidx : ∀ h n, n ∈ view'.expireIndex h ↔ (h = data.nHeight ∧ n = name) ∨
      (n ∈ view.expireIndex h ∧ ¬(n = name ∧ ∃ old, view.names name = some old ∧ h = old.nHeight)))
    (hhist : ∀ n, view'.history n = if fNameHistory = true ∧ n = name then
      view.history name ++ (view.names name).toList else view.history n) :
    Consistent rules fNameHistory H (tx.GetHash :: seen) view' := by
  have hnone := hinv.no_coin_of_fresh hfresh
  -- the coin of the new data
  have hnewcoin : view'.coins data.prevout = some ⟨txout, H, tx.IsCoinBase⟩ := by
    rw [hcoins, hdpo]
    exact (updatedCoins_eq_some hnone).mpr (.inl ⟨rfl, txout, hk, hsize, rfl⟩)
  have hnames' : ∀ n, n ≠ name → view'.names n = view.names n := fun n hn => by
    rw [hnames, Function.update_of_ne hn]
  -- the history of a name not in the database is empty, and so is any without `-namehistory`
  have hhist_nil : ∀ n, view.names n = none ∨ fNameHistory = false → view.history n = [] := by
    intro n hn
    by_contra hne
    obtain ⟨hf, d, hd⟩ := hinv.historyName n hne
    rcases hn with hn | hn
    · rw [hn] at hd
      cases hd
    · rw [hn] at hf
      cases hf
  refine
    { expireIndex := ?_
      coinOfName := ?_
      nameOfCoin := ?_
      coinHeight := ?_
      nameHeight := ?_
      newHash := ?_
      historyTop := ?_
      historyName := ?_
      txids := ?_
      special := ?_ }
  · -- the index moves `name` to `H`
    intro h n
    rw [hidx]
    by_cases hn : n = name
    · subst hn
      rw [hnames, Function.update_self]
      constructor
      · rintro (⟨rfl, -⟩ | ⟨hmem, hno⟩)
        · exact ⟨data, rfl, rfl⟩
        · obtain ⟨d, hd, rfl⟩ := (hinv.expireIndex h n).mp hmem
          exact absurd ⟨rfl, d, hd, rfl⟩ hno
      · rintro ⟨d, hd, rfl⟩
        cases hd
        exact .inl ⟨rfl, rfl⟩
    · rw [hnames' n hn, ← hinv.expireIndex h n]
      simp [hn]
  · intro n d hd hexp
    by_cases hn : n = name
    · subst hn
      rw [hnames, Function.update_self] at hd
      cases hd
      exact ⟨_, hnewcoin, hname, hdh.symm⟩
    · rw [hnames' n hn] at hd
      obtain ⟨c, hc, hcn, hh⟩ := hinv.coinOfName n d hd hexp
      have hs : ¬spends tx d.prevout := fun hs => hn (hspent _ _ _ hs hc hcn)
      exact ⟨c, hcoins ▸ updatedCoins_of_not_spends hnone hc hs, hcn, hh⟩
  · intro o c n hc hcn
    rw [hcoins] at hc
    rcases (updatedCoins_eq_some hnone).mp hc with ⟨ho, txout', hv, -, rfl⟩ | ⟨hs, hc'⟩
    · -- a new coin: only output `k` holds an update
      by_cases hok : o.n = k
      · rw [hok, hk] at hv
        cases hv
        rw [hname] at hcn
        cases hcn
        refine ⟨data, by rw [hnames, Function.update_self], ?_, by
          rw [CNameData.isExpired, hdh]
          exact isExpired_self hr H⟩
        obtain ⟨hash, m⟩ := o
        simp only at ho hok
        rw [hdpo, ho, hok]
      · have hno := hother _ _ hv hok
        simp [updatedName, hno] at hcn
    · obtain ⟨d, hd, hpo, hexp⟩ := hinv.nameOfCoin o c n hc' hcn
      by_cases hn : n = name
      · subst hn
        exact absurd (hpo ▸ hold d hd hexp) hs
      · exact ⟨d, by rw [hnames' n hn, hd], hpo, hexp⟩
  · intro o c hc
    rw [hcoins] at hc
    rcases (updatedCoins_eq_some hnone).mp hc with ⟨-, -, -, -, rfl⟩ | ⟨-, hc'⟩
    · exact le_rfl
    · exact hinv.coinHeight o c hc'
  · intro n d hd
    by_cases hn : n = name
    · subst hn
      rw [hnames, Function.update_self] at hd
      cases hd
      exact hdh.le
    · rw [hnames' n hn] at hd
      exact hinv.nameHeight n d hd
  · intro o c hc hop
    rw [hcoins] at hc
    rcases (updatedCoins_eq_some hnone).mp hc with ⟨-, txout', hv, -, rfl⟩ | ⟨-, hc'⟩
    · -- no new coin is a `NAME_NEW`
      exfalso
      by_cases hok : o.n = k
      · rw [hok, hk] at hv
        cases hv
        obtain ⟨-, hup, -⟩ := Iff.mp updatedName_eq_some hname
        simp [CNameScript.isAnyUpdate, hop] at hup
      · have hno := hother _ _ hv hok
        simp [CNameScript.isNameOp, hop] at hno
    · exact hinv.newHash o c hc' hop
  · intro n d hd
    rw [hhist n]
    by_cases hn : n = name
    · subst hn
      rw [hnames, Function.update_self] at hd
      cases hd
      cases hdn : view.names n with
      | none => simp [hhist_nil n (.inl hdn)]
      | some old =>
        cases hf : fNameHistory
        · simp [hhist_nil n (.inr hf)]
        · have hle := hinv.nameHeight n old hdn
          simp [hdh, hle]
    · rw [hnames' n hn] at hd
      simpa [hn] using hinv.historyTop n d hd
  · intro n hne
    rw [hhist n] at hne
    by_cases hn : n = name
    · subst hn
      cases hf : fNameHistory
      · simp [hf, hhist_nil n (.inr hf)] at hne
      · exact ⟨rfl, data, by rw [hnames, Function.update_self]⟩
    · simp only [hn, and_false, if_false] at hne
      obtain ⟨hf, d, hd⟩ := hinv.historyName n hne
      exact ⟨hf, d, by rw [hnames' n hn, hd]⟩
  · intro o c hc
    rw [hcoins] at hc
    rcases (updatedCoins_eq_some hnone).mp hc with ⟨ho, -⟩ | ⟨-, hc'⟩
    · exact ho ▸ List.mem_cons_self ..
    · exact List.mem_cons_of_mem _ (hinv.txids o c hc')
  · intro n d hd hexp
    by_cases hn : n = name
    · subst hn
      rw [hnames, Function.update_self] at hd
      cases hd
      exact hspecial (hdh ▸ hexp)
    · rw [hnames' n hn] at hd
      exact hinv.special n d hd hexp

/-! ## The expiry at the end of a block -/

theorem expiredCoins_eq_some {view : CoinsView} {names : List valtype} {o : COutPoint} {c : Coin} :
    expiredCoins view names o = some c ↔
      o ∉ names.filterMap (fun n => (view.names n).map CNameData.prevout) ∧ view.coins o = some c := by
  unfold expiredCoins
  by_cases ho : o ∈ names.filterMap (fun n => (view.names n).map CNameData.prevout)
  · simp [ho]
  · simp [ho]

/-- The expiry at the end of the block at `H` keeps the invariant, now at
`H + 1`: it spends exactly the coins of the names that expire with this block. -/
theorem Consistent.expireNames (hr : ExpiryRules rules)
    (hinv : Consistent rules fNameHistory H seen view) (hH : H < MEMPOOL_HEIGHT)
    (undo : CBlockUndo) :
    ∃ view' undo' names, ExpireNames rules (H + 1) view undo = .ok (view', undo', names) ∧
      Consistent rules fNameHistory (H + 1) seen view' := by
  obtain ⟨undo', names, hexp, hmem⟩ := @ExpireNames_spec rules hr (H + 1) view undo
    hinv.expireIndex
    (fun n d hd => ⟨Nat.lt_succ_of_le (hinv.nameHeight n d hd),
      by have := hinv.nameHeight n d hd; unfold MEMPOOL_HEIGHT at hH ⊢; omega⟩)
    (fun n d hd hx => by
      refine ⟨fun h175 => hinv.special n d hd (h175 ▸ hx), ?_⟩
      obtain ⟨c, hc, hcn, -⟩ := hinv.coinOfName n d hd (by simpa [expiresAt] using hx.2)
      exact ⟨c, hc, hcn⟩)
  refine ⟨_, undo', names, hexp, ?_⟩
  -- a name expiring now had its coin at its outpoint, which no other name has
  have hspentAt : ∀ o, o ∈ names.filterMap (fun n => (view.names n).map CNameData.prevout) →
      ∃ n d, n ∈ names ∧ view.names n = some d ∧ expiresAt rules d.nHeight (H + 1) ∧
        d.prevout = o := by
    intro o ho
    simp only [List.mem_filterMap, Option.map_eq_some_iff] at ho
    obtain ⟨n, hn, d, hd, rfl⟩ := ho
    obtain ⟨d', hd', hx⟩ := (hmem n).mp hn
    rw [hd] at hd'
    cases hd'
    exact ⟨n, d, hn, hd, hx, rfl⟩
  refine
    { expireIndex := hinv.expireIndex
      coinOfName := ?_
      nameOfCoin := ?_
      coinHeight := fun o c hc =>
        Nat.le_succ_of_le (hinv.coinHeight o c (Iff.mp expiredCoins_eq_some hc).2)
      nameHeight := fun n d hd => Nat.le_succ_of_le (hinv.nameHeight n d hd)
      newHash := fun o c hc => hinv.newHash o c (Iff.mp expiredCoins_eq_some hc).2
      historyTop := hinv.historyTop
      historyName := hinv.historyName
      txids := fun o c hc => hinv.txids o c (Iff.mp expiredCoins_eq_some hc).2
      special := hinv.special }
  · intro n d hd hexp'
    -- unexpired now, so unexpired one block before
    have hexpH : d.isExpired rules H = false := by
      cases h : d.isExpired rules H
      · rfl
      · have := isExpired_succ hr h
        rw [CNameData.isExpired] at hexp'
        rw [hexp'] at this
        cases this
    obtain ⟨c, hc, hcn, hh⟩ := hinv.coinOfName n d hd hexpH
    refine ⟨c, Iff.mpr expiredCoins_eq_some ⟨fun ho => ?_, hc⟩, hcn, hh⟩
    obtain ⟨n', d', -, hd', hx', hpo⟩ := hspentAt _ ho
    obtain ⟨c', hc', hcn', -⟩ := hinv.coinOfName n' d' hd' (by simpa [expiresAt] using hx'.2)
    rw [hpo, hc] at hc'
    cases hc'
    rw [hcn] at hcn'
    cases hcn'
    rw [hd] at hd'
    cases hd'
    rw [CNameData.isExpired, hx'.1] at hexp'
    cases hexp'
  · intro o c n hc hcn
    obtain ⟨hno, hc'⟩ := Iff.mp expiredCoins_eq_some hc
    obtain ⟨d, hd, hpo, hexpH⟩ := hinv.nameOfCoin o c n hc' hcn
    refine ⟨d, hd, hpo, ?_⟩
    -- had the name expired now, its coin would have been spent
    cases hexp' : d.isExpired rules (H + 1)
    · rfl
    · refine absurd ?_ hno
      simp only [List.mem_filterMap, Option.map_eq_some_iff]
      exact ⟨n, (hmem n).mpr ⟨d, hd, hexp', by simpa using hexpH⟩, d, hd, hpo⟩

end Invariant

end Namecoin.Names
