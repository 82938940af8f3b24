import Namecoin.Names.CheckSpec

/-! # What connecting a transaction and expiring names do to the view

Each operation of `ConnectBlock` gets one lemma that says when it succeeds
and what view it leaves, so that the invariant proofs never unfold it:
`UpdateCoins` removes the spent inputs and adds the spendable outputs
(`UpdateCoins_spec`), `SetName` overwrites one entry of the name database and
moves the name in the expire index (`SetName_spec`), `ApplyNameTransaction`
applies the one name output a checked transaction has, and `ExpireNames`
spends the coins of exactly the names whose expiry falls between the previous
height and this one (`ExpireNames_spec`). -/

namespace Namecoin.Names
open Namecoin.Script Lib.ExceptM

/-! ## Coins -/

/-- The coin `AddCoins tx nHeight i vout` puts at `o`: output `o.n - i` of
`vout`, unless it is unspendable. -/
def addsAt (tx : CTransaction) (nHeight i : Nat) (vout : List CTxOut) (o : COutPoint) :
    Option Coin :=
  if o.hash = tx.GetHash ∧ i ≤ o.n then
    match vout[o.n - i]? with
    | some txout =>
      if IsUnspendable txout.scriptPubKey then none else some ⟨txout, nHeight, tx.IsCoinBase⟩
    | none => none
  else none

theorem addsAt_of_lt {tx nHeight i vout} {o : COutPoint} (h : o.n < i) :
    addsAt tx nHeight i vout o = none := by
  simp [addsAt, Nat.not_le.mpr h]

theorem addsAt_nil {tx nHeight i o} : addsAt tx nHeight i [] o = none := by
  simp [addsAt]

theorem addsAt_cons {tx nHeight i txout rest} {o : COutPoint} :
    addsAt tx nHeight i (txout :: rest) o =
      if o = ⟨tx.GetHash, i⟩ then
        (if IsUnspendable txout.scriptPubKey then none else some ⟨txout, nHeight, tx.IsCoinBase⟩)
      else addsAt tx nHeight (i + 1) rest o := by
  obtain ⟨hash, n⟩ := o
  by_cases hh : hash = tx.GetHash
  · subst hh
    rcases Nat.lt_trichotomy n i with hlt | rfl | hgt
    · simp [addsAt, Nat.not_le.mpr hlt, Nat.not_le.mpr (Nat.lt_succ_of_lt hlt), hlt.ne]
    · simp [addsAt]
    · obtain ⟨k, rfl⟩ : ∃ k, n = i + 1 + k := ⟨n - (i + 1), by omega⟩
      have hsub : i + 1 + k - i = k + 1 := by omega
      simp [addsAt, hsub, show i ≤ i + 1 + k by omega, show i + 1 + k ≠ i by omega]
  · simp [addsAt, hh]

/-- `AddCoins` succeeds when no output is null and no coin of the transaction
exists yet (or it is a coinbase, which may overwrite), and adds its spendable
outputs. -/
theorem AddCoins_spec {tx : CTransaction} {nHeight : Nat} :
    ∀ {i : Nat} {vout : List CTxOut} {view : CoinsView},
    (tx.IsCoinBase = true ∨ ∀ n, i ≤ n → view.coins ⟨tx.GetHash, n⟩ = none) →
    (∀ txout ∈ vout, txout.IsNull = false) →
    AddCoins tx nHeight i vout view =
      .ok { view with coins := fun o => (addsAt tx nHeight i vout o).or (view.coins o) }
  | i, [], view, _, _ => by simp [AddCoins, addsAt_nil]
  | i, txout :: rest, view, hfresh, hval => by
    have hnull : txout.IsNull = false := hval txout List.mem_cons_self
    have hval' : ∀ txout ∈ rest, txout.IsNull = false := fun t ht => hval t (List.mem_cons_of_mem _ ht)
    by_cases hu : IsUnspendable txout.scriptPubKey
    · -- an unspendable output is dropped
      have hadd : view.AddCoin ⟨tx.GetHash, i⟩ ⟨txout, nHeight, tx.IsCoinBase⟩ tx.IsCoinBase
          = .ok view := by simp [CoinsView.AddCoin, hu, hnull]
      have hrest := @AddCoins_spec tx nHeight (i + 1) rest view
        (hfresh.imp id fun h n hn => h n (by omega)) hval'
      simp only [AddCoins, hadd, ok_bind, hrest]
      congr
      funext o
      rw [addsAt_cons]
      split
      · rename_i ho
        subst ho
        simp [addsAt_of_lt (o := ⟨tx.GetHash, i⟩) (Nat.lt_succ_self i)]
      · rfl
    · have hnew : (!tx.IsCoinBase && view.HaveCoin ⟨tx.GetHash, i⟩) = false := by
        rcases hfresh with hcb | hnone
        · simp [hcb]
        · simp [CoinsView.HaveCoin, hnone i le_rfl]
      -- the view once output `i` is added
      let view1 : CoinsView := { view with
        coins := Function.update view.coins ⟨tx.GetHash, i⟩ (some ⟨txout, nHeight, tx.IsCoinBase⟩) }
      have hadd : view.AddCoin ⟨tx.GetHash, i⟩ ⟨txout, nHeight, tx.IsCoinBase⟩ tx.IsCoinBase
          = .ok view1 := by
        simp [CoinsView.AddCoin, view1, hu, hnew, hnull]
      have hfresh' : tx.IsCoinBase = true ∨ ∀ n, i + 1 ≤ n → view1.coins ⟨tx.GetHash, n⟩ = none := by
        refine hfresh.imp id fun h n hn => ?_
        simp only [view1]
        rw [Function.update_of_ne (by simp; omega)]
        exact h n (by omega)
      simp only [AddCoins, hadd, ok_bind, @AddCoins_spec tx nHeight (i + 1) rest view1 hfresh' hval']
      congr
      funext o
      rw [addsAt_cons]
      split
      · rename_i ho
        subst ho
        simp [view1, addsAt_of_lt (o := ⟨tx.GetHash, i⟩) (Nat.lt_succ_self i)]
      · rename_i ho
        simp only [view1]
        rw [Function.update_of_ne ho]

/-- Spending distinct inputs whose coins exist succeeds and removes them. -/
theorem SpendInputs_spec : ∀ {vin : List CTxIn} {view : CoinsView} {txundo : CTxUndo},
    (vin.map CTxIn.prevout).Nodup → (∀ txin ∈ vin, ∃ coin, view.coins txin.prevout = some coin) →
    ∃ txundo', SpendInputs vin view txundo =
      .ok ({ view with coins := fun o => if o ∈ vin.map CTxIn.prevout then none else view.coins o },
        txundo')
  | [], view, txundo, _, _ => ⟨txundo, by simp [SpendInputs]⟩
  | txin :: rest, view, txundo, hnodup, hex => by
    obtain ⟨coin, hc⟩ := hex txin (List.mem_cons_self ..)
    rw [List.map_cons, List.nodup_cons] at hnodup
    -- the view after spending the first input
    let view1 : CoinsView := { view with coins := Function.update view.coins txin.prevout none }
    have hex' : ∀ t ∈ rest, ∃ c, view1.coins t.prevout = some c := by
      intro t ht
      have hne : t.prevout ≠ txin.prevout := fun he =>
        hnodup.1 (he ▸ List.mem_map_of_mem ht)
      simpa [view1, Function.update_of_ne hne] using hex t (List.mem_cons_of_mem _ ht)
    obtain ⟨txundo', hrest⟩ := @SpendInputs_spec rest view1 (txundo ++ [coin]) hnodup.2 hex'
    refine ⟨txundo', ?_⟩
    simp only [SpendInputs, CoinsView.SpendCoin, hc, Option.map_some]
    rw [hrest]
    congr
    funext o
    by_cases ho : o = txin.prevout
    · subst ho
      simp [view1]
    · simp [view1, ho]

theorem addsAt_zero_eq_some {tx nHeight vout} {o : COutPoint} {c : Coin} :
    addsAt tx nHeight 0 vout o = some c ↔ o.hash = tx.GetHash ∧ ∃ txout, vout[o.n]? = some txout ∧
      IsUnspendable txout.scriptPubKey = false ∧ ⟨txout, nHeight, tx.IsCoinBase⟩ = c := by
  unfold addsAt
  by_cases hh : o.hash = tx.GetHash
  · simp only [hh, Nat.zero_le, and_self, if_true, Nat.sub_zero, true_and]
    cases hv : vout[o.n]? with
    | none => simp
    | some txout =>
      by_cases hu : IsUnspendable txout.scriptPubKey <;> simp [hu]
  · simp [hh]

/-- `tx` spends the coin at `o`: it is an input of a transaction that is no
coinbase. -/
def spends (tx : CTransaction) (o : COutPoint) : Prop :=
  tx.IsCoinBase = false ∧ o ∈ tx.vin.map CTxIn.prevout

instance (tx : CTransaction) (o : COutPoint) : Decidable (spends tx o) :=
  inferInstanceAs (Decidable (_ ∧ _))

/-- The coins after `UpdateCoins tx`: the outputs of `tx` over the coins that
remain once a non-coinbase has spent its inputs. -/
def updatedCoins (tx : CTransaction) (nHeight : Nat) (coins : COutPoint → Option Coin)
    (o : COutPoint) : Option Coin :=
  (addsAt tx nHeight 0 tx.vout o).or (if spends tx o then none else coins o)

/-- Where no coin of the transaction existed, a coin after `UpdateCoins` is
one of its outputs or an earlier coin it does not spend. -/
theorem updatedCoins_eq_some {tx nHeight coins} {o : COutPoint} {c : Coin}
    (hfresh : ∀ n, coins ⟨tx.GetHash, n⟩ = none) :
    updatedCoins tx nHeight coins o = some c ↔
      (o.hash = tx.GetHash ∧ ∃ txout, tx.vout[o.n]? = some txout ∧
        IsUnspendable txout.scriptPubKey = false ∧ ⟨txout, nHeight, tx.IsCoinBase⟩ = c) ∨
      (¬spends tx o ∧ coins o = some c) := by
  unfold updatedCoins
  cases ha : addsAt tx nHeight 0 tx.vout o with
  | some c' =>
    -- the outpoint is one of the transaction, which had no coin before
    obtain ⟨hh, _⟩ := Iff.mp addsAt_zero_eq_some ha
    have hold : coins o = none := by rw [← hfresh o.n, ← hh]
    rw [← addsAt_zero_eq_some, ha]
    simp [hold]
  | none =>
    rw [← addsAt_zero_eq_some, ha]
    by_cases hs : spends tx o <;> simp [hs]

/-- A coin that the transaction does not spend stays. -/
theorem updatedCoins_of_not_spends {tx nHeight coins} {o : COutPoint} {c : Coin}
    (hfresh : ∀ n, coins ⟨tx.GetHash, n⟩ = none) (hc : coins o = some c) (hs : ¬spends tx o) :
    updatedCoins tx nHeight coins o = some c :=
  (updatedCoins_eq_some hfresh).mpr (.inr ⟨hs, hc⟩)

/-- `UpdateCoins` succeeds on a transaction whose inputs exist and are
distinct (unless it is a coinbase), whose outputs are not null and whose txid
has no coin yet. -/
theorem UpdateCoins_spec {tx : CTransaction} {view : CoinsView} {nHeight : Nat}
    (hin : tx.IsCoinBase = false → (tx.vin.map CTxIn.prevout).Nodup ∧
      ∀ txin ∈ tx.vin, ∃ coin, view.coins txin.prevout = some coin)
    (hfresh : tx.IsCoinBase = true ∨ ∀ n, view.coins ⟨tx.GetHash, n⟩ = none)
    (hval : ∀ txout ∈ tx.vout, txout.IsNull = false) :
    ∃ txundo, UpdateCoins tx view nHeight =
      .ok ({ view with coins := updatedCoins tx nHeight view.coins }, txundo) := by
  cases hcb : tx.IsCoinBase
  · obtain ⟨hnodup, hex⟩ := hin hcb
    obtain ⟨txundo, hspend⟩ := @SpendInputs_spec tx.vin view [] hnodup hex
    -- spending leaves no coin at the outpoints of the transaction
    have hfresh' : tx.IsCoinBase = true ∨ ∀ n, 0 ≤ n → (if (⟨tx.GetHash, n⟩ : COutPoint) ∈
        tx.vin.map CTxIn.prevout then none else view.coins ⟨tx.GetHash, n⟩) = none := by
      rcases hfresh with h | h
      · exact .inl h
      · exact .inr fun n _ => by simp [h n]
    refine ⟨txundo, ?_⟩
    simp only [UpdateCoins, hcb, Bool.false_eq_true, if_false, hspend, ok_bind]
    rw [AddCoins_spec hfresh' hval]
    simp only [ok_bind, pure, Except.pure]
    congr
    funext o
    simp [updatedCoins, spends, hcb]
  · refine ⟨[], ?_⟩
    simp only [UpdateCoins, hcb, if_true, pure, Except.pure, ok_bind]
    rw [AddCoins_spec (.inl hcb) hval]
    simp only [ok_bind]
    congr
    funext o
    simp [updatedCoins, spends, hcb]

/-! ## Name database -/

/-- `SetName` for an update (not an undo) succeeds when the history, if kept,
is no newer than the data it overwrites. It changes no coin, writes the new
data, moves the name in the expire index from the old height to the new one,
and pushes the old data onto the history. -/
theorem SetName_spec {fNameHistory : Bool} {view : CoinsView} {name : valtype} {data : CNameData}
    (hhist : fNameHistory = true → ∀ old, view.names name = some old →
      (view.history name).getLast?.all (·.nHeight ≤ old.nHeight) = true) :
    ∃ view', view.SetName fNameHistory name data false = .ok view' ∧
      view'.coins = view.coins ∧
      view'.names = Function.update view.names name (some data) ∧
      (∀ h n, n ∈ view'.expireIndex h ↔ (h = data.nHeight ∧ n = name) ∨
        (n ∈ view.expireIndex h ∧ ¬(n = name ∧ ∃ old, view.names name = some old ∧ h = old.nHeight))) ∧
      (∀ n, view'.history n = if fNameHistory = true ∧ n = name then
        view.history name ++ (view.names name).toList else view.history n) := by
  cases hold : view.names name with
  | none =>
    simp only [CoinsView.SetName, hold, Bool.false_eq_true, if_false, pure, Except.pure, ok_bind]
    refine ⟨_, rfl, rfl, rfl, fun h n => ?_, fun n => ?_⟩
    · simp
    · by_cases hn : n = name <;> simp [hn]
  | some old =>
    cases hf : fNameHistory
    · simp only [CoinsView.SetName, hold, Bool.false_eq_true, if_false, pure, Except.pure, ok_bind]
      refine ⟨_, rfl, rfl, rfl, fun h n => ?_, fun n => ?_⟩
      · simp only [CoinsView.mem_addExpireIndex, CoinsView.mem_removeExpireIndex, Option.some.injEq,
          exists_eq_left']
        tauto
      · simp
    · -- the old data goes onto the history
      have hpush : CoinsView.historyPush ((view.removeExpireIndex name old.nHeight).history name) old
          = .ok (view.history name ++ [old]) := by
        simp [CoinsView.historyPush, hhist hf old hold]
      simp only [CoinsView.SetName, hold, if_true, hpush, pure, Except.pure, ok_bind]
      refine ⟨_, rfl, rfl, rfl, fun h n => ?_, fun n => ?_⟩
      · simp only [CoinsView.mem_addExpireIndex, CoinsView.mem_removeExpireIndex, Option.some.injEq,
          exists_eq_left']
        tauto
      · by_cases hn : n = name
        · subst hn
          simp
        · simp [hn]

/-! ## Name outputs -/

/-- Without a name output from position `i` on, the output loop of
`ApplyNameTransaction` changes nothing. -/
theorem applyNameOutputs_of_nil {fNameHistory tx nHeight} : ∀ {i vout acc},
    nameOutputs i vout = [] → applyNameOutputs fNameHistory tx nHeight i vout acc = .ok acc
  | i, [], ⟨view, undo⟩, _ => rfl
  | i, txout :: rest, ⟨view, undo⟩, h => by
    have hn : (CNameScript.ofScript txout.scriptPubKey).isNameOp = false := by
      cases hb : (CNameScript.ofScript txout.scriptPubKey).isNameOp
      · rfl
      · simp [nameOutputs, hb] at h
    have hrest : nameOutputs (i + 1) rest = [] := by simpa [nameOutputs, hn] using h
    simp only [applyNameOutputs, hn, Bool.false_and, Bool.false_eq_true, if_false]
    exact applyNameOutputs_of_nil hrest

/-- With one name output, at position `k`, the output loop writes it to the
name database if it is an update, and records the undo data. -/
theorem applyNameOutputs_of_single {fNameHistory tx nHeight} :
    ∀ {i vout k op view undo}, nameOutputs i vout = [(k, op)] →
    applyNameOutputs fNameHistory tx nHeight i vout (view, undo) =
      if op.isAnyUpdate then
        view.SetName fNameHistory op.getOpName (CNameData.fromScript nHeight ⟨tx.GetHash, k⟩ op)
            false >>= fun view' =>
          .ok (view', { undo with
            vnameundo := undo.vnameundo ++ [CNameTxUndo.fromOldState op.getOpName view] })
      else .ok (view, undo)
  | i, [], k, op, view, undo, h => by simp [nameOutputs] at h
  | i, txout :: rest, k, op, view, undo, h => by
    by_cases hn : (CNameScript.ofScript txout.scriptPubKey).isNameOp
    · -- the name output is this one, and the rest has none
      simp only [nameOutputs, hn, if_true, List.cons.injEq, Prod.mk.injEq] at h
      obtain ⟨⟨rfl, rfl⟩, hrest⟩ := h
      simp only [applyNameOutputs, hn, Bool.true_and, applyNameOutputs_of_nil hrest]
    · have hrest : nameOutputs (i + 1) rest = [(k, op)] := by simpa [nameOutputs, hn] using h
      simp only [applyNameOutputs, hn, Bool.false_and, Bool.false_eq_true, if_false]
      exact applyNameOutputs_of_single hrest

theorem ApplyNameTransaction_of_noBug {params fNameHistory tx nHeight view undo}
    (hmem : nHeight ≠ MEMPOOL_HEIGHT)
    (hbug : IsHistoricBug params.mapHistoricBugs tx.GetHash nHeight = none) :
    ApplyNameTransaction params fNameHistory tx nHeight view undo =
      if tx.IsNamecoin then applyNameOutputs fNameHistory tx nHeight 0 tx.vout (view, undo)
      else .ok (view, undo) := by
  cases hnc : tx.IsNamecoin <;> simp [ApplyNameTransaction, hmem, hbug, hnc]

/-! ## Expiry -/

/-- The name a script holds as a `NAME_FIRSTUPDATE` or `NAME_UPDATE`: the
check `ExpireNames` makes on the coin of an expiring name. -/
def updatedName (script : CScript) : Option valtype :=
  if (CNameScript.ofScript script).isNameOp && (CNameScript.ofScript script).isAnyUpdate then
    some (CNameScript.ofScript script).getOpName
  else none

theorem updatedName_eq_some {script : CScript} {name : valtype} :
    updatedName script = some name ↔ (CNameScript.ofScript script).isNameOp ∧
      (CNameScript.ofScript script).isAnyUpdate ∧ (CNameScript.ofScript script).getOpName = name := by
  unfold updatedName
  split <;> simp_all

theorem updatedName_of_not_nameOp {script : CScript}
    (h : (CNameScript.ofScript script).isNameOp = false) : updatedName script = none := by
  simp [updatedName, h]

theorem updatedName_of_new {script : CScript}
    (h : (CNameScript.ofScript script).op = .OP_NAME_NEW) : updatedName script = none := by
  simp [updatedName, CNameScript.isAnyUpdate, h]

/-- The name of an update script is its name argument. -/
theorem updatedName_of_update {script : CScript}
    (h : (CNameScript.ofScript script).op = .OP_NAME_UPDATE ∨
      (CNameScript.ofScript script).op = .OP_NAME_FIRSTUPDATE) :
    updatedName script = some (CNameScript.ofScript script).getOpName := by
  rcases h with h | h <;> simp [updatedName, CNameScript.isNameOp, CNameScript.isAnyUpdate, h]

/-- The rules under which `ExpireNames` expires, at each height, the names
whose expiry falls between the previous height and this one: the expiration
depth is positive, never shrinks, and grows by at most one per block, so that
the last expired update height `n - depth n` never goes back. -/
structure ExpiryRules (rules : ConsensusRules) : Prop where
  depth_pos : ∀ n, 0 < rules.NameExpirationDepth n
  depth_mono : ∀ n, rules.NameExpirationDepth n ≤ rules.NameExpirationDepth (n + 1)
  depth_step : ∀ n, rules.NameExpirationDepth (n + 1) ≤ rules.NameExpirationDepth n + 1

theorem mainNet_expiryRules : ExpiryRules MainNetConsensus := by
  refine ⟨fun n => ?_, fun n => ?_, fun n => ?_⟩ <;>
    simp only [MainNetConsensus] <;> split_ifs <;> omega

theorem regTest_expiryRules : ExpiryRules RegTestConsensus :=
  ⟨fun _ => (by decide : 0 < 30), fun _ => le_rfl, fun _ => Nat.le_succ _⟩

/-- A name last updated at `nPrevHeight` expires with the block at `nHeight`:
it is expired there and was not one block before. -/
def expiresAt (rules : ConsensusRules) (nPrevHeight nHeight : Nat) : Prop :=
  isExpired rules nPrevHeight nHeight = true ∧ isExpired rules nPrevHeight (nHeight - 1) = false

instance (rules : ConsensusRules) (nPrevHeight nHeight : Nat) :
    Decidable (expiresAt rules nPrevHeight nHeight) :=
  inferInstanceAs (Decidable (_ ∧ _))

/-- Under the expiry rules the window of `ExpireNames` holds exactly the
earlier update heights that expire with this block. -/
theorem expireWindow_spec {rules : ConsensusRules} (hr : ExpiryRules rules) (nHeight : Nat) :
    ∃ w, expireWindow rules nHeight = .ok w ∧ ∀ x, x ≠ MEMPOOL_HEIGHT → x < nHeight →
      ((∃ a b, w = some (a, b) ∧ a ≤ x ∧ x ≤ b) ↔ expiresAt rules x nHeight) := by
  unfold expireWindow
  rcases Nat.eq_zero_or_pos nHeight with rfl | hpos
  · exact ⟨none, by simp, fun x _ hx => absurd hx (Nat.not_lt_zero x)⟩
  obtain ⟨m, rfl⟩ : ∃ m, nHeight = m + 1 := ⟨nHeight - 1, by omega⟩
  have hmono := hr.depth_mono m
  have hstep := hr.depth_step m
  by_cases hnow : rules.NameExpirationDepth (m + 1) > m + 1
  · -- nothing can have expired yet
    refine ⟨none, by simp [hnow], fun x hx _ => ?_⟩
    simp only [reduceCtorEq, false_and, exists_false, false_iff, expiresAt, isExpired, hx,
      if_false, decide_eq_true_eq, not_and]
    omega
  · have hwin : m + 1 - rules.NameExpirationDepth m ≤ m + 1 - rules.NameExpirationDepth (m + 1) + 1 := by
      omega
    refine ⟨some (m + 1 - rules.NameExpirationDepth m, m + 1 - rules.NameExpirationDepth (m + 1)),
      by simp [hnow, hwin], fun x hx _ => ?_⟩
    simp only [Option.some.injEq, Prod.mk.injEq, expiresAt, isExpired, hx, if_false,
      decide_eq_true_eq, decide_eq_false_iff_not, Nat.add_sub_cancel]
    constructor
    · rintro ⟨a, b, ⟨rfl, rfl⟩, ha, hb⟩
      omega
    · rintro ⟨h1, h2⟩
      exact ⟨_, _, ⟨rfl, rfl⟩, by omega, by omega⟩

theorem mem_namesInWindow {view : CoinsView} {a b : Nat} {name : valtype} :
    name ∈ namesInWindow view a b ↔ ∃ h, a ≤ h ∧ h ≤ b ∧ name ∈ view.expireIndex h := by
  simp only [namesInWindow, CoinsView.GetNamesForHeight, Lib.OrdSet.mem_foldl_union,
    List.not_mem_nil, false_or, List.mem_range', Nat.one_mul]
  constructor
  · rintro ⟨h, ⟨i, hi, rfl⟩, hmem⟩
    exact ⟨a + i, by omega, by omega, hmem⟩
  · rintro ⟨h, ha, hb, hmem⟩
    exact ⟨h, ⟨h - a, by omega, by omega⟩, hmem⟩

theorem nodup_namesInWindow {view : CoinsView} {a b : Nat} : (namesInWindow view a b).Nodup :=
  Lib.OrdSet.nodup_foldl_union List.nodup_nil

/-- The coins once the coins of the names in `names` are spent. -/
def expiredCoins (view : CoinsView) (names : List valtype) (o : COutPoint) : Option Coin :=
  if o ∈ names.filterMap (fun n => (view.names n).map CNameData.prevout) then none else view.coins o

theorem expiredCoins_nil {view : CoinsView} : expiredCoins view [] = view.coins := by
  funext o
  simp [expiredCoins]

/-- One turn of the expiry loop, on an expired name whose coin is still there. -/
theorem expireName_spec {rules : ConsensusRules} {nHeight : Nat} {view v : CoinsView}
    {undo : CBlockUndo} {name : valtype} {data : CNameData} {coin : Coin}
    (hv : v.names = view.names) (hd : view.names name = some data)
    (hexp : isExpired rules data.nHeight nHeight = true)
    (hpm : nHeight = 175868 → IsStringValidAscii name = true ∧ name ≠ postmortem)
    (hc : v.coins data.prevout = some coin) (hname : updatedName coin.out.scriptPubKey = some name) :
    expireName rules nHeight (v, undo) name =
      .ok ({ v with coins := Function.update v.coins data.prevout none },
        { undo with vexpired := undo.vexpired ++ [coin] }) := by
  obtain ⟨hn, hup, hget⟩ := Iff.mp updatedName_eq_some hname
  have hspecial : ¬(nHeight = 175868 ∧ IsStringValidAscii name = false) ∧
      ¬(nHeight = 175868 ∧ name = postmortem) := by
    by_cases h175 : nHeight = 175868
    · obtain ⟨hascii, hnot⟩ := hpm h175
      simp [hascii, hnot]
    · simp [h175]
  obtain ⟨hs1, hs2⟩ := hspecial
  simp [expireName, CoinsView.GetName, CoinsView.GetCoin, CoinsView.SpendCoin, hv, hd, hexp, hc,
    hn, hup, hget, hs1, hs2]

/-- `ExpireNames` succeeds when every name that expires with this block still
has its coin, and spends exactly those coins. The expire index must list each
name at its height, and every entry must be older than this block. -/
theorem ExpireNames_spec {rules : ConsensusRules} (hr : ExpiryRules rules) {nHeight : Nat}
    {view : CoinsView} {undo : CBlockUndo}
    (hidx : ∀ h n, n ∈ view.expireIndex h ↔ ∃ d, view.names n = some d ∧ d.nHeight = h)
    (hheight : ∀ n d, view.names n = some d → d.nHeight < nHeight ∧ d.nHeight ≠ MEMPOOL_HEIGHT)
    (hcoin : ∀ n d, view.names n = some d → expiresAt rules d.nHeight nHeight →
      (nHeight = 175868 → IsStringValidAscii n = true ∧ n ≠ postmortem) ∧
      ∃ c, view.coins d.prevout = some c ∧ updatedName c.out.scriptPubKey = some n) :
    ∃ undo' names, ExpireNames rules nHeight view undo =
        .ok ({ view with coins := expiredCoins view names }, undo', names) ∧
      ∀ n, n ∈ names ↔ ∃ d, view.names n = some d ∧ expiresAt rules d.nHeight nHeight := by
  obtain ⟨w, hw, hwin⟩ := expireWindow_spec hr nHeight
  cases w with
  | none =>
    -- no name expires
    refine ⟨undo, [], by simp [ExpireNames, hw, expiredCoins_nil], fun n => ?_⟩
    simp only [List.not_mem_nil, false_iff, not_exists, not_and]
    intro d hd hexp
    obtain ⟨hlt, hne⟩ := hheight n d hd
    obtain ⟨a, b, hab, -⟩ := (hwin d.nHeight hne hlt).mpr hexp
    cases hab
  | some ab =>
    obtain ⟨a, b⟩ := ab
    -- the window lists exactly the expiring names
    have hmem : ∀ n, n ∈ namesInWindow view a b ↔
        ∃ d, view.names n = some d ∧ expiresAt rules d.nHeight nHeight := by
      intro n
      rw [mem_namesInWindow]
      constructor
      · rintro ⟨h, ha, hb, hn⟩
        obtain ⟨d, hd, rfl⟩ := (hidx h n).mp hn
        obtain ⟨hlt, hne⟩ := hheight n d hd
        exact ⟨d, hd, (hwin d.nHeight hne hlt).mp ⟨a, b, rfl, ha, hb⟩⟩
      · rintro ⟨d, hd, hexp⟩
        obtain ⟨hlt, hne⟩ := hheight n d hd
        obtain ⟨a', b', hab, ha, hb⟩ := (hwin d.nHeight hne hlt).mpr hexp
        simp only [Option.some.injEq, Prod.mk.injEq] at hab
        obtain ⟨rfl, rfl⟩ := hab
        exact ⟨d.nHeight, ha, hb, (hidx _ n).mpr ⟨d, hd, rfl⟩⟩
    -- one turn: the coin of the next name is still there, and is spent
    have hstep : ∀ pre n post (acc : CoinsView × CBlockUndo), namesInWindow view a b = pre ++ n :: post →
        acc.1 = { view with coins := expiredCoins view pre } →
        ∃ acc', expireName rules nHeight acc n = .ok acc' ∧
          acc'.1 = { view with coins := expiredCoins view (pre ++ [n]) } := by
      intro pre n post ⟨v, u⟩ hl hP
      simp only at hP
      subst hP
      have hnodup : n ∉ pre := by
        have hnd := @nodup_namesInWindow view a b
        rw [hl, List.nodup_middle, List.nodup_cons] at hnd
        exact fun h => hnd.1 (List.mem_append_left _ h)
      obtain ⟨d, hd, hexp⟩ := (hmem n).mp (by rw [hl]; simp)
      obtain ⟨hpm, c, hc, hname⟩ := hcoin n d hd hexp
      -- no name before `n` had the outpoint of `n`
      have hfree : d.prevout ∉ pre.filterMap (fun n => (view.names n).map CNameData.prevout) := by
        simp only [List.mem_filterMap, Option.map_eq_some_iff, not_exists, not_and]
        intro n' hn' d' hd' hpo
        obtain ⟨d'', hd'', hexp'⟩ := (hmem n').mp (by rw [hl]; simp [hn'])
        rw [hd'] at hd''
        cases hd''
        obtain ⟨-, c', hc', hname'⟩ := hcoin n' d' hd' hexp'
        rw [hpo, hc] at hc'
        cases hc'
        rw [hname] at hname'
        cases hname'
        exact hnodup hn'
      have hc' : expiredCoins view pre d.prevout = some c := by simp [expiredCoins, hfree, hc]
      refine ⟨_, expireName_spec rfl hd hexp.1 hpm hc' hname, ?_⟩
      simp only
      congr
      funext o
      by_cases ho : o = d.prevout
      · subst ho
        simp [expiredCoins, hd]
      · simp [expiredCoins, hd, ho]
    obtain ⟨⟨v, undo'⟩, hfold, hv⟩ := foldlM_ok (f := expireName rules nHeight)
        (P := fun pre acc => acc.1 = { view with coins := expiredCoins view pre })
        (a := (view, undo)) hstep (by simp [expiredCoins_nil])
    simp only at hv
    subst hv
    exact ⟨undo', namesInWindow view a b, by simp [ExpireNames, hw, hfold], hmem⟩

end Namecoin.Names
