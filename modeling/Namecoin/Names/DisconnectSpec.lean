import Mathlib
import Namecoin.Names.Disconnect
import Namecoin.Names.ApplySpec

/-! # What each step of `DisconnectBlock` does to the view

One lemma per step, as `ApplySpec` has for the steps of `ConnectBlock`.
`ApplyTxInUndo` puts a coin back at an outpoint that has none
(`ApplyTxInUndo_of_none`); the loop over a transaction spends the outputs
`AddCoins` made of it (`spendOutputs_of_added`) and puts back the coins it
spent (`restoreInputs_of_spent`), which together take back `UpdateCoins`
(`undoTx_updatedCoins`); `UnexpireNames` puts back the coin of a name that
expired with the block (`unexpireCoin_of_expired`). These steps read and
write the coins only, so each lemma holds whatever the rest of the view is.

A name undo record, written before a `SetName`, takes the name database back
to what it was (`undoesNames_setName`) when the expire index lists each name
at the height of its data, in order (`NameIndexed`). -/

namespace Namecoin.Names
open Namecoin.Script Lib.ExceptM

attribute [ext] CoinsView

/-! ## Coins -/

/-- A coin that `ApplyTxInUndo` puts back as it is: unspent, with a height and
a spendable script, as `AddCoins` writes them above the genesis block. -/
structure Coin.Restorable (c : Coin) : Prop where
  unspent : c.IsSpent = false
  height : 0 < c.nHeight
  spendable : IsUnspendable c.out.scriptPubKey = false

namespace CoinsView

/-- At an outpoint without a coin, a restorable coin goes back, clean. -/
theorem ApplyTxInUndo_of_none {view : CoinsView} {undo : Coin} {out : COutPoint}
    (hnone : view.coins out = none) (hc : undo.Restorable) :
    view.ApplyTxInUndo undo out =
      .ok (.DISCONNECT_OK, { view with coins := Function.update view.coins out (some undo) }) := by
  simp [ApplyTxInUndo, HaveCoin, AddCoin, hnone, Nat.pos_iff_ne_zero.mp hc.height, hc.unspent, hc.spendable,
    pure, Except.pure]

end CoinsView

/-- Restoring inputs at distinct outpoints without coins brings back the coins
that `coins` has there, clean; everywhere else `coins` is already the view. -/
theorem restoreInputs_of_spent {coins : COutPoint → Option Coin} :
    ∀ {l : List (Coin × CTxIn)} {fClean : Bool} {view : CoinsView},
    (l.map (·.2.prevout)).Nodup →
    (∀ p ∈ l, view.coins p.2.prevout = none ∧ coins p.2.prevout = some p.1 ∧ p.1.Restorable) →
    (∀ o, o ∉ l.map (·.2.prevout) → view.coins o = coins o) →
    restoreInputs l fClean view = .ok (.DISCONNECT_OK, fClean, { view with coins := coins })
  | [], fClean, view, _, _, hrest => by
    have hc : coins = view.coins := funext fun o => (hrest o List.not_mem_nil).symm
    simp [restoreInputs, hc]
  | (undo, txin) :: rest, fClean, view, hnd, hl, hrest => by
    rw [List.map_cons, List.nodup_cons] at hnd
    obtain ⟨hnone, hc, hr⟩ := hl (undo, txin) (List.mem_cons_self ..)
    -- the view once the last input is back
    let view1 : CoinsView := { view with coins := Function.update view.coins txin.prevout (some undo) }
    have hrest' : restoreInputs rest fClean view1 =
        .ok (.DISCONNECT_OK, fClean, { view1 with coins := coins }) := by
      refine restoreInputs_of_spent hnd.2 (fun p hp => ?_) (fun o ho => ?_)
      · have hne : p.2.prevout ≠ txin.prevout := fun he => hnd.1 (he ▸ List.mem_map_of_mem hp)
        obtain ⟨h1, h2⟩ := hl p (List.mem_cons_of_mem _ hp)
        exact ⟨by simp [view1, Function.update_of_ne hne, h1], h2⟩
      · by_cases ho' : o = txin.prevout
        · subst ho'
          simp [view1, hc]
        · simp only [view1, Function.update_of_ne ho']
          exact hrest o (by simp [ho', ho])
    have hok : (DisconnectResult.DISCONNECT_OK != .DISCONNECT_UNCLEAN) = true := rfl
    simpa [restoreInputs, CoinsView.ApplyTxInUndo_of_none hnone hr, hok] using hrest'

theorem addsAt_cons_of_ne {tx nHeight i txout rest} {o : COutPoint} (h : o ≠ ⟨tx.GetHash, i⟩) :
    addsAt tx nHeight i (txout :: rest) o = addsAt tx nHeight (i + 1) rest o := by
  rw [addsAt_cons, if_neg h]

theorem ne_of_addsAt_succ {tx nHeight i vout} {o : COutPoint} {c : Coin}
    (h : addsAt tx nHeight (i + 1) vout o = some c) : o ≠ ⟨tx.GetHash, i⟩ := by
  rintro rfl
  rw [addsAt_of_lt (Nat.lt_succ_self i)] at h
  cases h

/-- On a view that holds the coins `AddCoins` made of the outputs from `i` on,
the output loop spends exactly those coins and finds each as the block made
it. -/
theorem spendOutputs_of_added {params : CChainParams} {nHeight : Nat} {tx : CTransaction} :
    ∀ {i : Nat} {vout : List CTxOut} {fClean : Bool} {view : CoinsView},
    (∀ o c, addsAt tx nHeight i vout o = some c → view.coins o = some c) →
    spendOutputs params nHeight tx i vout fClean view =
      (fClean, { view with coins := fun o =>
        if (addsAt tx nHeight i vout o).isSome then none else view.coins o })
  | i, [], fClean, view, _ => by
    simp [spendOutputs, addsAt_nil]
  | i, txout :: rest, fClean, view, hadd => by
    have hadd' : ∀ o c, addsAt tx nHeight (i + 1) rest o = some c → view.coins o = some c :=
      fun o c h => hadd o c (by rw [addsAt_cons_of_ne (ne_of_addsAt_succ h)]; exact h)
    by_cases hu : IsUnspendable txout.scriptPubKey
    · -- an unspendable output has no coin
      rw [spendOutputs, if_pos hu, spendOutputs_of_added hadd']
      congr
      funext o
      by_cases ho : o = ⟨tx.GetHash, i⟩
      · subst ho
        simp [addsAt_of_lt (o := ⟨tx.GetHash, i⟩) (Nat.lt_succ_self i), addsAt_cons, hu]
      · rw [addsAt_cons_of_ne ho]
    · have hc : view.coins ⟨tx.GetHash, i⟩ = some ⟨txout, nHeight, tx.IsCoinBase⟩ :=
        hadd _ _ (by simp [addsAt_cons, hu])
      -- the view once output `i` is spent
      let view1 : CoinsView := { view with coins := Function.update view.coins ⟨tx.GetHash, i⟩ none }
      have hadd1 : ∀ o c, addsAt tx nHeight (i + 1) rest o = some c → view1.coins o = some c := by
        intro o c h
        simp only [view1, Function.update_of_ne (ne_of_addsAt_succ h)]
        exact hadd' o c h
      simp only [spendOutputs, hu, Bool.false_eq_true, if_false, CoinsView.SpendCoin, hc,
        Option.map_some, Option.any_some, beq_self_eq_true, Bool.and_self, Bool.true_or,
        Bool.and_true]
      rw [spendOutputs_of_added hadd1]
      congr
      funext o
      by_cases ho : o = ⟨tx.GetHash, i⟩
      · subst ho
        simp [view1, addsAt_of_lt (o := ⟨tx.GetHash, i⟩) (Nat.lt_succ_self i), addsAt_cons, hu]
      · simp [view1, addsAt_cons_of_ne ho, Function.update_of_ne ho]

/-- Undoing a transaction that `UpdateCoins` applied to `coins`, with the coins
it spent as undo data unless it is the coinbase at position 0, brings back
`coins`, clean. -/
theorem undoTx_updatedCoins {params : CChainParams} {nHeight : Nat} {vtxundo : List CTxUndo}
    {tx : CTransaction} {i : Nat} {fClean : Bool} {w : CoinsView} {coins : COutPoint → Option Coin}
    (hcb : tx.IsCoinBase = true ↔ i = 0) (hfresh : ∀ n, coins ⟨tx.GetHash, n⟩ = none)
    (hnd : tx.IsCoinBase = false → (tx.vin.map CTxIn.prevout).Nodup)
    (hundo : i ≠ 0 → ∃ txundo, vtxundo[i - 1]? = some txundo ∧
      List.Forall₂ (fun coin txin => coins txin.prevout = some coin) txundo tx.vin)
    (hready : ∀ o c, coins o = some c → c.Restorable) :
    undoTx params nHeight vtxundo tx i fClean { w with coins := updatedCoins tx nHeight coins } =
      .ok (.DISCONNECT_OK, fClean, { w with coins := coins }) := by
  -- the outputs go, which leaves the coins minus the spent ones
  have hleft : (fun o => if (addsAt tx nHeight 0 tx.vout o).isSome then none
      else updatedCoins tx nHeight coins o) = fun o => if spends tx o then none else coins o := by
    funext o
    cases ha : addsAt tx nHeight 0 tx.vout o with
    | none => simp [updatedCoins, ha]
    | some c =>
      obtain ⟨hh, -⟩ := Iff.mp addsAt_zero_eq_some ha
      have hnone : coins o = none := by rw [← hfresh o.n, ← hh]
      simp [hnone]
  have hspend := @spendOutputs_of_added params nHeight tx 0 tx.vout fClean
    { w with coins := updatedCoins tx nHeight coins } (fun o c h => by simp [updatedCoins, h])
  simp only [undoTx, hspend, hleft]
  by_cases hi : i = 0
  · -- the coinbase spends nothing
    have hns : ∀ o, ¬spends tx o := fun o hs => by
      have h1 := hs.1
      rw [hcb.mpr hi] at h1
      cases h1
    simp [hi, hns]
  · have hcb' : tx.IsCoinBase = false := by simpa [hi] using hcb
    obtain ⟨txundo, hget, hfa⟩ := hundo hi
    have hlen : txundo.length = tx.vin.length := hfa.length_eq
    have hsnd : (txundo.zip tx.vin).map (·.2.prevout) = tx.vin.map CTxIn.prevout := by
      have hz : (txundo.zip tx.vin).map Prod.snd = tx.vin := List.map_snd_zip (by omega)
      calc (txundo.zip tx.vin).map (·.2.prevout)
          = ((txundo.zip tx.vin).map Prod.snd).map CTxIn.prevout := by rw [List.map_map]; rfl
        _ = tx.vin.map CTxIn.prevout := by rw [hz]
    -- every input comes back
    have hmem : ∀ o, o ∈ ((txundo.zip tx.vin).reverse).map (·.2.prevout) ↔ spends tx o := by
      intro o
      rw [List.map_reverse, List.mem_reverse, hsnd]
      simp [spends, hcb']
    simp only [hi, if_false, hget, hlen, ne_eq, not_true_eq_false]
    refine restoreInputs_of_spent ?_ (fun p hp => ?_) (fun o ho => ?_)
    · rw [List.map_reverse, hsnd]
      exact List.nodup_reverse.mpr (hnd hcb')
    · have hp' : p ∈ txundo.zip tx.vin := List.mem_reverse.mp hp
      have hc : coins p.2.prevout = some p.1 := (List.forall₂_iff_zip.mp hfa).2 hp'
      have hs : spends tx p.2.prevout := ⟨hcb', List.mem_map_of_mem (List.of_mem_zip hp').2⟩
      exact ⟨by simp [hs], hc, hready _ _ hc⟩
    · have hs : ¬spends tx o := fun hs => ho ((hmem o).mpr hs)
      simp [hs]

/-- The loop over the transactions goes on from where a first part of them
left it, when that part ends clean or unclean but not failed. -/
theorem undoTxs_append {params : CChainParams} {nHeight : Nat} {vtxundo : List CTxUndo} :
    ∀ {l₁ l₂ : List (CTransaction × Nat)} {fClean fClean' : Bool} {view view' : CoinsView},
    undoTxs params nHeight vtxundo l₁ fClean view = .ok (.DISCONNECT_OK, fClean', view') →
    undoTxs params nHeight vtxundo (l₁ ++ l₂) fClean view =
      undoTxs params nHeight vtxundo l₂ fClean' view'
  | [], l₂, fClean, fClean', view, view', h => by
    simp only [undoTxs, Except.ok.injEq, Prod.mk.injEq, true_and] at h
    obtain ⟨rfl, rfl⟩ := h
    rfl
  | (tx, i) :: rest, l₂, fClean, fClean', view, view', h => by
    rw [undoTxs] at h
    obtain ⟨⟨res, b, v⟩, hstep, hrest⟩ := Iff.mp bind_eq_ok h
    by_cases hf : res = .DISCONNECT_FAILED
    · simp [hf] at hrest
    · simp only [hf, if_false] at hrest
      rw [List.cons_append, undoTxs, hstep, ok_bind]
      simp only [hf, if_false]
      exact undoTxs_append hrest

/-! ## Unexpiring names -/

/-- The coin of a name that expired at `nHeight` goes back to the outpoint of
the name, which has none, and the name joins the unexpired ones. -/
theorem unexpireCoin_of_expired {rules : ConsensusRules} {nHeight : Nat} {coin : Coin}
    {names : List valtype} {view : CoinsView} {name : valtype} {data : CNameData}
    (hname : updatedName coin.out.scriptPubKey = some name) (hnew : name ∉ names)
    (hd : view.names name = some data) (hexp : expiresAt rules data.nHeight nHeight)
    (hnone : view.coins data.prevout = none) (hc : coin.Restorable) :
    unexpireCoin rules nHeight coin names view =
      .ok (none, { view with coins := Function.update view.coins data.prevout (some coin) },
        Lib.OrdSet.insert name names) := by
  obtain ⟨hn, hup, hget⟩ := Iff.mp updatedName_eq_some hname
  obtain ⟨hx, hx'⟩ := hexp
  simp [unexpireCoin, hn, hup, hget, hnew, CoinsView.GetName, hd, hx, hx',
    CoinsView.ApplyTxInUndo_of_none hnone hc]

/-- The loop of `UnexpireNames` goes on from where a first part of the coins
left it, when that part passed every check. -/
theorem unexpireLoop_append {rules : ConsensusRules} {nHeight : Nat} :
    ∀ {l₁ l₂ : List Coin} {names names' : List valtype} {view view' : CoinsView},
    unexpireLoop rules nHeight l₁ names view = .ok (none, view', names') →
    unexpireLoop rules nHeight (l₁ ++ l₂) names view = unexpireLoop rules nHeight l₂ names' view'
  | [], l₂, names, names', view, view', h => by
    simp only [unexpireLoop, Except.ok.injEq, Prod.mk.injEq, true_and] at h
    obtain ⟨rfl, rfl⟩ := h
    rfl
  | coin :: rest, l₂, names, names', view, view', h => by
    rw [unexpireLoop] at h
    obtain ⟨⟨err, v, s⟩, hstep, hrest⟩ := Iff.mp bind_eq_ok h
    cases err with
    | some msg => simp at hrest
    | none =>
      rw [List.cons_append, unexpireLoop, hstep, ok_bind]
      exact unexpireLoop_append hrest

/-! ## The name database -/

/-- The expire index lists each name, once and in order, at the height of its
data; a name has a history only with `-namehistory` and only while it has
data. -/
structure NameIndexed (fNameHistory : Bool) (view : CoinsView) : Prop where
  expireIndex : ∀ h name, name ∈ view.expireIndex h ↔ ∃ d, view.names name = some d ∧ d.nHeight = h
  sorted : ∀ h, (view.expireIndex h).Pairwise (· < ·)
  history : ∀ name, view.history name ≠ [] → fNameHistory = true ∧ ∃ d, view.names name = some d

/-- Such an index is a function of the name database. -/
theorem NameIndexed.expireIndex_eq {f f' : Bool} {v₁ v₂ : CoinsView} (h₁ : NameIndexed f v₁)
    (h₂ : NameIndexed f' v₂) (hn : v₁.names = v₂.names) : v₁.expireIndex = v₂.expireIndex := by
  funext h
  refine List.Pairwise.eq_of_mem_iff (h₁.sorted h) (h₂.sorted h) fun name => ?_
  rw [h₁.expireIndex, h₂.expireIndex, hn]

namespace CoinsView

/-- Changing the names of one height in a way that keeps them in order keeps
every height in order. -/
theorem pairwise_update_expireIndex {idx : Nat → List valtype} {h : Nat} {g : List valtype → List valtype}
    (hs : ∀ k, (idx k).Pairwise (· < ·)) (hg : (idx h).Pairwise (· < ·) → (g (idx h)).Pairwise (· < ·))
    (k : Nat) : (Function.update idx h (g (idx h)) k).Pairwise (· < ·) := by
  by_cases hk : k = h
  · subst hk
    simpa using hg (hs k)
  · simpa [hk] using hs k

theorem pairwise_addExpireIndex {view : CoinsView} {name : valtype} {h : Nat}
    (hs : ∀ k, (view.expireIndex k).Pairwise (· < ·)) (k : Nat) :
    ((view.addExpireIndex name h).expireIndex k).Pairwise (· < ·) :=
  pairwise_update_expireIndex hs Lib.OrdSet.pairwise_insert k

theorem pairwise_removeExpireIndex {view : CoinsView} {name : valtype} {h : Nat}
    (hs : ∀ k, (view.expireIndex k).Pairwise (· < ·)) (k : Nat) :
    ((view.removeExpireIndex name h).expireIndex k).Pairwise (· < ·) :=
  pairwise_update_expireIndex hs Lib.OrdSet.pairwise_erase k

theorem historyPush_eq_ok {history history' : List CNameData} {entry : CNameData}
    (h : historyPush history entry = .ok history') : history' = history ++ [entry] := by
  unfold historyPush at h
  split at h
  · exact (Except.ok.inj h).symm
  · cases h

/-- A successful `SetName`: the name has the new data and has moved in the
expire index from the height of its old data to the new one; only its own
history may change, with `-namehistory` and old data, by the entry pushed or
popped. -/
theorem SetName_eq_ok {f : Bool} {view view' : CoinsView} {name : valtype} {data : CNameData}
    {undo : Bool} (h : view.SetName f name data undo = .ok view') :
    ∃ hist, view' = addExpireIndex
        { coins := view.coins
          names := Function.update view.names name (some data)
          expireIndex := ((view.names name).elim view fun old =>
            view.removeExpireIndex name old.nHeight).expireIndex
          history := Function.update view.history name hist } name data.nHeight ∧
      (if f then (view.names name).elim (.ok (view.history name)) fun old =>
          if undo then historyPop (view.history name) data else historyPush (view.history name) old
        else .ok (view.history name)) = .ok hist := by
  cases hold : view.names name with
  | none =>
    cases undo
    · simp only [SetName, hold, Bool.false_eq_true, if_false, pure, Except.pure, ok_bind,
        Except.ok.injEq] at h
      subst h
      exact ⟨view.history name, by simp, by cases f <;> rfl⟩
    · simp only [SetName, hold, if_true] at h
      cases h
  | some old =>
    cases f
    · simp only [SetName, hold, Bool.false_eq_true, if_false, pure, Except.pure, ok_bind,
        Except.ok.injEq] at h
      subst h
      exact ⟨view.history name, by simp, rfl⟩
    · -- the entry goes onto the history, or comes off it
      cases undo
      · simp only [SetName, hold, if_true, Bool.false_eq_true, if_false, removeExpireIndex_history,
          bind_eq_ok, pure_eq_ok] at h
        obtain ⟨hist, hop, v1, rfl, rfl⟩ := h
        exact ⟨hist, rfl, by simpa using hop⟩
      · simp only [SetName, hold, if_true, removeExpireIndex_history, bind_eq_ok, pure_eq_ok] at h
        obtain ⟨hist, hop, v1, rfl, rfl⟩ := h
        exact ⟨hist, rfl, by simpa using hop⟩

/-- The undo of an update: the name gets its old data back, off the top of the
history, and moves back in the expire index. -/
theorem SetName_undo_of_some {f : Bool} {view : CoinsView} {name : valtype} {data old : CNameData}
    (hd : view.names name = some data)
    (hpop : f = true → (view.history name).getLast? = some old) :
    view.SetName f name old true =
      .ok (addExpireIndex
        { coins := view.coins
          names := Function.update view.names name (some old)
          expireIndex := (view.removeExpireIndex name data.nHeight).expireIndex
          history := if f then Function.update view.history name (view.history name).dropLast
            else view.history } name old.nHeight) := by
  cases f
  · simp [SetName, hd, pure, Except.pure]
  · simp [SetName, hd, historyPop, hpop rfl, pure, Except.pure]

/-- A successful `DeleteName`: the name had data, and no history if one is
kept; it leaves the database and its index entry goes. -/
theorem DeleteName_eq_ok {f : Bool} {view view' : CoinsView} {name : valtype}
    (h : view.DeleteName f name = .ok view') :
    ∃ data, view.names name = some data ∧ (f = true → view.history name = []) ∧
      view' = { view.removeExpireIndex name data.nHeight with
        names := Function.update view.names name none } := by
  cases hold : view.names name with
  | none => simp [DeleteName, hold] at h
  | some data =>
    simp only [DeleteName, hold, removeExpireIndex_history] at h
    by_cases hh : (f && !(view.history name).isEmpty) = true
    · simp [hh] at h
    · simp only [hh, Bool.false_eq_true, if_false] at h
      refine ⟨data, rfl, fun hf => ?_, (Except.ok.inj h).symm⟩
      simpa [hf] using hh

/-- The undo of a registration: the name and its index entry go. -/
theorem DeleteName_of_some {f : Bool} {view : CoinsView} {name : valtype} {data : CNameData}
    (hd : view.names name = some data) (hh : f = true → view.history name = []) :
    view.DeleteName f name =
      .ok { view.removeExpireIndex name data.nHeight with
        names := Function.update view.names name none } := by
  cases f
  · simp [DeleteName, hd]
  · simp [DeleteName, hd, hh rfl]

end CoinsView

/-- `SetName` keeps the expire index in step with the name database. -/
theorem NameIndexed.setName {f : Bool} {view view' : CoinsView} {name : valtype} {data : CNameData}
    {undo : Bool} (hv : NameIndexed f view) (h : view.SetName f name data undo = .ok view') :
    NameIndexed f view' := by
  obtain ⟨hist, rfl, hhist⟩ := CoinsView.SetName_eq_ok h
  -- the index once the name has left the height of its old data
  have hleft : ∀ k n, n ∈ ((view.names name).elim view fun old =>
      view.removeExpireIndex name old.nHeight).expireIndex k ↔
        n ≠ name ∧ n ∈ view.expireIndex k ∨ False := by
    intro k n
    cases hold : view.names name with
    | none =>
      by_cases hn : n = name
      · subst hn
        simp [hv.expireIndex, hold]
      · simp [hn]
    | some old =>
      by_cases hn : n = name
      · subst hn
        simp [hv.expireIndex, hold]
        omega
      · simp [hn]
  refine ⟨fun k n => ?_, fun k => ?_, fun n hn => ?_⟩
  · rw [CoinsView.mem_addExpireIndex]
    by_cases hnn : n = name
    · subst hnn
      simp [hleft]
      omega
    · simp [hleft, hnn, hv.expireIndex]
  · refine CoinsView.pairwise_addExpireIndex (fun k => ?_) k
    cases hold : view.names name with
    | none => simpa [hold] using hv.sorted k
    | some old => simpa [hold] using CoinsView.pairwise_removeExpireIndex hv.sorted k
  · by_cases hnn : n = name
    · subst hnn
      refine ⟨?_, data, by simp⟩
      -- without `-namehistory` the history stays as it was
      cases f
      · simp only [Bool.false_eq_true, if_false, Except.ok.injEq] at hhist
        subst hhist
        exact (hv.history n (by simpa using hn)).1
      · rfl
    · simpa [hnn] using hv.history n (by simpa [hnn] using hn)

theorem NameIndexed.withCoins {f : Bool} {view : CoinsView} (hv : NameIndexed f view)
    (coins : COutPoint → Option Coin) : NameIndexed f { view with coins := coins } :=
  ⟨hv.expireIndex, hv.sorted, hv.history⟩

/-- `DeleteName` keeps the expire index in step with the name database. -/
theorem NameIndexed.deleteName {f : Bool} {view view' : CoinsView} {name : valtype}
    (hv : NameIndexed f view) (h : view.DeleteName f name = .ok view') : NameIndexed f view' := by
  obtain ⟨data, hd, hh, rfl⟩ := CoinsView.DeleteName_eq_ok h
  -- the name had no history left
  have hh' : view.history name = [] := by
    cases f
    · by_contra hne
      exact Bool.noConfusion (hv.history name hne).1
    · exact hh rfl
  refine ⟨fun k n => ?_, CoinsView.pairwise_removeExpireIndex hv.sorted, fun n hn => ?_⟩
  · by_cases hnn : n = name
    · subst hnn
      simp [hv.expireIndex, hd]
      omega
    · simp [hnn, hv.expireIndex]
  · by_cases hnn : n = name
    · subst hnn
      exact absurd hh' (by simpa using hn)
    · simpa [hnn] using hv.history n (by simpa using hn)

/-- So does every name undo record. -/
theorem NameIndexed.apply {f : Bool} {view view' : CoinsView} {u : CNameTxUndo}
    (hv : NameIndexed f view) (h : u.apply f view = .ok view') : NameIndexed f view' := by
  unfold CNameTxUndo.apply at h
  split at h
  · exact hv.deleteName h
  · exact hv.setName h

/-- The records of name undo `N` take the name database, its expire index and
its history from those of `v'` back to those of `v`, whatever the coins. -/
def UndoesNames (fNameHistory : Bool) (N : List CNameTxUndo) (v' v : CoinsView) : Prop :=
  ∀ coins, N.reverse.foldlM (fun view u => u.apply fNameHistory view) { v' with coins := coins } =
    .ok { v with coins := coins }

theorem UndoesNames.nil {f : Bool} {v : CoinsView} : UndoesNames f [] v v :=
  fun _ => rfl

/-- Undo records compose: the later ones are undone first. -/
theorem UndoesNames.append {f : Bool} {N₁ N₂ : List CNameTxUndo} {v₀ v₁ v₂ : CoinsView}
    (h₁ : UndoesNames f N₁ v₁ v₀) (h₂ : UndoesNames f N₂ v₂ v₁) : UndoesNames f (N₁ ++ N₂) v₂ v₀ := by
  intro coins
  rw [List.reverse_append, List.foldlM_append, h₂ coins, ok_bind, h₁ coins]

/-- The undo record `ApplyNameTransaction` writes before a `SetName` takes the
name back: a new name is deleted, an updated one gets its old data back. -/
theorem undoesNames_setName {f : Bool} {view view' : CoinsView} {name : valtype}
    {data : CNameData} (hv : NameIndexed f view) (h : view.SetName f name data false = .ok view') :
    UndoesNames f [CNameTxUndo.fromOldState name view] view' view := by
  intro coins
  have hv' := (hv.setName h).withCoins coins
  obtain ⟨hist, hview', hhist⟩ := CoinsView.SetName_eq_ok h
  -- the view the record leaves: the names and the history are those before
  obtain ⟨R, happly, hnames, hhistory, hcoins⟩ : ∃ R,
      (CNameTxUndo.fromOldState name view).apply f { view' with coins := coins } = .ok R ∧
        R.names = view.names ∧ R.history = view.history ∧ R.coins = coins := by
    cases hold : view.names name with
    | none =>
      -- a new name, which had no history
      have hh : view.history name = [] := by
        by_contra hne
        obtain ⟨-, d, hd⟩ := hv.history name hne
        rw [hold] at hd
        cases hd
      have hist_eq : hist = view.history name := by
        cases f <;> simpa [hold, eq_comm] using hhist
      subst hview' hist_eq
      rw [CNameTxUndo.fromOldState, CoinsView.GetName, hold, CNameTxUndo.apply, if_pos rfl,
        CoinsView.DeleteName_of_some
        (by simp : (Function.update view.names name (some data)) name = some data)
        (fun _ => by simpa using hh)]
      exact ⟨_, rfl, by simp [← hold], by simp, rfl⟩
    | some old =>
      -- an updated name: with `-namehistory` its old data went onto the history
      have hist_eq : hist = if f then view.history name ++ [old] else view.history name := by
        cases f
        · simpa [eq_comm] using hhist
        · simp only [hold, if_true, Option.elim, Bool.false_eq_true, if_false] at hhist
          simpa using CoinsView.historyPush_eq_ok hhist
      subst hview'
      rw [CNameTxUndo.fromOldState, CoinsView.GetName, hold, CNameTxUndo.apply,
        if_neg Bool.false_ne_true, CoinsView.SetName_undo_of_some
        (by simp : (Function.update view.names name (some data)) name = some data)
        (fun hf => by simp [hist_eq, hf] :
          f = true → (Function.update view.history name hist name).getLast? = some old)]
      refine ⟨_, rfl, by simp [← hold], ?_, rfl⟩
      cases f <;> simp [hist_eq]
  have hR : NameIndexed f R := hv'.apply happly
  simp only [List.reverse_singleton, List.foldlM_cons, List.foldlM_nil, happly, ok_bind]
  congr 1
  ext1
  · exact hcoins
  · exact hnames
  · exact NameIndexed.expireIndex_eq hR (hv.withCoins coins) hnames
  · exact hhistory

end Namecoin.Names
