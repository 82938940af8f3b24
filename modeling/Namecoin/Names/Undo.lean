import Mathlib
import Namecoin.Names.DisconnectSpec
import Namecoin.Names.Connect
import Namecoin.Names.NameDB

/-! # Disconnecting a block takes back connecting it

`ConnectBlock` writes undo data for the block it connects; `DisconnectBlock`
with that undo data gives back the view from before the block, exactly, and
unexpires the names the block expired (`DisconnectBlock_ConnectBlock`). The
coins of the expired names come back first; then each transaction, the last
first, loses its outputs and gets back the coins it spent; last, the name
undo records, the most recent first, give each name the data it had.

Besides `Consistent`, the undo rests on `Restorable`: every coin is unspent
and has a positive height and a spendable script, as `AddCoins` writes them
above the genesis block once `CheckTransaction` has checked the output values
(`ApplyTxInUndo` reads a height of 0 as missing, and `AddCoin` asserts that a
coin is unspent and drops an unspendable one), and each height of the expire
index lists its names in order, as the `std::set` does. Connecting a block keeps it
(`Restorable.connectBlock`). -/

namespace Namecoin.Names
open Namecoin.Script Lib.ExceptM

/-! ## What connecting a transaction writes -/

/-- A successful input loop kept, in order, the coins it spent. -/
theorem SpendInputs_eq_ok : ∀ {vin : List CTxIn} {view view' : CoinsView} {txundo txundo' : CTxUndo},
    SpendInputs vin view txundo = .ok (view', txundo') →
    ∃ spent, txundo' = txundo ++ spent ∧
      List.Forall₂ (fun coin txin => view.coins txin.prevout = some coin) spent vin
  | [], view, view', txundo, txundo', h => by
    simp only [SpendInputs, Except.ok.injEq, Prod.mk.injEq] at h
    exact ⟨[], by simp [h.2], .nil⟩
  | txin :: rest, view, view', txundo, txundo', h => by
    cases hc : view.coins txin.prevout with
    | none => simp [SpendInputs, CoinsView.SpendCoin, hc] at h
    | some coin =>
      simp only [SpendInputs, CoinsView.SpendCoin, hc, Option.map_some] at h
      obtain ⟨spent, rfl, hfa⟩ := SpendInputs_eq_ok h
      refine ⟨coin :: spent, by simp, .cons hc (hfa.imp fun c t ht => ?_)⟩
      -- the later inputs find their coins where the first one left them
      by_cases ho : t.prevout = txin.prevout
      · simp [ho] at ht
      · simpa [Function.update_of_ne ho] using ht

theorem exists_of_forall₂ {α β : Type} {R : α → β → Prop} {l₁ : List α} {l₂ : List β}
    (h : List.Forall₂ R l₁ l₂) : ∀ b ∈ l₂, ∃ a, R a b := by
  induction h with
  | nil => simp
  | cons hr _ ih =>
    intro b hb
    rcases List.mem_cons.mp hb with rfl | hb
    · exact ⟨_, hr⟩
    · exact ih b hb

/-- `UpdateCoins` on distinct inputs of a new transaction leaves the coins
`updatedCoins` says, and keeps the spent coins as undo data. -/
theorem UpdateCoins_eq_ok {tx : CTransaction} {view view' : CoinsView} {nHeight : Nat}
    {txundo : CTxUndo} (hfresh : ∀ n, view.coins ⟨tx.GetHash, n⟩ = none)
    (hnd : tx.IsCoinBase = false → (tx.vin.map CTxIn.prevout).Nodup)
    (hval : ∀ txout ∈ tx.vout, txout.IsNull = false)
    (h : UpdateCoins tx view nHeight = .ok (view', txundo)) :
    view' = { view with coins := updatedCoins tx nHeight view.coins } ∧
      (tx.IsCoinBase = false →
        List.Forall₂ (fun coin txin => view.coins txin.prevout = some coin) txundo tx.vin) := by
  -- the spent coins, when the transaction is no coinbase
  have hspent : tx.IsCoinBase = false →
      List.Forall₂ (fun coin txin => view.coins txin.prevout = some coin) txundo tx.vin := by
    intro hcb
    simp only [UpdateCoins, hcb, Bool.false_eq_true, if_false, bind_eq_ok, pure_eq_ok] at h
    obtain ⟨⟨v1, u1⟩, hsp, v2, -, hres⟩ := h
    obtain ⟨spent, rfl, hfa⟩ := SpendInputs_eq_ok hsp
    cases hres
    simpa using hfa
  obtain ⟨txundo', hupd⟩ := @UpdateCoins_spec tx view nHeight
    (fun hcb => ⟨hnd hcb, fun txin ht => exists_of_forall₂ (hspent hcb) txin ht⟩) (.inr hfresh) hval
  rw [hupd] at h
  cases h
  exact ⟨rfl, hspent⟩

/-- The name part of a transaction writes undo records that take the name
database back, and keeps the expire index in step. -/
theorem applyNameOutputs_undoes {f : Bool} {tx : CTransaction} {nHeight : Nat} :
    ∀ {i : Nat} {vout : List CTxOut} {view view' : CoinsView} {undo undo' : CBlockUndo},
    NameIndexed f view → applyNameOutputs f tx nHeight i vout (view, undo) = .ok (view', undo') →
    NameIndexed f view' ∧ view'.coins = view.coins ∧
      ∃ N, undo' = { undo with vnameundo := undo.vnameundo ++ N } ∧ UndoesNames f N view' view
  | i, [], view, view', undo, undo', hv, h => by
    simp only [applyNameOutputs, Except.ok.injEq, Prod.mk.injEq] at h
    obtain ⟨rfl, rfl⟩ := h
    exact ⟨hv, rfl, [], by simp, .nil⟩
  | i, txout :: rest, view, view', undo, undo', hv, h => by
    simp only [applyNameOutputs] at h
    split at h
    · -- an update: `SetName`, after its undo record
      obtain ⟨v1, hset, hrest⟩ := Iff.mp bind_eq_ok h
      obtain ⟨hv', hc, N, rfl, hN⟩ := applyNameOutputs_undoes (hv.setName hset) hrest
      obtain ⟨_, rfl, -⟩ := CoinsView.SetName_eq_ok hset
      exact ⟨hv', hc, [_] ++ N, by simp, UndoesNames.append (undoesNames_setName hv hset) hN⟩
    · exact applyNameOutputs_undoes hv h

theorem ApplyNameTransaction_undoes {params : CChainParams} {f : Bool} {tx : CTransaction}
    {nHeight : Nat} {view view' : CoinsView} {undo undo' : CBlockUndo}
    (hmem : nHeight ≠ MEMPOOL_HEIGHT) (hbug : IsHistoricBug params.mapHistoricBugs tx.GetHash nHeight = none)
    (hv : NameIndexed f view) (h : ApplyNameTransaction params f tx nHeight view undo = .ok (view', undo')) :
    NameIndexed f view' ∧ view'.coins = view.coins ∧
      ∃ N, undo' = { undo with vnameundo := undo.vnameundo ++ N } ∧ UndoesNames f N view' view := by
  rw [ApplyNameTransaction_of_noBug hmem hbug] at h
  split at h
  · exact applyNameOutputs_undoes hv h
  · simp only [Except.ok.injEq, Prod.mk.injEq] at h
    obtain ⟨rfl, rfl⟩ := h
    exact ⟨hv, rfl, [], by simp, .nil⟩

/-! ## What the undo needs -/

/-- Every coin is restorable, and each height of the expire index lists its
names in order. -/
structure Restorable (view : CoinsView) : Prop where
  coins : ∀ o c, view.coins o = some c → c.Restorable
  sorted : ∀ h, (view.expireIndex h).Pairwise (· < ·)

theorem restorable_empty : Restorable CoinsView.empty :=
  ⟨(fun _ _ h => by cases h), fun _ => List.Pairwise.nil⟩

theorem Consistent.nameIndexed {rules : ConsensusRules} {f : Bool} {H : Nat} {seen : List uint256}
    {view : CoinsView} (hinv : Consistent rules f H seen view) (hres : Restorable view) :
    NameIndexed f view :=
  ⟨hinv.expireIndex, hres.sorted, hinv.historyName⟩

/-- What `DisconnectBlock` needs of the transactions `txs` at positions `i`,
`i + 1`, ... of a block, which took the view from `v` to `v'` and the undo
data from `u` to `u'`: undoing them, the last first, with undo data that
extends `u'`, brings back the coins of `v` whatever the rest of the view; their
name undo records bring back its name database; they expired nothing. -/
structure Undoes (params : CChainParams) (fNameHistory : Bool) (H i : Nat)
    (txs : List CTransaction) (v v' : CoinsView) (u u' : CBlockUndo) : Prop where
  vtxundo : u.vtxundo <+: u'.vtxundo
  coins : ∀ full, u'.vtxundo <+: full → ∀ (w : CoinsView) (fClean : Bool),
    undoTxs params H full (txs.zipIdx i).reverse fClean { w with coins := v'.coins } =
      .ok (.DISCONNECT_OK, fClean, { w with coins := v.coins })
  names : ∃ N, u'.vnameundo = u.vnameundo ++ N ∧ UndoesNames fNameHistory N v' v
  vexpired : u'.vexpired = u.vexpired

namespace Undoes

variable {params : CChainParams} {f : Bool} {H i : Nat}

theorem nil {v : CoinsView} {u : CBlockUndo} : Undoes params f H i [] v v u u where
  vtxundo := List.prefix_refl _
  coins _ _ _ _ := by simp [undoTxs]
  names := ⟨[], by simp, .nil⟩
  vexpired := rfl

/-- The first transaction is undone last. -/
theorem cons {tx : CTransaction} {txs : List CTransaction} {v v₁ v₂ : CoinsView}
    {u u₁ u₂ : CBlockUndo} (h₁ : Undoes params f H i [tx] v v₁ u u₁)
    (h₂ : Undoes params f H (i + 1) txs v₁ v₂ u₁ u₂) : Undoes params f H i (tx :: txs) v v₂ u u₂ where
  vtxundo := h₁.vtxundo.trans h₂.vtxundo
  coins full hfull w fClean := by
    rw [List.zipIdx_cons, List.reverse_cons, undoTxs_append (h₂.coins full hfull w fClean)]
    simpa using h₁.coins full (h₂.vtxundo.trans hfull) w fClean
  names := by
    obtain ⟨N₁, h1, hN₁⟩ := h₁.names
    obtain ⟨N₂, h2, hN₂⟩ := h₂.names
    exact ⟨N₁ ++ N₂, by rw [h2, h1, List.append_assoc], hN₁.append hN₂⟩
  vexpired := h₂.vexpired.trans h₁.vexpired

end Undoes

/-! ## Connecting a transaction -/

section Tx

variable {params : CChainParams} {Hash160 : valtype → valtype} {fNameHistory : Bool}
  {flags : NameFlags} {H : Nat} {seen : List uint256} {view view' : CoinsView}
  {undo undo' : CBlockUndo} {tx : CTransaction} {i : Nat}

/-- `checkTx` passes a transaction whose outputs are not null, and, when it is
no coinbase, only on distinct inputs. -/
theorem checkTx_ok (h : checkTx params Hash160 flags H view tx = .ok ()) :
    (∀ txout ∈ tx.vout, txout.IsNull = false) ∧
      (tx.IsCoinBase = false → (tx.vin.map CTxIn.prevout).Nodup) := by
  unfold checkTx at h
  obtain ⟨_, hval, h⟩ := Iff.mp bind_eq_ok h
  have hpost := checkOutputValues_post 0 tx.vout
  rw [hval] at hpost
  refine ⟨fun t ht => CTxOut.IsNull_eq_false (hpost t ht), fun hcb => ?_⟩
  by_contra hn
  simp [hcb, hn] at h

/-- The coins `UpdateCoins` adds at a positive height, of outputs that are not
null, are restorable. -/
theorem restorable_updatedCoins (hpos : 0 < H) (hfresh : ∀ n, view.coins ⟨tx.GetHash, n⟩ = none)
    (hval : ∀ txout ∈ tx.vout, txout.IsNull = false)
    (hres : Restorable view) (o : COutPoint) (c : Coin) (hc : updatedCoins tx H view.coins o = some c) :
    c.Restorable := by
  rcases (updatedCoins_eq_some hfresh).mp hc with ⟨-, txout, hout, hu, rfl⟩ | ⟨-, hc'⟩
  · exact ⟨hval txout (List.mem_of_getElem? hout), hpos, hu⟩
  · exact hres.coins o c hc'

/-- A transaction at position `i` of a block at `H` that connects leaves a
restorable view and undo data that take it back. -/
theorem connectTx_undoes (hH : H < MEMPOOL_HEIGHT) (hpos : 0 < H) (htx : TxAssumptions params H tx)
    (hfresh : tx.GetHash ∉ seen) (hcb : tx.IsCoinBase = true ↔ i = 0)
    (hinv : Consistent params.rules fNameHistory H seen view) (hres : Restorable view)
    (hlen : undo.vtxundo.length = i - 1)
    (h : connectTx params Hash160 fNameHistory flags H (view, undo) i tx = .ok (view', undo')) :
    Undoes params fNameHistory H i [tx] view view' undo undo' ∧ Restorable view' ∧
      undo'.vtxundo.length = i := by
  have hnone := hinv.no_coin_of_fresh hfresh
  unfold connectTx at h
  obtain ⟨_, hchk, h⟩ := Iff.mp bind_eq_ok h
  obtain ⟨⟨v1, txundo⟩, hupd, happ⟩ := Iff.mp bind_eq_ok h
  obtain ⟨hval, hnd⟩ := checkTx_ok hchk
  obtain ⟨rfl, hspent⟩ := UpdateCoins_eq_ok hnone hnd hval hupd
  obtain ⟨hv', hc, N, hu', hN⟩ := ApplyNameTransaction_undoes (Nat.ne_of_lt hH) htx.noBug
    ((hinv.nameIndexed hres).withCoins _) happ
  -- the undo data of the transaction: the coins it spent, unless it is at position 0
  have hvtx : undo'.vtxundo = if i = 0 then undo.vtxundo else undo.vtxundo ++ [txundo] := by
    rw [hu']
    by_cases hi : i = 0 <;> simp [hi, Nat.pos_iff_ne_zero]
  have hrest : undo'.vnameundo = undo.vnameundo ++ N ∧ undo'.vexpired = undo.vexpired := by
    rw [hu']
    by_cases hi : i = 0 <;> simp [hi, Nat.pos_iff_ne_zero]
  refine ⟨⟨?_, fun full hfull w fClean => ?_, ⟨N, hrest.1, fun c => hN c⟩, hrest.2⟩,
    ⟨fun o c ho => restorable_updatedCoins hpos hnone hval hres o c (by rwa [hc] at ho), hv'.sorted⟩, ?_⟩
  · rw [hvtx]
    split
    · exact List.prefix_refl _
    · exact List.prefix_append _ _
  · -- the transaction is undone by itself
    have hundo : i ≠ 0 → ∃ t, full[i - 1]? = some t ∧
        List.Forall₂ (fun coin txin => view.coins txin.prevout = some coin) t tx.vin := by
      intro hi
      refine ⟨txundo, ?_, hspent (Bool.eq_false_iff.mpr (mt hcb.mp hi))⟩
      obtain ⟨t, rfl⟩ := hfull
      rw [hvtx, if_neg hi, List.append_assoc, ← hlen, List.getElem?_append_right le_rfl]
      simp
    rw [hc]
    simp only [List.zipIdx_cons, List.zipIdx_nil, List.reverse_singleton, undoTxs,
      undoTx_updatedCoins hcb hnone hnd hundo hres.coins, ok_bind]
    simp
  · rw [hvtx]
    split
    · omega
    · rw [List.length_append, List.length_singleton]
      omega

end Tx

/-- Transactions at positions `i`, `i + 1`, ... of a block at `H` that connect
leave a restorable view and undo data that take them back. -/
theorem connectTxs_undoes {params : CChainParams} {Hash160 : valtype → valtype} {fNameHistory : Bool}
    {flags : NameFlags} {H : Nat} (hr : ExpiryRules params.rules) (hH : H < MEMPOOL_HEIGHT)
    (hpos : 0 < H) :
    ∀ {txs : List CTransaction} {i : Nat} {seen : List uint256} {view view' : CoinsView}
      {undo undo' : CBlockUndo},
    (∀ tx ∈ txs, TxAssumptions params H tx) → (txs.map CTransaction.GetHash).Nodup →
    (∀ tx ∈ txs, tx.GetHash ∉ seen) →
    (∀ k tx, txs[k]? = some tx → (tx.IsCoinBase = true ↔ i + k = 0)) →
    Consistent params.rules fNameHistory H seen view → Restorable view →
    undo.vtxundo.length = i - 1 →
    connectTxs params Hash160 fNameHistory flags H i txs (view, undo) = .ok (view', undo') →
    Undoes params fNameHistory H i txs view view' undo undo' ∧ Restorable view' ∧
      undo'.vtxundo.length = i + txs.length - 1
  | [], i, seen, view, view', undo, undo', _, _, _, _, _, hres, hlen, h => by
    simp only [connectTxs, Except.ok.injEq, Prod.mk.injEq] at h
    obtain ⟨rfl, rfl⟩ := h
    exact ⟨.nil, hres, by simpa using hlen⟩
  | tx :: rest, i, seen, view, view', undo, undo', htxs, hnd, hfresh, hcb, hinv, hres, hlen, h => by
    rw [List.map_cons, List.nodup_cons] at hnd
    rw [connectTxs] at h
    obtain ⟨⟨v1, u1⟩, h1, h2⟩ := Iff.mp bind_eq_ok h
    have htx := htxs tx (List.mem_cons_self ..)
    have hfresh1 := hfresh tx (List.mem_cons_self ..)
    obtain ⟨hund1, hres1, hlen1⟩ := connectTx_undoes hH hpos htx hfresh1
      (by simpa using hcb 0 tx rfl) hinv hres hlen h1
    -- the invariant after the first transaction
    have hpost : Post Rejection
        (fun acc => Consistent params.rules fNameHistory H (tx.GetHash :: seen) acc.1)
        (connectTx params Hash160 fNameHistory flags H (view, undo) i tx) :=
      hinv.connectTx hr hH htx hfresh1 undo i
    rw [h1] at hpost
    have hfresh' : ∀ t ∈ rest, t.GetHash ∉ tx.GetHash :: seen := by
      intro t ht hmem
      rcases List.mem_cons.mp hmem with heq | hs
      · exact hnd.1 (heq ▸ List.mem_map_of_mem ht)
      · exact hfresh t (List.mem_cons_of_mem _ ht) hs
    obtain ⟨hund2, hres2, hlen2⟩ := connectTxs_undoes hr hH hpos
      (fun t ht => htxs t (List.mem_cons_of_mem _ ht)) hnd.2 hfresh'
      (fun k t hk => by simpa [Nat.add_right_comm] using hcb (k + 1) t hk) hpost hres1
      (by simpa using hlen1) h2
    refine ⟨hund1.cons hund2, hres2, ?_⟩
    rw [hlen2, List.length_cons]
    omega

/-! ## The expiry -/

/-- The expiry loop over distinct names that expire now, each with its coin at
its outpoint, keeps those coins in order as undo data; unexpiring them, the
last first, brings the coins back and unexpires the names. -/
theorem unexpire_expireNames {rules : ConsensusRules} {nHeight : Nat} :
    ∀ {names : List valtype} {v v' : CoinsView} {u u' : CBlockUndo},
    names.Nodup →
    (∀ n ∈ names, ∃ d c, v.names n = some d ∧ expiresAt rules d.nHeight nHeight ∧
      v.coins d.prevout = some c ∧ updatedName c.out.scriptPubKey = some n ∧
      c.Restorable ∧
      (nHeight = 175868 → IsStringValidAscii n = true ∧ n ≠ postmortem)) →
    names.foldlM (expireName rules nHeight) (v, u) = .ok (v', u') →
    ∃ cs, u' = { u with vexpired := u.vexpired ++ cs } ∧ ∀ S, (∀ n ∈ names, n ∉ S) →
      unexpireLoop rules nHeight cs.reverse S v' = .ok (none, v, Lib.OrdSet.union S names.reverse)
  | [], v, v', u, u', _, _, h => by
    simp only [List.foldlM_nil, pure, Except.pure, Except.ok.injEq, Prod.mk.injEq] at h
    obtain ⟨rfl, rfl⟩ := h
    exact ⟨[], by simp, fun S _ => by simp [unexpireLoop, Lib.OrdSet.union]⟩
  | n :: rest, v, v', u, u', hnd, hnames, h => by
    rw [List.nodup_cons] at hnd
    obtain ⟨d, c, hd, hexp, hc, hname, hready, hpm⟩ := hnames n (List.mem_cons_self ..)
    rw [List.foldlM_cons, expireName_spec rfl hd hexp.1 hpm hc hname, ok_bind] at h
    -- another name has another outpoint: the coin there names it
    have hnames1 : ∀ n' ∈ rest, ∃ d' c', v.names n' = some d' ∧ expiresAt rules d'.nHeight nHeight ∧
        Function.update v.coins d.prevout none d'.prevout = some c' ∧
        updatedName c'.out.scriptPubKey = some n' ∧
        c'.Restorable ∧
        (nHeight = 175868 → IsStringValidAscii n' = true ∧ n' ≠ postmortem) := by
      intro n' hn'
      obtain ⟨d', c', hd', hexp', hc', hname', hready', hpm'⟩ := hnames n' (List.mem_cons_of_mem _ hn')
      have hne : d'.prevout ≠ d.prevout := by
        intro he
        rw [he, hc] at hc'
        cases hc'
        rw [hname] at hname'
        cases hname'
        exact hnd.1 hn'
      exact ⟨d', c', hd', hexp', by rw [Function.update_of_ne hne]; exact hc', hname', hready', hpm'⟩
    obtain ⟨cs, rfl, hun⟩ := unexpire_expireNames hnd.2 hnames1 h
    refine ⟨c :: cs, by simp, fun S hS => ?_⟩
    have hnew : n ∉ Lib.OrdSet.union S rest.reverse := by
      rw [Lib.OrdSet.mem_union, not_or, List.mem_reverse]
      exact ⟨hS n (List.mem_cons_self ..), hnd.1⟩
    rw [List.reverse_cons, unexpireLoop_append (hun S fun n' hn' => hS n' (List.mem_cons_of_mem _ hn')),
      unexpireLoop, @unexpireCoin_of_expired _ _ _ _
        { v with coins := Function.update v.coins d.prevout none } _ _ hname hnew hd hexp (by simp) hready,
      ok_bind]
    -- the coin of `n` is back where it was, and `n` is unexpired last
    have hcoins : Function.update (Function.update v.coins d.prevout none) d.prevout (some c) =
        v.coins := by
      rw [Function.update_idem, ← hc, Function.update_eq_self]
    simp [unexpireLoop, hcoins, Lib.OrdSet.union, List.foldl_append]

/-- The names `ExpireNames` gives are a set in order, as `UnexpireNames` builds
one. -/
theorem pairwise_namesInWindow {view : CoinsView} {a b : Nat} :
    (namesInWindow view a b).Pairwise (· < ·) :=
  Lib.OrdSet.pairwise_foldl_union List.Pairwise.nil

/-- The expiry at the end of a block at `H` keeps the coins it spends as undo
data, in order, and changes nothing else; unexpiring them at `H + 1` brings
the coins back and gives the names it expired. -/
theorem UnexpireNames_ExpireNames {rules : ConsensusRules} {f : Bool} {H : Nat}
    {seen : List uint256} {v v' : CoinsView} {u u' : CBlockUndo} {names : List valtype}
    (hr : ExpiryRules rules) (hH : H < MEMPOOL_HEIGHT) (hinv : Consistent rules f H seen v)
    (hres : Restorable v) (h : ExpireNames rules (H + 1) v u = .ok (v', u', names)) :
    u'.vtxundo = u.vtxundo ∧ u'.vnameundo = u.vnameundo ∧
      v' = { v with coins := expiredCoins v names } ∧
      ∃ cs, u'.vexpired = u.vexpired ++ cs ∧
        unexpireLoop rules (H + 1) cs.reverse [] v' = .ok (none, v, names) := by
  -- the names expired are those that expire now
  obtain ⟨undo', names', hspec, hmem⟩ := @ExpireNames_spec rules hr (H + 1) v u
    hinv.expireIndex
    (fun n d hd => ⟨Nat.lt_succ_of_le (hinv.nameHeight n d hd),
      by have := hinv.nameHeight n d hd; unfold MEMPOOL_HEIGHT at hH ⊢; omega⟩)
    (fun n d hd hx => by
      refine ⟨fun h175 => hinv.special n d hd (h175 ▸ hx), ?_⟩
      obtain ⟨c, hc, hcn, -⟩ := hinv.coinOfName n d hd (by simpa [expiresAt] using hx.2)
      exact ⟨c, hc, hcn⟩)
  have hsame := hspec.symm.trans h
  simp only [Except.ok.injEq, Prod.mk.injEq] at hsame
  obtain ⟨hv', -, rfl⟩ := hsame
  unfold ExpireNames at h
  obtain ⟨w, -, h⟩ := Iff.mp bind_eq_ok h
  cases w with
  | none =>
    simp only [pure, Except.pure, Except.ok.injEq, Prod.mk.injEq] at h
    obtain ⟨rfl, rfl, rfl⟩ := h
    exact ⟨rfl, rfl, hv'.symm, [], by simp, by simp [unexpireLoop]⟩
  | some ab =>
    obtain ⟨a, b⟩ := ab
    obtain ⟨⟨v2, u2⟩, hfold, hres'⟩ := Iff.mp bind_eq_ok h
    simp only [pure, Except.pure, Except.ok.injEq, Prod.mk.injEq] at hres'
    obtain ⟨rfl, rfl, rfl⟩ := hres'
    -- each name that expires now has its coin, as restorable as every coin
    have hnames : ∀ n ∈ namesInWindow v a b, ∃ d c, v.names n = some d ∧
        expiresAt rules d.nHeight (H + 1) ∧ v.coins d.prevout = some c ∧
        updatedName c.out.scriptPubKey = some n ∧
        c.Restorable ∧
        (H + 1 = 175868 → IsStringValidAscii n = true ∧ n ≠ postmortem) := by
      intro n hn
      obtain ⟨d, hd, hx⟩ := (hmem n).mp hn
      obtain ⟨c, hc, hcn, -⟩ := hinv.coinOfName n d hd (by simpa [expiresAt] using hx.2)
      exact ⟨d, c, hd, hx, hc, hcn, hres.coins _ _ hc, fun h175 => hinv.special n d hd (h175 ▸ hx)⟩
    obtain ⟨cs, rfl, hun⟩ := unexpire_expireNames nodup_namesInWindow hnames hfold
    refine ⟨rfl, rfl, hv'.symm, cs, rfl, ?_⟩
    rw [hun [] (fun _ _ => List.not_mem_nil)]
    congr
    refine List.Pairwise.eq_of_mem_iff (Lib.OrdSet.pairwise_union List.Pairwise.nil)
      pairwise_namesInWindow fun n => ?_
    simp

/-! ## A block -/

/-- The coinbase checks pass a block whose transaction at position `k` is a
coinbase exactly when `k = 0`. -/
theorem checkBlockCoinbase_ok {vtx : List CTransaction} (h : checkBlockCoinbase vtx = .ok ()) :
    vtx ≠ [] ∧ ∀ k tx, vtx[k]? = some tx → (tx.IsCoinBase = true ↔ k = 0) := by
  cases vtx with
  | nil => cases h
  | cons tx rest =>
    simp only [checkBlockCoinbase] at h
    by_cases hcb : tx.IsCoinBase = true
    · by_cases hmore : rest.any CTransaction.IsCoinBase = true
      · simp [hcb, hmore] at h
      · refine ⟨List.cons_ne_nil _ _, fun k t hk => ?_⟩
        cases k with
        | zero =>
          cases hk
          simpa using hcb
        | succ k =>
          have hnot := List.any_eq_false.mp (Bool.eq_false_iff.mpr hmore) t (List.mem_of_getElem? hk)
          simpa using hnot
    · simp [hcb] at h

section Block

variable {params : CChainParams} {Hash160 : valtype → valtype} {fNameHistory : Bool}
  {flags : NameFlags} {H : Nat} {seen : List uint256} {view view' : CoinsView}
  {vtx : List CTransaction} {undo : CBlockUndo} {expired : List valtype}

/-- A block at `H` that connects leaves a restorable view, and undo data with
which each phase of `DisconnectBlock` takes back its part: `UnexpireNames`
the expiry, the loop over the transactions their coins, the name undo records
the name database. -/
theorem ConnectBlock_undoes (hr : ExpiryRules params.rules) (hpos : 0 < H)
    (hchain : ChainAssumptions params H [vtx]) (hcb : checkBlockCoinbase vtx = .ok ())
    (hfresh : ∀ tx ∈ vtx, tx.GetHash ∉ seen) (hinv : Consistent params.rules fNameHistory H seen view)
    (hres : Restorable view)
    (hconn : ConnectBlock params Hash160 fNameHistory flags H view vtx = .ok (view', undo, expired)) :
    Restorable view' ∧ ∃ vn, undo.vtxundo.length + 1 = vtx.length ∧
      UnexpireNames params.rules (H + 1) undo view' = .ok (none, vn, expired) ∧
      undoTxs params H undo.vtxundo vtx.zipIdx.reverse true vn =
        .ok (.DISCONNECT_OK, true, { vn with coins := view.coins }) ∧
      undo.vnameundo.reverse.foldlM (fun view u => u.apply fNameHistory view)
        { vn with coins := view.coins } = .ok view := by
  obtain ⟨htxs, hnd, hH⟩ := hchain.head
  obtain ⟨hne, hcbk⟩ := checkBlockCoinbase_ok hcb
  unfold ConnectBlock at hconn
  obtain ⟨⟨vn, un⟩, hrun, hexp⟩ := Iff.mp bind_eq_ok hconn
  obtain ⟨hund, hresn, hlen⟩ := connectTxs_undoes hr hH hpos htxs hnd hfresh
    (fun k tx hk => by simpa using hcbk k tx hk) hinv hres rfl hrun
  -- the invariant after the transactions
  have hpost : Post Rejection (fun acc => Consistent params.rules fNameHistory H
      ((vtx.map CTransaction.GetHash).reverse ++ seen) acc.1)
      (connectTxs params Hash160 fNameHistory flags H 0 vtx (view, .empty)) :=
    hinv.connectTxs hr hH htxs hnd hfresh .empty 0
  rw [hrun] at hpost
  obtain ⟨hvtx, hvname, hvn, cs, hcs, hun⟩ := UnexpireNames_ExpireNames hr hH hpost hresn hexp
  obtain ⟨N, hN, hNundo⟩ := hund.names
  refine ⟨?_, vn, ?_, ?_, ?_, ?_⟩
  · -- the expiry only spends coins
    subst hvn
    exact ⟨fun o c hc => hresn.coins o c (Iff.mp expiredCoins_eq_some hc).2, hresn.sorted⟩
  · have := List.length_pos_of_ne_nil hne
    rw [hvtx, hlen]
    omega
  · rw [UnexpireNames, if_neg (Nat.succ_ne_zero H), hcs, hund.vexpired]
    simpa [CBlockUndo.empty] using hun
  · simpa using hund.coins undo.vtxundo (by rw [hvtx]) vn true
  · rw [hvname, hN]
    simpa [CBlockUndo.empty] using hNundo view.coins

/-- Connecting a block keeps the view restorable. -/
theorem Restorable.connectBlock (hr : ExpiryRules params.rules) (hpos : 0 < H)
    (hchain : ChainAssumptions params H [vtx]) (hcb : checkBlockCoinbase vtx = .ok ())
    (hfresh : ∀ tx ∈ vtx, tx.GetHash ∉ seen) (hinv : Consistent params.rules fNameHistory H seen view)
    (hres : Restorable view)
    (hconn : ConnectBlock params Hash160 fNameHistory flags H view vtx = .ok (view', undo, expired)) :
    Restorable view' :=
  (ConnectBlock_undoes hr hpos hchain hcb hfresh hinv hres hconn).1

/-- Disconnecting a block at `H` with the undo data `ConnectBlock` wrote for it
gives back, exactly, the view from before the block, and unexpires exactly the
names the block expired. -/
theorem DisconnectBlock_ConnectBlock (hr : ExpiryRules params.rules) (hpos : 0 < H)
    (hchain : ChainAssumptions params H [vtx]) (hcb : checkBlockCoinbase vtx = .ok ())
    (hfresh : ∀ tx ∈ vtx, tx.GetHash ∉ seen) (hinv : Consistent params.rules fNameHistory H seen view)
    (hres : Restorable view)
    (hconn : ConnectBlock params Hash160 fNameHistory flags H view vtx = .ok (view', undo, expired)) :
    DisconnectBlock params fNameHistory H view' vtx undo = .ok (.DISCONNECT_OK, view, expired) := by
  obtain ⟨-, vn, hsize, hunexp, htxsundo, hnames⟩ :=
    ConnectBlock_undoes hr hpos hchain hcb hfresh hinv hres hconn
  simp only [List.foldlM_reverse] at hnames
  simp [DisconnectBlock, hsize, hunexp, htxsundo, hnames]

end Block

/-! ## A chain -/

namespace ChainAssumptions

variable {params : CChainParams} {h : Nat} {l₁ l₂ : List (List CTransaction)}

theorem append_left (hc : ChainAssumptions params h (l₁ ++ l₂)) : ChainAssumptions params h l₁ where
  txs p hp := hc.txs p (by rw [List.zipIdx_append]; exact List.mem_append_left _ hp)
  txids := by
    have htxids := hc.txids
    rw [List.flatten_append, List.map_append, List.nodup_append] at htxids
    exact htxids.1
  height := by
    have hheight := hc.height
    rw [List.length_append] at hheight
    omega

theorem append_right (hc : ChainAssumptions params h (l₁ ++ l₂)) :
    ChainAssumptions params (h + l₁.length) l₂ where
  txs p hp := hc.txs p (by rw [List.zipIdx_append]; exact List.mem_append_right _ hp)
  txids := by
    have htxids := hc.txids
    rw [List.flatten_append, List.map_append, List.nodup_append] at htxids
    exact htxids.2.1
  height := by
    have hheight := hc.height
    rw [List.length_append] at hheight
    omega

end ChainAssumptions

section Chain

variable {params : CChainParams} {Hash160 : valtype → valtype} {fNameHistory : Bool}
  {flags : NameFlags}

/-- Blocks from a positive height `h` on, each passing the coinbase checks,
are rejected, or keep the chain state consistent and restorable, with the
txids of the blocks, the last first, before those seen before. -/
theorem connectBlocks_restorable (hr : ExpiryRules params.rules) :
    ∀ {blocks : List (List CTransaction)} {h : Nat} {seen : List uint256} {view : CoinsView},
      0 < h → ChainAssumptions params h blocks → (∀ vtx ∈ blocks, checkBlockCoinbase vtx = .ok ()) →
      (∀ tx ∈ blocks.flatten, tx.GetHash ∉ seen) →
      Consistent params.rules fNameHistory h seen view → Restorable view →
      Post Rejection (fun view' => Consistent params.rules fNameHistory (h + blocks.length)
          ((blocks.flatten.map CTransaction.GetHash).reverse ++ seen) view' ∧ Restorable view')
        (connectBlocks params Hash160 fNameHistory flags h view blocks)
  | [], h, seen, view, _, _, _, _, hinv, hres => ⟨by simpa using hinv, hres⟩
  | vtx :: rest, h, seen, view, hpos, hc, hcb, hfresh, hinv, hres => by
    obtain ⟨htxs, hnd, hH⟩ := hc.head
    have hfresh0 : ∀ tx ∈ vtx, tx.GetHash ∉ seen :=
      fun tx htx => hfresh tx (List.mem_flatten_of_mem List.mem_cons_self htx)
    have hblock : ChainAssumptions params h [vtx] :=
      ChainAssumptions.append_left (show ChainAssumptions params h ([vtx] ++ rest) from hc)
    rw [Namecoin.Names.connectBlocks]
    refine Post.bind (hinv.connectBlock hr hH htxs hnd hfresh0) ?_
    rintro ⟨view', undo', names⟩ hconn hacc
    have hres' := Restorable.connectBlock hr hpos hblock (hcb vtx List.mem_cons_self) hfresh0 hinv
      hres hconn
    -- the later blocks add txids new to the first block and to `seen`
    have hfresh' : ∀ tx ∈ rest.flatten,
        tx.GetHash ∉ (vtx.map CTransaction.GetHash).reverse ++ seen := by
      intro tx htx hmem
      rcases List.mem_append.mp hmem with hv | hs
      · exact hc.fresh_tail htx (List.mem_reverse.mp hv)
      · exact hfresh tx (by rw [List.flatten_cons]; exact List.mem_append_right _ htx) hs
    refine (connectBlocks_restorable hr (Nat.succ_pos h) hc.tail
      (fun b hb => hcb b (List.mem_cons_of_mem _ hb)) hfresh' hacc hres').imp ?_
    rintro view'' ⟨hinv'', hres''⟩
    refine ⟨?_, hres''⟩
    rw [List.length_cons, ← Nat.add_assoc, Nat.add_right_comm]
    simpa [List.flatten_cons, List.map_append, List.reverse_append, List.append_assoc] using hinv''

/-- From every chain state reached from the empty one by connecting blocks at
heights 1, 2, ..., connecting one more block and disconnecting it with the
undo data it wrote gives back that state, and unexpires exactly the names the
block expired. -/
theorem DisconnectBlock_connectBlocks (hr : ExpiryRules params.rules)
    {blocks : List (List CTransaction)} {vtx : List CTransaction} {view view' : CoinsView}
    {undo : CBlockUndo} {expired : List valtype}
    (hc : ChainAssumptions params 1 (blocks ++ [vtx]))
    (hcb : ∀ b ∈ blocks ++ [vtx], checkBlockCoinbase b = .ok ())
    (hprev : connectBlocks params Hash160 fNameHistory flags 1 CoinsView.empty blocks = .ok view)
    (hconn : ConnectBlock params Hash160 fNameHistory flags (1 + blocks.length) view vtx =
      .ok (view', undo, expired)) :
    DisconnectBlock params fNameHistory (1 + blocks.length) view' vtx undo =
      .ok (.DISCONNECT_OK, view, expired) := by
  have hrun := @connectBlocks_restorable params Hash160 fNameHistory flags hr blocks 1 [] _
    Nat.one_pos hc.append_left (fun b hb => hcb b (List.mem_append_left _ hb))
    (fun _ _ h => List.not_mem_nil h) consistent_empty restorable_empty
  rw [hprev] at hrun
  obtain ⟨hinv, hres⟩ := hrun
  -- the txids of the last block are new
  have hfresh : ∀ tx ∈ vtx,
      tx.GetHash ∉ (blocks.flatten.map CTransaction.GetHash).reverse ++ [] := by
    intro tx htx hmem
    have hnd := hc.txids
    rw [List.flatten_append, List.map_append, List.nodup_append] at hnd
    rw [List.append_nil, List.mem_reverse] at hmem
    exact hnd.2.2 _ hmem _ (List.mem_map_of_mem (by simpa using htx)) rfl
  exact DisconnectBlock_ConnectBlock hr (by omega) hc.append_right (hcb vtx (by simp)) hfresh hinv
    hres hconn

/-- A coinbase without name scripts. -/
def plainCoinbase : CTransaction :=
  ⟨7, 1, [⟨⟨0, NULL_INDEX⟩⟩], [⟨50, [0x76, 0xa9]⟩]⟩

/-- A coinbase of the second block. -/
def secondCoinbase : CTransaction :=
  ⟨8, 1, [⟨⟨0, NULL_INDEX⟩⟩], [⟨50, [0x76, 0xa9]⟩]⟩

/-- A transaction of the second block that spends the coin of `plainCoinbase`. -/
def spendTx : CTransaction :=
  ⟨9, 1, [⟨⟨7, 0⟩⟩], [⟨40, [0x76, 0xa9]⟩]⟩

/-- Two blocks on the empty chain state, the second spending the coin of the
first. -/
theorem DisconnectBlock_connectBlocks_spend :
    ChainAssumptions mainParams 1 ([[plainCoinbase]] ++ [[secondCoinbase, spendTx]]) ∧
      (∀ b ∈ [[plainCoinbase]] ++ [[secondCoinbase, spendTx]], checkBlockCoinbase b = .ok ()) ∧
      ∃ view r, connectBlocks mainParams id false ⟨false, false⟩ 1 CoinsView.empty [[plainCoinbase]] =
          .ok view ∧
        ConnectBlock mainParams id false ⟨false, false⟩ 2 view [secondCoinbase, spendTx] = .ok r ∧
        DisconnectBlock mainParams false 2 r.1 [secondCoinbase, spendTx] r.2.1 =
          .ok (.DISCONNECT_OK, view, r.2.2) := by
  have hc : ChainAssumptions mainParams 1 ([[plainCoinbase]] ++ [[secondCoinbase, spendTx]]) := by
    decide
  have hcb : ∀ b ∈ [[plainCoinbase]] ++ [[secondCoinbase, spendTx]], checkBlockCoinbase b = .ok () := by
    simp only [List.cons_append, List.nil_append, List.mem_cons, List.not_mem_nil, or_false,
      forall_eq_or_imp, forall_eq]
    exact ⟨rfl, rfl⟩
  obtain ⟨view, hprev⟩ : ∃ view, connectBlocks mainParams id false ⟨false, false⟩ 1 CoinsView.empty
      [[plainCoinbase]] = .ok view := ⟨_, rfl⟩
  obtain ⟨r, hconn⟩ : ∃ r, (connectBlocks mainParams id false ⟨false, false⟩ 1 CoinsView.empty
      [[plainCoinbase]] >>= fun view => ConnectBlock mainParams id false ⟨false, false⟩ 2 view
        [secondCoinbase, spendTx]) = .ok r := ⟨_, rfl⟩
  rw [hprev, ok_bind] at hconn
  exact ⟨hc, hcb, view, r, hprev, hconn,
    @DisconnectBlock_connectBlocks mainParams id false ⟨false, false⟩ mainNet_expiryRules
      [[plainCoinbase]] [secondCoinbase, spendTx] view r.1 r.2.1 r.2.2 hc hcb hprev hconn⟩

end Chain

end Namecoin.Names
