import Namecoin.Names.Consistency

/-! # Connecting blocks keeps the name database consistent

A transaction of a block is checked (`checkTx`) and then applied; from a
consistent state it is either rejected, or leaves a consistent state
(`Consistent.connectTx`). This needs what the node does not check: that the
transaction is no historic bug, that its txid is new, that a coinbase holds no
name script, that the coin of an update is spendable, and that a name whose
expiry falls on height 175868 is ASCII and no `d/postmortem`
(`TxAssumptions`). A block is its transactions and the expiry after them
(`Consistent.connectBlock`), and a chain is its blocks
(`Consistent.connectBlocks`). -/

namespace Namecoin.Names
open Namecoin.Script Lib.ExceptM

/-- The assumptions on a transaction of the block at height `H` that the node
does not check itself. -/
structure TxAssumptions (params : CChainParams) (H : Nat) (tx : CTransaction) : Prop where
  noBug : IsHistoricBug params.mapHistoricBugs tx.GetHash H = none
  coinbase : tx.IsCoinBase = true →
    ∀ txout ∈ tx.vout, (CNameScript.ofScript txout.scriptPubKey).isNameOp = false
  scriptSize : ∀ txout ∈ tx.vout, (updatedName txout.scriptPubKey).isSome = true →
    IsUnspendable txout.scriptPubKey = false
  special : expiresAt params.rules H 175868 → ∀ txout ∈ tx.vout,
    (updatedName txout.scriptPubKey).all (fun name => IsStringValidAscii name && name != postmortem)
      = true

instance (params : CChainParams) (H : Nat) (tx : CTransaction) :
    Decidable (TxAssumptions params H tx) :=
  decidable_of_iff (_ ∧ _ ∧ _ ∧ _)
    ⟨fun ⟨a, b, c, d⟩ => ⟨a, b, c, d⟩, fun ⟨a, b, c, d⟩ => ⟨a, b, c, d⟩⟩

/-- What `ConnectBlock` may end with besides success: a rejection. -/
abbrev Rejection (e : Failure) : Prop := e.isInvalid = true

/-- The output loop of `CheckTransaction` rejects, or passes outputs whose
values are not negative. -/
theorem checkOutputValues_post : ∀ (nValueOut : Int) (vout : List CTxOut),
    Post Rejection (fun _ => ∀ txout ∈ vout, 0 ≤ txout.nValue) (checkOutputValues nValueOut vout)
  | _, [] => by simp [checkOutputValues]
  | nValueOut, txout :: rest => by
    unfold checkOutputValues
    split_ifs with hneg
    · rfl
    · rfl
    · rfl
    · refine (checkOutputValues_post _ rest).imp fun _ h t ht => ?_
      rcases List.mem_cons.mp ht with rfl | ht
      · omega
      · exact h t ht

/-- The checks reject, or pass a transaction whose output values are not
negative and which is a coinbase, or has distinct inputs and is accepted by
`CheckNameTransaction`. -/
theorem checkTx_post {params Hash160 flags nHeight view tx}
    (hne : CheckNameTransaction params Hash160 tx nHeight view flags ≠ .error .assertion) :
    Post Rejection (fun _ => (∀ txout ∈ tx.vout, 0 ≤ txout.nValue) ∧
        (tx.IsCoinBase = true ∨ ((tx.vin.map CTxIn.prevout).Nodup ∧
          CheckNameTransaction params Hash160 tx nHeight view flags = .ok ())))
      (checkTx params Hash160 flags nHeight view tx) := by
  unfold checkTx
  refine Post.bind (checkOutputValues_post 0 tx.vout) fun _ _ hval => ?_
  refine Post.imp ?_ fun _ h => ⟨hval, h⟩
  cases hcb : tx.IsCoinBase
  · by_cases hnd : (tx.vin.map CTxIn.prevout).Nodup
    · simp only [Bool.false_eq_true, if_false, hnd, decide_true, Bool.not_true]
      cases hc : CheckNameTransaction params Hash160 tx nHeight view flags with
      | error e =>
        cases e with
        | invalid _ reason _ => simp [Rejection, Failure.isInvalid]
        | assertion => exact absurd hc hne
      | ok u => simp
    · simp [hnd, Rejection, Failure.isInvalid]
  · simp

section Tx

variable {params : CChainParams} {fNameHistory : Bool} {H : Nat} {seen : List uint256}
  {view : CoinsView} {tx : CTransaction}

theorem spends_of_getElem? {j : Nat} {txin : CTxIn} (hcb : tx.IsCoinBase = false)
    (hj : tx.vin[j]? = some txin) : spends tx txin.prevout :=
  ⟨hcb, List.mem_map_of_mem (List.mem_of_getElem? hj)⟩

theorem exists_input_of_spends {o : COutPoint} (hs : spends tx o) :
    ∃ txin ∈ tx.vin, txin.prevout = o := List.mem_map.mp hs.2

/-- A transaction without name inputs spends no update coin. -/
theorem spent_of_nameInputs_nil (hin : nameInputs view 0 tx.vin = []) :
    ∀ o c, spends tx o → view.coins o = some c → updatedName c.out.scriptPubKey = none := by
  intro o c hs hc
  obtain ⟨txin, ht, rfl⟩ := exists_input_of_spends hs
  exact updatedName_of_not_nameOp (not_nameOp_of_nameInputs_nil hin ht hc)

/-- Applying a transaction with no update output changes no name. -/
theorem applyName_of_no_update (hmem : H ≠ MEMPOOL_HEIGHT) (htx : TxAssumptions params H tx)
    {view1 : CoinsView} {undo : CBlockUndo}
    (hout : tx.IsNamecoin = true → nameOutputs 0 tx.vout = [] ∨
      ∃ nOut op, nameOutputs 0 tx.vout = [(nOut, op)] ∧ op.op = .OP_NAME_NEW) :
    ApplyNameTransaction params fNameHistory tx H view1 undo = .ok (view1, undo) := by
  rw [ApplyNameTransaction_of_noBug hmem htx.noBug]
  cases hnc : tx.IsNamecoin
  · rfl
  · rcases hout hnc with hnil | ⟨nOut, op, hsingle, hop⟩
    · simp [applyNameOutputs_of_nil hnil]
    · simp [applyNameOutputs_of_single hsingle, CNameScript.isAnyUpdate, hop]

/-- Applying a checked name update writes it with `SetName`, and keeps the
invariant: every update coin the transaction spends is of the same name,
and the old coin of the name is spent unless it has expired. -/
theorem Consistent.applyUpdate (hr : ExpiryRules params.rules)
    (hinv : Consistent params.rules fNameHistory H seen view) (hfresh : tx.GetHash ∉ seen)
    (hmem : H ≠ MEMPOOL_HEIGHT) (htx : TxAssumptions params H tx)
    {nOut : Nat} {op : CNameScript} (hnc : tx.IsNamecoin = true)
    (hout : nameOutputs 0 tx.vout = [(nOut, op)])
    (hop : op.op = .OP_NAME_UPDATE ∨ op.op = .OP_NAME_FIRSTUPDATE)
    (hspent : ∀ o c name', spends tx o → view.coins o = some c →
      updatedName c.out.scriptPubKey = some name' → name' = op.getOpName)
    (hold : ∀ old, view.names op.getOpName = some old →
      isExpired params.rules old.nHeight H = false → spends tx old.prevout)
    (undo : CBlockUndo) :
    ∃ acc, ApplyNameTransaction params fNameHistory tx H
        { view with coins := updatedCoins tx H view.coins } undo = .ok acc ∧
      Consistent params.rules fNameHistory H (tx.GetHash :: seen) acc.1 := by
  obtain ⟨txout, hk, hscript, hn⟩ := get_of_nameOutputs_singleton hout
  have hup : op.isAnyUpdate := by
    rcases hop with hop | hop <;> simp [CNameScript.isAnyUpdate, hop]
  have hname : updatedName txout.scriptPubKey = some op.getOpName := by
    rw [updatedName_of_update (hscript ▸ hop), hscript]
  have htxout : txout ∈ tx.vout := List.mem_of_getElem? hk
  obtain ⟨view', hset, hcoins, hnames, hidx, hhist⟩ :=
    @SetName_spec fNameHistory { view with coins := updatedCoins tx H view.coins } op.getOpName
      (CNameData.fromScript H ⟨tx.GetHash, nOut⟩ op) (fun _ old hold => hinv.historyTop _ old hold)
  rw [ApplyNameTransaction_of_noBug hmem htx.noBug, if_pos hnc,
    applyNameOutputs_of_single hout, if_pos hup, hset, ok_bind]
  refine ⟨_, rfl, hinv.name_step hr hfresh hk hname
    (htx.scriptSize txout htxout (by simp [hname])) ?_ hspent (fun old h1 h2 => hold old h1 (by simpa using h2))
    ?_ rfl rfl hcoins hnames hidx hhist⟩
  · intro j txout' hj hne
    cases hn' : (CNameScript.ofScript txout'.scriptPubKey).isNameOp
    · rfl
    · exact absurd (eq_of_nameOutputs_singleton hout hj hn').1 hne
  · intro hx
    have h := htx.special hx txout htxout
    simp only [hname, Option.all_some, Bool.and_eq_true, bne_iff_ne, ne_eq] at h
    exact h

/-- A transaction of a block at `H` is rejected, or keeps the invariant. -/
theorem Consistent.connectTx (hr : ExpiryRules params.rules) {Hash160 flags}
    (hinv : Consistent params.rules fNameHistory H seen view) (hH : H < MEMPOOL_HEIGHT)
    (htx : TxAssumptions params H tx) (hfresh : tx.GetHash ∉ seen) (undo : CBlockUndo)
    (i : Nat) :
    Post Rejection (fun acc => Consistent params.rules fNameHistory H (tx.GetHash :: seen) acc.1)
      (connectTx params Hash160 fNameHistory flags H (view, undo) i tx) := by
  have hmem : H ≠ MEMPOOL_HEIGHT := Nat.ne_of_lt hH
  have hnone := hinv.no_coin_of_fresh hfresh
  unfold Namecoin.Names.connectTx
  refine Post.bind (checkTx_post (hinv.checkName_ne_assertion hH)) fun _ _ ⟨hval, hchk⟩ => ?_
  have hnull : ∀ txout ∈ tx.vout, txout.IsNull = false := fun t ht => CTxOut.IsNull_eq_false (hval t ht)
  by_cases hcb : tx.IsCoinBase = true
  · -- the coinbase: no name script, nothing spent
    obtain ⟨txundo, hupd⟩ := @UpdateCoins_spec tx view H
      (fun h => by rw [hcb] at h; cases h) (.inl hcb) hnull
    have hnot := htx.coinbase hcb
    simp only [hupd, ok_bind]
    rw [applyName_of_no_update hmem htx fun _ => .inl (nameOutputs_eq_nil hnot)]
    refine hinv.coins_step hfresh (fun o c hs => absurd hcb (by rw [hs.1]; simp))
      (fun j txout hj => updatedName_of_not_nameOp (hnot txout (List.mem_of_getElem? hj)))
      (fun j txout hj hop => ?_)
    have := hnot txout (List.mem_of_getElem? hj)
    rw [CNameScript.isNameOp_eq_false, hop] at this
    cases this
  have hcb' : tx.IsCoinBase = false := by simpa using hcb
  obtain ⟨hnodup, hcheck⟩ := hchk.resolve_left hcb
  obtain ⟨hcoins, hkind⟩ := CheckNameTransaction_ok htx.noBug hcheck
  obtain ⟨txundo, hupd⟩ := @UpdateCoins_spec tx view H (fun _ => ⟨hnodup, hcoins⟩) (.inr hnone) hnull
  simp only [hupd, ok_bind]
  cases hkind with
  | nonName hnc hin hout =>
    rw [applyName_of_no_update hmem htx fun h => by rw [hnc] at h; cases h]
    refine hinv.coins_step hfresh (spent_of_nameInputs_nil hin)
      (fun j txout hj => updatedName_of_not_nameOp (not_nameOp_of_nameOutputs_nil hout hj))
      (fun j txout hj hop => ?_)
    have := not_nameOp_of_nameOutputs_nil hout hj
    rw [CNameScript.isNameOp_eq_false, hop] at this
    cases this
  | nameNew nOut op hnc hout hop hin hhash =>
    rw [applyName_of_no_update hmem htx fun _ => .inr ⟨nOut, op, hout, hop⟩]
    -- the one name output is the `NAME_NEW`
    have hnew : ∀ (j : Nat) (txout : CTxOut), tx.vout[j]? = some txout →
        (CNameScript.ofScript txout.scriptPubKey).isNameOp →
        CNameScript.ofScript txout.scriptPubKey = op :=
      fun j txout hj hn => (eq_of_nameOutputs_singleton hout hj hn).2
    refine hinv.coins_step hfresh (spent_of_nameInputs_nil hin) (fun j txout hj => ?_)
      (fun j txout hj hop' => ?_)
    · cases hn : (CNameScript.ofScript txout.scriptPubKey).isNameOp
      · exact updatedName_of_not_nameOp hn
      · exact updatedName_of_new (by rw [hnew j txout hj hn, hop])
    · have hn : (CNameScript.ofScript txout.scriptPubKey).isNameOp := by
        simp [CNameScript.isNameOp, hop']
      rw [hnew j txout hj hn]
      exact hhash
  | nameUpdate nOut op nIn opIn coinIn hnc hout hin hop hprev hname hdb =>
    -- the only update coin spent is the name input, of the same name
    have hspent : ∀ o c name', spends tx o → view.coins o = some c →
        updatedName c.out.scriptPubKey = some name' → name' = op.getOpName := by
      intro o c name' hs hc hcn
      obtain ⟨hn, -, hget⟩ := Iff.mp updatedName_eq_some hcn
      obtain ⟨txin, ht, rfl⟩ := exists_input_of_spends hs
      obtain ⟨rfl, hop'⟩ := eq_of_nameInputs_singleton hin ht hc hn
      rw [← hget, hop', hname]
    -- the name input is the coin the database names
    have hold : ∀ old, view.names op.getOpName = some old →
        isExpired params.rules old.nHeight H = false → spends tx old.prevout := by
      intro old hold _
      obtain ⟨txin0, hj0, hc0, hs0, hn0⟩ := get_of_nameInputs_singleton hin
      have hupd0 : updatedName coinIn.out.scriptPubKey = some op.getOpName := by
        rw [updatedName_eq_some, hs0, hname]
        exact ⟨hn0, hprev, rfl⟩
      obtain ⟨d, hd, hpo, -⟩ := hinv.nameOfCoin _ _ _ hc0 hupd0
      rw [hd] at hold
      cases hold
      rw [hpo]
      exact spends_of_getElem? hcb' hj0
    obtain ⟨acc, happ, hacc⟩ :=
      hinv.applyUpdate hr hfresh hmem htx hnc hout (.inl hop) hspent hold _
    rw [happ]
    exact hacc
  | firstUpdate nOut op nIn opIn coinIn hnc hout hin hop hprev hdb =>
    -- the name input is a `NAME_NEW`, no update
    have hspent : ∀ o c name', spends tx o → view.coins o = some c →
        updatedName c.out.scriptPubKey = some name' → name' = op.getOpName := by
      intro o c name' hs hc hcn
      obtain ⟨hn, -, -⟩ := Iff.mp updatedName_eq_some hcn
      obtain ⟨txin, ht, rfl⟩ := exists_input_of_spends hs
      obtain ⟨-, hop'⟩ := eq_of_nameInputs_singleton hin ht hc hn
      rw [updatedName_of_new (by rw [hop', hprev])] at hcn
      cases hcn
    -- a name is registered again only once it has expired
    have hold : ∀ old, view.names op.getOpName = some old →
        isExpired params.rules old.nHeight H = false → spends tx old.prevout := by
      intro old hold hexp
      have := hdb old hold
      rw [CNameData.isExpired_eq, hexp] at this
      cases this
    obtain ⟨acc, happ, hacc⟩ :=
      hinv.applyUpdate hr hfresh hmem htx hnc hout (.inr hop) hspent hold _
    rw [happ]
    exact hacc

end Tx

/-- The assumptions on a chain of blocks at heights `h`, `h + 1`, ...: every
transaction meets `TxAssumptions` at the height of its block, no txid occurs
twice, and the height after the last block is below `MEMPOOL_HEIGHT`. -/
structure ChainAssumptions (params : CChainParams) (h : Nat)
    (blocks : List (List CTransaction)) : Prop where
  txs : ∀ p ∈ blocks.zipIdx h, ∀ tx ∈ p.1, TxAssumptions params p.2 tx
  txids : (blocks.flatten.map CTransaction.GetHash).Nodup
  height : h + blocks.length < MEMPOOL_HEIGHT

instance (params : CChainParams) (h : Nat) (blocks : List (List CTransaction)) :
    Decidable (ChainAssumptions params h blocks) :=
  decidable_of_iff (_ ∧ _ ∧ _)
    ⟨fun ⟨a, b, c⟩ => ⟨a, b, c⟩, fun ⟨a, b, c⟩ => ⟨a, b, c⟩⟩

namespace ChainAssumptions

variable {params : CChainParams} {h : Nat} {vtx : List CTransaction}
  {rest : List (List CTransaction)}

theorem head (hc : ChainAssumptions params h (vtx :: rest)) :
    (∀ tx ∈ vtx, TxAssumptions params h tx) ∧ (vtx.map CTransaction.GetHash).Nodup ∧
      h < MEMPOOL_HEIGHT := by
  have htxids := hc.txids
  rw [List.flatten_cons, List.map_append, List.nodup_append] at htxids
  have hheight := hc.height
  rw [List.length_cons] at hheight
  exact ⟨hc.txs (vtx, h) (by simp), htxids.1, by omega⟩

theorem tail (hc : ChainAssumptions params h (vtx :: rest)) :
    ChainAssumptions params (h + 1) rest where
  txs p hp := hc.txs p (by rw [List.zipIdx_cons]; exact List.mem_cons_of_mem _ hp)
  txids := by
    have htxids := hc.txids
    rw [List.flatten_cons, List.map_append, List.nodup_append] at htxids
    exact htxids.2.1
  height := by
    have hheight := hc.height
    rw [List.length_cons] at hheight
    omega

/-- The txids of the later blocks are not among those of the first. -/
theorem fresh_tail (hc : ChainAssumptions params h (vtx :: rest)) {tx : CTransaction}
    (htx : tx ∈ rest.flatten) : tx.GetHash ∉ vtx.map CTransaction.GetHash := by
  have htxids := hc.txids
  rw [List.flatten_cons, List.map_append, List.nodup_append] at htxids
  intro hmem
  exact htxids.2.2 _ hmem _ (List.mem_map_of_mem htx) rfl

end ChainAssumptions

section Run

variable {params : CChainParams} {fNameHistory : Bool} {H : Nat}

/-- The transactions of a block at `H` are rejected, or keep the invariant; the
txids they add to the coins are theirs. -/
theorem Consistent.connectTxs (hr : ExpiryRules params.rules) {Hash160 flags}
    (hH : H < MEMPOOL_HEIGHT) {txs : List CTransaction}
    (htxs : ∀ tx ∈ txs, TxAssumptions params H tx) (hnd : (txs.map CTransaction.GetHash).Nodup)
    {seen : List uint256} (hfresh : ∀ tx ∈ txs, tx.GetHash ∉ seen) {view : CoinsView}
    (hinv : Consistent params.rules fNameHistory H seen view) (undo : CBlockUndo) (i : Nat) :
    Post Rejection (fun acc => Consistent params.rules fNameHistory H
        ((txs.map CTransaction.GetHash).reverse ++ seen) acc.1)
      (connectTxs params Hash160 fNameHistory flags H i txs (view, undo)) := by
  -- induction on the transactions, each turn adding one txid to `seen`
  induction txs generalizing seen view undo i with
  | nil => simpa [Namecoin.Names.connectTxs] using hinv
  | cons tx rest ih =>
    rw [List.map_cons, List.nodup_cons] at hnd
    have hfresh' : ∀ t ∈ rest, t.GetHash ∉ tx.GetHash :: seen := by
      intro t ht hmem
      rcases List.mem_cons.mp hmem with heq | hs
      · exact hnd.1 (heq ▸ List.mem_map_of_mem ht)
      · exact hfresh t (List.mem_cons_of_mem _ ht) hs
    rw [Namecoin.Names.connectTxs]
    refine Post.bind (hinv.connectTx hr hH (htxs tx (List.mem_cons_self ..))
      (hfresh tx (List.mem_cons_self ..)) undo i) ?_
    rintro ⟨view', undo'⟩ - hacc
    have hrest := ih (fun t ht => htxs t (List.mem_cons_of_mem _ ht)) hnd.2 hfresh' hacc undo' (i + 1)
    simpa using hrest

/-- A block at `H` is rejected, or keeps the invariant, which then holds at
`H + 1`. -/
theorem Consistent.connectBlock (hr : ExpiryRules params.rules) {Hash160 flags}
    (hH : H < MEMPOOL_HEIGHT) {vtx : List CTransaction}
    (htxs : ∀ tx ∈ vtx, TxAssumptions params H tx) (hnd : (vtx.map CTransaction.GetHash).Nodup)
    {seen : List uint256} (hfresh : ∀ tx ∈ vtx, tx.GetHash ∉ seen) {view : CoinsView}
    (hinv : Consistent params.rules fNameHistory H seen view) :
    Post Rejection (fun r => Consistent params.rules fNameHistory (H + 1)
        ((vtx.map CTransaction.GetHash).reverse ++ seen) r.1)
      (ConnectBlock params Hash160 fNameHistory flags H view vtx) := by
  unfold ConnectBlock
  refine Post.bind (hinv.connectTxs hr hH htxs hnd hfresh .empty 0) ?_
  rintro ⟨view', undo'⟩ - hacc
  obtain ⟨view'', undo'', names, hexp, hinv'⟩ := hacc.expireNames hr hH undo'
  dsimp only
  rw [hexp]
  exact hinv'

/-- A chain of blocks from `h` on is rejected, or keeps the invariant, which
then holds at the height after its last block. -/
theorem Consistent.connectBlocks (hr : ExpiryRules params.rules) {Hash160 flags} :
    ∀ {blocks : List (List CTransaction)} {h : Nat} {seen : List uint256} {view : CoinsView},
      ChainAssumptions params h blocks → (∀ tx ∈ blocks.flatten, tx.GetHash ∉ seen) →
      Consistent params.rules fNameHistory h seen view →
      Post Rejection (fun view' => ∃ seen', Consistent params.rules fNameHistory
          (h + blocks.length) seen' view')
        (connectBlocks params Hash160 fNameHistory flags h view blocks)
  | [], h, seen, view, _, _, hinv => ⟨seen, hinv⟩
  | vtx :: rest, h, seen, view, hc, hfresh, hinv => by
    obtain ⟨htxs, hnd, hH⟩ := hc.head
    rw [Namecoin.Names.connectBlocks]
    refine Post.bind (hinv.connectBlock hr hH htxs hnd
      (fun tx htx => hfresh tx (List.mem_flatten_of_mem List.mem_cons_self htx))) ?_
    rintro ⟨view', undo', names⟩ - hacc
    -- the later blocks add txids new to the first block and to `seen`
    have hfresh' : ∀ tx ∈ rest.flatten,
        tx.GetHash ∉ (vtx.map CTransaction.GetHash).reverse ++ seen := by
      intro tx htx hmem
      rcases List.mem_append.mp hmem with hv | hs
      · exact hc.fresh_tail htx (List.mem_reverse.mp hv)
      · exact hfresh tx (by rw [List.flatten_cons]; exact List.mem_append_right _ htx) hs
    refine (Consistent.connectBlocks hr hc.tail hfresh' hacc).imp ?_
    rintro view'' ⟨seen', hinv''⟩
    refine ⟨seen', ?_⟩
    rwa [List.length_cons, ← Nat.add_assoc, Nat.add_right_comm]

end Run

end Namecoin.Names
