import Namecoin.Names.Main
import Namecoin.Lib.ExceptM

/-! # What `CheckNameTransaction` establishes

The two loops of `CheckNameTransaction` look for the name input and the name
output. Both are described by a list: `nameInputs` and `nameOutputs` hold
every input coin and every output that is a name script, with its position.
A loop succeeds when that list has at most one entry, and returns it
(`findNameIn_ok`, `findNameOut_ok`). A transaction that passes the check is
then one of four kinds (`CheckedNameTx`): no name operation at all, a
`NAME_NEW`, a `NAME_UPDATE` of an existing unexpired name, or a
`NAME_FIRSTUPDATE` of a name that is free. The check stops on an `assert`
only in the cases `CheckNameTransaction_assertion` lists: the database
disagrees with the coin of a `NAME_UPDATE`, or the `NAME_NEW` coin of a
`NAME_FIRSTUPDATE` is pending or holds a hash that is not 20 bytes long. -/

namespace Namecoin.Names
open Namecoin.Script Lib.ExceptM

/-- The inputs from position `i` on whose coin is a name script: position,
script and coin. -/
def nameInputs (view : CoinsView) : Nat → List CTxIn → List (Nat × CNameScript × Coin)
  | _, [] => []
  | i, txin :: rest =>
    match view.GetCoin txin.prevout with
    | some coin =>
      if (CNameScript.ofScript coin.out.scriptPubKey).isNameOp then
        (i, CNameScript.ofScript coin.out.scriptPubKey, coin) :: nameInputs view (i + 1) rest
      else nameInputs view (i + 1) rest
    | none => nameInputs view (i + 1) rest

@[simp] theorem nameInputs_nil {view : CoinsView} {i : Nat} : nameInputs view i [] = [] := rfl

theorem nameInputs_cons {view : CoinsView} {i : Nat} {txin : CTxIn} {rest : List CTxIn} :
    nameInputs view i (txin :: rest) =
      match view.coins txin.prevout with
      | some coin =>
        if (CNameScript.ofScript coin.out.scriptPubKey).isNameOp then
          (i, CNameScript.ofScript coin.out.scriptPubKey, coin) :: nameInputs view (i + 1) rest
        else nameInputs view (i + 1) rest
      | none => nameInputs view (i + 1) rest := rfl

/-- The outputs from position `i` on that are name scripts: position and script. -/
def nameOutputs : Nat → List CTxOut → List (Nat × CNameScript)
  | _, [] => []
  | i, txout :: rest =>
    if (CNameScript.ofScript txout.scriptPubKey).isNameOp then
      (i, CNameScript.ofScript txout.scriptPubKey) :: nameOutputs (i + 1) rest
    else nameOutputs (i + 1) rest

@[simp] theorem nameOutputs_nil {i : Nat} : nameOutputs i [] = [] := rfl

theorem nameOutputs_cons {i : Nat} {txout : CTxOut} {rest : List CTxOut} :
    nameOutputs i (txout :: rest) =
      if (CNameScript.ofScript txout.scriptPubKey).isNameOp then
        (i, CNameScript.ofScript txout.scriptPubKey) :: nameOutputs (i + 1) rest
      else nameOutputs (i + 1) rest := rfl

theorem mem_nameInputs_cons {view : CoinsView} {i : Nat} {txin : CTxIn} {rest : List CTxIn} {x} :
    x ∈ nameInputs view i (txin :: rest) ↔
      (∃ coin, view.coins txin.prevout = some coin ∧
        (CNameScript.ofScript coin.out.scriptPubKey).isNameOp ∧
        x = (i, CNameScript.ofScript coin.out.scriptPubKey, coin)) ∨
      x ∈ nameInputs view (i + 1) rest := by
  rw [nameInputs_cons]
  cases hc : view.coins txin.prevout with
  | none => simp
  | some coin =>
    by_cases hn : (CNameScript.ofScript coin.out.scriptPubKey).isNameOp <;> simp [hn]

theorem mem_nameInputs {view : CoinsView} : ∀ {i : Nat} {vin : List CTxIn} {x},
    x ∈ nameInputs view i vin ↔ ∃ j txin coin, vin[j]? = some txin ∧
      view.coins txin.prevout = some coin ∧
      (CNameScript.ofScript coin.out.scriptPubKey).isNameOp ∧
      x = (i + j, CNameScript.ofScript coin.out.scriptPubKey, coin) := by
  intro i vin
  -- induction on the inputs, the position of the first one moving up
  induction vin generalizing i with
  | nil => simp
  | cons txin rest ih =>
    intro x
    rw [mem_nameInputs_cons, ih]
    constructor
    · rintro (⟨c, hc, hn, rfl⟩ | ⟨j, t, c, hj, hc, hn, rfl⟩)
      · exact ⟨0, txin, c, rfl, hc, hn, rfl⟩
      · exact ⟨j + 1, t, c, by simpa using hj, hc, hn, by rw [Nat.add_assoc, Nat.add_comm 1 j]⟩
    · rintro ⟨j, t, c, hj, hc, hn, rfl⟩
      cases j with
      | zero =>
        simp only [List.getElem?_cons_zero, Option.some.injEq] at hj
        subst hj
        exact .inl ⟨c, hc, hn, rfl⟩
      | succ j =>
        exact .inr ⟨j, t, c, by simpa using hj, hc, hn, by rw [Nat.add_assoc, Nat.add_comm 1 j]⟩

theorem mem_nameOutputs : ∀ {i : Nat} {vout : List CTxOut} {x},
    x ∈ nameOutputs i vout ↔ ∃ j txout, vout[j]? = some txout ∧
      (CNameScript.ofScript txout.scriptPubKey).isNameOp ∧
      x = (i + j, CNameScript.ofScript txout.scriptPubKey) := by
  intro i vout
  induction vout generalizing i with
  | nil => simp
  | cons txout rest ih =>
    intro x
    have hcons : x ∈ nameOutputs i (txout :: rest) ↔
        ((CNameScript.ofScript txout.scriptPubKey).isNameOp ∧
          x = (i, CNameScript.ofScript txout.scriptPubKey)) ∨ x ∈ nameOutputs (i + 1) rest := by
      by_cases hn : (CNameScript.ofScript txout.scriptPubKey).isNameOp <;> simp [nameOutputs_cons, hn]
    rw [hcons, ih]
    constructor
    · rintro (⟨hn, rfl⟩ | ⟨j, t, hj, hn, rfl⟩)
      · exact ⟨0, txout, rfl, hn, rfl⟩
      · exact ⟨j + 1, t, by simpa using hj, hn, by rw [Nat.add_assoc, Nat.add_comm 1 j]⟩
    · rintro ⟨j, t, hj, hn, rfl⟩
      cases j with
      | zero =>
        simp only [List.getElem?_cons_zero, Option.some.injEq] at hj
        subst hj
        exact .inl ⟨hn, rfl⟩
      | succ j => exact .inr ⟨j, t, by simpa using hj, hn, by rw [Nat.add_assoc, Nat.add_comm 1 j]⟩

theorem nameOutputs_eq_nil : ∀ {i : Nat} {vout : List CTxOut},
    (∀ txout ∈ vout, (CNameScript.ofScript txout.scriptPubKey).isNameOp = false) →
    nameOutputs i vout = [] := by
  intro i vout
  induction vout generalizing i with
  | nil => intro _; rfl
  | cons txout rest ih =>
    intro h
    have hrest := @ih (i + 1) fun t ht => h t (List.mem_cons_of_mem _ ht)
    simp [nameOutputs_cons, h txout (List.mem_cons_self ..), hrest]

/-- With no name output, no output is a name script. -/
theorem not_nameOp_of_nameOutputs_nil {vout : List CTxOut} (h : nameOutputs 0 vout = [])
    {j : Nat} {txout : CTxOut} (hj : vout[j]? = some txout) :
    (CNameScript.ofScript txout.scriptPubKey).isNameOp = false := by
  cases hn : (CNameScript.ofScript txout.scriptPubKey).isNameOp
  · rfl
  · have hmem : (j, CNameScript.ofScript txout.scriptPubKey) ∈ nameOutputs 0 vout :=
      Iff.mpr mem_nameOutputs ⟨j, txout, hj, hn, by simp⟩
    rw [h] at hmem
    cases hmem

/-- With one name output `(k, op)`, a name script among the outputs is that one. -/
theorem eq_of_nameOutputs_singleton {vout : List CTxOut} {k : Nat} {op : CNameScript}
    (h : nameOutputs 0 vout = [(k, op)]) {j : Nat} {txout : CTxOut} (hj : vout[j]? = some txout)
    (hn : (CNameScript.ofScript txout.scriptPubKey).isNameOp) :
    j = k ∧ CNameScript.ofScript txout.scriptPubKey = op := by
  have hmem : (j, CNameScript.ofScript txout.scriptPubKey) ∈ nameOutputs 0 vout :=
    Iff.mpr mem_nameOutputs ⟨j, txout, hj, hn, by simp⟩
  rw [h, List.mem_singleton] at hmem
  simp only [Prod.mk.injEq] at hmem
  exact hmem

theorem get_of_nameOutputs_singleton {vout : List CTxOut} {k : Nat} {op : CNameScript}
    (h : nameOutputs 0 vout = [(k, op)]) :
    ∃ txout, vout[k]? = some txout ∧ CNameScript.ofScript txout.scriptPubKey = op ∧ op.isNameOp := by
  obtain ⟨j, txout, hj, hn, heq⟩ := Iff.mp mem_nameOutputs (h ▸ List.mem_singleton_self _)
  simp only [Nat.zero_add, Prod.mk.injEq] at heq
  obtain ⟨rfl, rfl⟩ := heq
  exact ⟨txout, hj, rfl, hn⟩

/-- With no name input, no input coin is a name script. -/
theorem not_nameOp_of_nameInputs_nil {view : CoinsView} {vin : List CTxIn}
    (h : nameInputs view 0 vin = []) {txin : CTxIn} (ht : txin ∈ vin) {coin : Coin}
    (hc : view.coins txin.prevout = some coin) :
    (CNameScript.ofScript coin.out.scriptPubKey).isNameOp = false := by
  obtain ⟨j, hj⟩ := List.mem_iff_getElem?.mp ht
  cases hn : (CNameScript.ofScript coin.out.scriptPubKey).isNameOp
  · rfl
  · have hmem : (j, CNameScript.ofScript coin.out.scriptPubKey, coin) ∈ nameInputs view 0 vin :=
      Iff.mpr mem_nameInputs ⟨j, txin, coin, hj, hc, hn, by simp⟩
    rw [h] at hmem
    cases hmem

/-- With one name input, a name script among the input coins is its coin. -/
theorem eq_of_nameInputs_singleton {view : CoinsView} {vin : List CTxIn} {nIn : Nat}
    {opIn : CNameScript} {coinIn : Coin} (h : nameInputs view 0 vin = [(nIn, opIn, coinIn)])
    {txin : CTxIn} (ht : txin ∈ vin) {coin : Coin} (hc : view.coins txin.prevout = some coin)
    (hn : (CNameScript.ofScript coin.out.scriptPubKey).isNameOp) :
    coin = coinIn ∧ CNameScript.ofScript coin.out.scriptPubKey = opIn := by
  obtain ⟨j, hj⟩ := List.mem_iff_getElem?.mp ht
  have hmem : (j, CNameScript.ofScript coin.out.scriptPubKey, coin) ∈ nameInputs view 0 vin :=
    Iff.mpr mem_nameInputs ⟨j, txin, coin, hj, hc, hn, by simp⟩
  rw [h, List.mem_singleton] at hmem
  simp only [Prod.mk.injEq] at hmem
  exact ⟨hmem.2.2, hmem.2.1⟩

theorem get_of_nameInputs_singleton {view : CoinsView} {vin : List CTxIn} {nIn : Nat}
    {opIn : CNameScript} {coinIn : Coin} (h : nameInputs view 0 vin = [(nIn, opIn, coinIn)]) :
    ∃ txin, vin[nIn]? = some txin ∧ view.coins txin.prevout = some coinIn ∧
      CNameScript.ofScript coinIn.out.scriptPubKey = opIn ∧ opIn.isNameOp := by
  obtain ⟨j, txin, coin, hj, hc, hn, heq⟩ := Iff.mp mem_nameInputs (h ▸ List.mem_singleton_self _)
  simp only [Nat.zero_add, Prod.mk.injEq] at heq
  obtain ⟨rfl, rfl, rfl⟩ := heq
  exact ⟨txin, hj, hc, rfl, hn⟩

/-! ## The two loops -/

/-- The input loop succeeds when every input coin exists and at most one is a
name script, which it returns (or the one found before). -/
theorem findNameIn_ok {view : CoinsView} {i : Nat} {vin : List CTxIn} {found r}
    (h : findNameIn view i vin found = .ok r) :
    (∀ txin ∈ vin, ∃ coin, view.coins txin.prevout = some coin) ∧
    ((nameInputs view i vin = [] ∧ r = found) ∨
      (found = none ∧ ∃ x, nameInputs view i vin = [x] ∧ r = some x)) := by
  induction vin generalizing i found with
  | nil =>
    simp only [findNameIn_nil, Except.ok.injEq] at h
    exact ⟨by simp, .inl ⟨rfl, h.symm⟩⟩
  | cons txin rest ih =>
    rw [findNameIn_cons] at h
    cases hc : view.coins txin.prevout with
    | none => simp [hc] at h
    | some coin =>
      simp only [hc] at h
      by_cases hn : (CNameScript.ofScript coin.out.scriptPubKey).isNameOp
      · -- the name input: none may have been found before, none may follow
        cases found with
        | some _ => simp [hn] at h
        | none =>
          simp only [hn, if_true, Option.isSome_none, Bool.false_eq_true, if_false] at h
          obtain ⟨hex, hrest⟩ := ih h
          refine ⟨?_, ?_⟩
          · intro t ht
            rcases List.mem_cons.mp ht with rfl | ht
            · exact ⟨coin, hc⟩
            · exact hex t ht
          · rcases hrest with ⟨hnil, rfl⟩ | ⟨hnone, -⟩
            · exact .inr ⟨rfl, _, by simp [nameInputs_cons, hc, hn, hnil], rfl⟩
            · cases hnone
      · simp only [hn, Bool.false_eq_true, if_false] at h
        obtain ⟨hex, hrest⟩ := ih h
        have hnames : nameInputs view i (txin :: rest) = nameInputs view (i + 1) rest := by
          simp [nameInputs_cons, hc, hn]
        refine ⟨?_, hnames ▸ hrest⟩
        intro t ht
        rcases List.mem_cons.mp ht with rfl | ht
        · exact ⟨coin, hc⟩
        · exact hex t ht

theorem findNameIn_ne_assertion {view : CoinsView} {i : Nat} {vin : List CTxIn} {found} :
    findNameIn view i vin found ≠ .error .assertion := by
  induction vin generalizing i found with
  | nil => simp
  | cons txin rest ih =>
    rw [findNameIn_cons]
    cases view.coins txin.prevout with
    | none => simp
    | some coin =>
      simp only
      split
      · split
        · simp
        · exact ih
      · exact ih

/-- The output loop succeeds when at most one output is a name script. -/
theorem findNameOut_ok {i : Nat} {vout : List CTxOut} {found r}
    (h : findNameOut i vout found = .ok r) :
    (nameOutputs i vout = [] ∧ r = found) ∨
      (found = none ∧ ∃ x, nameOutputs i vout = [x] ∧ r = some x) := by
  induction vout generalizing i found with
  | nil =>
    simp only [findNameOut_nil, Except.ok.injEq] at h
    exact .inl ⟨rfl, h.symm⟩
  | cons txout rest ih =>
    rw [findNameOut_cons] at h
    by_cases hn : (CNameScript.ofScript txout.scriptPubKey).isNameOp
    · cases found with
      | some _ => simp [hn] at h
      | none =>
        simp only [hn, if_true, Option.isSome_none, Bool.false_eq_true, if_false] at h
        rcases ih h with ⟨hnil, rfl⟩ | ⟨hnone, -⟩
        · exact .inr ⟨rfl, _, by simp [nameOutputs_cons, hn, hnil], rfl⟩
        · cases hnone
    · simp only [hn, Bool.false_eq_true, if_false] at h
      have hnames : nameOutputs i (txout :: rest) = nameOutputs (i + 1) rest := by
        simp [nameOutputs_cons, hn]
      exact hnames ▸ ih h

theorem findNameOut_ne_assertion {i : Nat} {vout : List CTxOut} {found} :
    findNameOut i vout found ≠ .error .assertion := by
  induction vout generalizing i found with
  | nil => simp
  | cons txout rest ih =>
    rw [findNameOut_cons]
    split
    · split
      · simp
      · exact ih
    · exact ih

/-! ## The checks of a name update -/

theorem checkNameUpdate_ok {rules tx nHeight view nIn nameOpIn coinIn name}
    (h : checkNameUpdate rules tx nHeight view nIn nameOpIn coinIn name = .ok ()) :
    nameOpIn.isAnyUpdate ∧ name = nameOpIn.getOpName ∧
      (coinIn.nHeight ≠ MEMPOOL_HEIGHT → ∃ oldName, view.GetName name = some oldName ∧
        oldName.isExpired rules nHeight = false) := by
  delta checkNameUpdate at h
  simp only [bind_eq_ok, rejectIf_eq_ok, Bool.not_eq_false',
    decide_eq_false_iff_not, Decidable.not_not] at h
  obtain ⟨_, hup, _, hname, h⟩ := h
  refine ⟨hup, hname, fun hmem => ?_⟩
  rw [if_neg hmem] at h
  cases hold : view.GetName name with
  | none => simp [hold] at h
  | some oldName =>
    simp only [hold, bind_eq_ok, rejectIf_eq_ok] at h
    obtain ⟨_, hexp, _⟩ := h
    exact ⟨oldName, rfl, hexp⟩

theorem checkNameUpdate_assertion {rules tx nHeight view nIn nameOpIn coinIn name}
    (h : checkNameUpdate rules tx nHeight view nIn nameOpIn coinIn name = .error .assertion) :
    nameOpIn.isAnyUpdate ∧ name = nameOpIn.getOpName ∧
    coinIn.nHeight ≠ MEMPOOL_HEIGHT ∧ ∃ oldName, view.GetName name = some oldName ∧
      oldName.isExpired rules nHeight = false ∧
      (coinIn.nHeight ≠ oldName.nHeight ∨
        (tx.vin.getD nIn ⟨⟨0, NULL_INDEX⟩⟩).prevout ≠ oldName.prevout) := by
  delta checkNameUpdate at h
  simp only [bind_eq_error, rejectIf_ne_assertion, false_or, rejectIf_eq_ok,
    Bool.not_eq_false', decide_eq_false_iff_not, Decidable.not_not] at h
  obtain ⟨_, hup, _, hname, h⟩ := h
  by_cases hmem : coinIn.nHeight = MEMPOOL_HEIGHT
  · simp [hmem] at h
  · rw [if_neg hmem] at h
    refine ⟨hup, hname, hmem, ?_⟩
    cases hold : view.GetName name with
    | none => simp [hold] at h
    | some oldName =>
      simp only [hold, bind_eq_error, rejectIf_ne_assertion, false_or, rejectIf_eq_ok,
        assertThat_eq_error, and_true, assertThat_eq_ok] at h
      obtain ⟨_, hexp, h⟩ := h
      refine ⟨oldName, rfl, hexp, ?_⟩
      rcases h with hh | ⟨_, hh, hp⟩
      · exact .inl hh
      · exact .inr hp

theorem checkNameFirstUpdate_ok {rules Hash160 nHeight view flags nameOpOut nameOpIn coinIn name}
    (h : checkNameFirstUpdate rules Hash160 nHeight view flags nameOpOut nameOpIn coinIn name
      = .ok ()) :
    nameOpIn.op = .OP_NAME_NEW ∧
      ∀ oldName, view.GetName name = some oldName → oldName.isExpired rules nHeight = true := by
  delta checkNameFirstUpdate at h
  simp only [bind_eq_ok, rejectIf_eq_ok, decide_eq_false_iff_not,
    Decidable.not_not] at h
  obtain ⟨_, hnew, _, _, _, _, _, _, _, _, _, _, h⟩ := h
  refine ⟨hnew, fun oldName hold => ?_⟩
  simpa [hold] using h

theorem checkNameFirstUpdate_assertion
    {rules Hash160 nHeight view flags nameOpOut nameOpIn coinIn name}
    (h : checkNameFirstUpdate rules Hash160 nHeight view flags nameOpOut nameOpIn coinIn name
      = .error .assertion) :
    nameOpIn.op = .OP_NAME_NEW ∧
      ((flags.SCRIPT_VERIFY_NAMES_MEMPOOL = false ∧ coinIn.nHeight = MEMPOOL_HEIGHT) ∨
        nameOpIn.getOpHash.length ≠ 20) := by
  delta checkNameFirstUpdate at h
  simp only [bind_eq_error, rejectIf_ne_assertion, false_or, rejectIf_eq_ok,
    decide_eq_false_iff_not, Decidable.not_not] at h
  obtain ⟨_, hnew, h⟩ := h
  refine ⟨hnew, ?_⟩
  rcases h with hm | ⟨_, _, h⟩
  · -- the assertion in the maturity check
    cases hf : flags.SCRIPT_VERIFY_NAMES_MEMPOOL
    · simp only [hf, Bool.not_false, if_true, bind_eq_error, assertThat_eq_error,
        Decidable.not_not, and_true, rejectIf_ne_assertion] at hm
      rcases hm with hm | ⟨_, _, hm⟩
      · exact .inl ⟨rfl, hm⟩
      · simp at hm
    · simp [hf] at hm
  · simp only [assertThat_eq_error, and_true, assertThat_eq_ok] at h
    obtain ⟨_, _, _, _, h⟩ := h
    rcases h with hh | ⟨_, hh, h⟩
    · exact .inr hh
    · cases hold : view.GetName name <;> simp [hold] at h

/-! ## The whole check -/

/-- What a transaction that passes `CheckNameTransaction` does with names. -/
inductive CheckedNameTx (rules : ConsensusRules) (nHeight : Nat) (view : CoinsView)
    (tx : CTransaction) : Prop where
  /-- no name input and no name output -/
  | nonName (hnc : tx.IsNamecoin = false) (hin : nameInputs view 0 tx.vin = [])
      (hout : nameOutputs 0 tx.vout = [])
  /-- a `NAME_NEW` with a 20-byte hash and no name input -/
  | nameNew (nOut : Nat) (op : CNameScript) (hnc : tx.IsNamecoin = true)
      (hout : nameOutputs 0 tx.vout = [(nOut, op)]) (hop : op.op = .OP_NAME_NEW)
      (hin : nameInputs view 0 tx.vin = []) (hhash : op.getOpHash.length = 20)
  /-- a `NAME_UPDATE` spending an update of the same name, which the database
  holds unexpired unless the name input is pending -/
  | nameUpdate (nOut : Nat) (op : CNameScript) (nIn : Nat) (opIn : CNameScript) (coinIn : Coin)
      (hnc : tx.IsNamecoin = true) (hout : nameOutputs 0 tx.vout = [(nOut, op)])
      (hin : nameInputs view 0 tx.vin = [(nIn, opIn, coinIn)]) (hop : op.op = .OP_NAME_UPDATE)
      (hprev : opIn.isAnyUpdate) (hname : op.getOpName = opIn.getOpName)
      (hdb : coinIn.nHeight ≠ MEMPOOL_HEIGHT → ∃ oldName, view.GetName op.getOpName = some oldName ∧
        oldName.isExpired rules nHeight = false)
  /-- a `NAME_FIRSTUPDATE` spending a `NAME_NEW`, of a name the database does
  not hold unexpired -/
  | firstUpdate (nOut : Nat) (op : CNameScript) (nIn : Nat) (opIn : CNameScript) (coinIn : Coin)
      (hnc : tx.IsNamecoin = true) (hout : nameOutputs 0 tx.vout = [(nOut, op)])
      (hin : nameInputs view 0 tx.vin = [(nIn, opIn, coinIn)])
      (hop : op.op = .OP_NAME_FIRSTUPDATE) (hprev : opIn.op = .OP_NAME_NEW)
      (hdb : ∀ oldName, view.GetName op.getOpName = some oldName →
        oldName.isExpired rules nHeight = true)

/-- A name script that is neither `NAME_NEW` nor `NAME_UPDATE` is a `NAME_FIRSTUPDATE`. -/
theorem op_eq_firstUpdate {op : CNameScript} (hn : op.isNameOp) (hnew : op.op ≠ .OP_NAME_NEW)
    (hup : op.op ≠ .OP_NAME_UPDATE) : op.op = .OP_NAME_FIRSTUPDATE := by
  cases hop : op.op <;> simp_all [CNameScript.isNameOp]

theorem CheckNameTransaction_ok {params Hash160 tx nHeight view flags}
    (hbug : IsHistoricBug params.mapHistoricBugs tx.GetHash nHeight = none)
    (h : CheckNameTransaction params Hash160 tx nHeight view flags = .ok ()) :
    (∀ txin ∈ tx.vin, ∃ coin, view.coins txin.prevout = some coin) ∧
      CheckedNameTx params.rules nHeight view tx := by
  delta CheckNameTransaction at h
  simp only [hbug, Option.isSome_none, Bool.false_eq_true, if_false,
    bind_eq_ok] at h
  obtain ⟨nameIn, hin, nameOut, hout, h⟩ := h
  obtain ⟨hcoins, hins⟩ := findNameIn_ok hin
  refine ⟨hcoins, ?_⟩
  rcases findNameOut_ok hout with ⟨houts, rfl⟩ | ⟨-, ⟨nOut, op⟩, houts, rfl⟩
  · -- no name output: only a non-name transaction passes
    cases hnc : tx.IsNamecoin
    · simp only [hnc, Bool.not_false, if_true, bind_eq_ok, rejectIf_eq_ok,
        Option.isSome_none] at h
      obtain ⟨_, hsome, -⟩ := h
      rcases hins with ⟨hinl, -⟩ | ⟨-, x, -, rfl⟩
      · exact .nonName hnc hinl houts
      · simp at hsome
    · simp [hnc] at h
  · have hn : op.isNameOp := by
      have hmem : (nOut, op) ∈ nameOutputs 0 tx.vout := by simp [houts]
      obtain ⟨j, t, -, hn, heq⟩ := Iff.mp mem_nameOutputs hmem
      simp only [Prod.mk.injEq] at heq
      exact heq.2 ▸ hn
    cases hnc : tx.IsNamecoin
    · simp [hnc] at h
    simp only [hnc, Bool.not_true, Bool.false_eq_true, if_false, bind_eq_ok, rejectIf_eq_ok] at h
    obtain ⟨_, -, h⟩ := h
    by_cases hnew : op.op = .OP_NAME_NEW
    · simp only [hnew, if_true, bind_eq_ok, rejectIf_eq_ok, decide_eq_false_iff_not,
        Decidable.not_not] at h
      obtain ⟨_, hsome, hhash⟩ := h
      rcases hins with ⟨hinl, rfl⟩ | ⟨-, x, -, rfl⟩
      · exact .nameNew nOut op hnc houts hnew hinl hhash
      · simp at hsome
    · simp only [hnew, if_false] at h
      rcases hins with ⟨-, rfl⟩ | ⟨-, ⟨nIn, opIn, coinIn⟩, hinl, rfl⟩
      · simp at h
      simp only [bind_eq_ok, rejectIf_eq_ok] at h
      obtain ⟨_, -, _, -, h⟩ := h
      by_cases hup : op.op = .OP_NAME_UPDATE
      · rw [if_pos hup] at h
        obtain ⟨hprev, hname, hdb⟩ := checkNameUpdate_ok h
        exact .nameUpdate nOut op nIn opIn coinIn hnc houts hinl hup hprev hname hdb
      · rw [if_neg hup] at h
        obtain ⟨hprev, hdb⟩ := checkNameFirstUpdate_ok h
        exact .firstUpdate nOut op nIn opIn coinIn hnc houts hinl (op_eq_firstUpdate hn hnew hup)
          hprev hdb

/-- Where `CheckNameTransaction` stops on an `assert`: at a name update whose
input coin disagrees with the database entry of its name, or at a
`NAME_FIRSTUPDATE` whose `NAME_NEW` coin is pending outside the mempool or
holds a hash of another size than 20 bytes. -/
theorem CheckNameTransaction_assertion {params Hash160 tx nHeight view flags}
    (h : CheckNameTransaction params Hash160 tx nHeight view flags = .error .assertion) :
    ∃ nOut op nIn opIn coinIn, nameOutputs 0 tx.vout = [(nOut, op)] ∧
      nameInputs view 0 tx.vin = [(nIn, opIn, coinIn)] ∧
      ((op.op = .OP_NAME_UPDATE ∧ opIn.isAnyUpdate ∧ op.getOpName = opIn.getOpName ∧
          coinIn.nHeight ≠ MEMPOOL_HEIGHT ∧ ∃ oldName, view.GetName op.getOpName = some oldName ∧
            oldName.isExpired params.rules nHeight = false ∧
            (coinIn.nHeight ≠ oldName.nHeight ∨
              (tx.vin.getD nIn ⟨⟨0, NULL_INDEX⟩⟩).prevout ≠ oldName.prevout)) ∨
        (opIn.op = .OP_NAME_NEW ∧
          ((flags.SCRIPT_VERIFY_NAMES_MEMPOOL = false ∧ coinIn.nHeight = MEMPOOL_HEIGHT) ∨
            opIn.getOpHash.length ≠ 20))) := by
  by_cases hbug : (IsHistoricBug params.mapHistoricBugs tx.GetHash nHeight).isSome
  all_goals delta CheckNameTransaction at h
  · simp [hbug] at h
  simp only [hbug, Bool.false_eq_true, if_false, bind_eq_error,
    findNameIn_ne_assertion, findNameOut_ne_assertion, false_or] at h
  obtain ⟨nameIn, hin, nameOut, hout, h⟩ := h
  obtain ⟨-, hins⟩ := findNameIn_ok hin
  rcases findNameOut_ok hout with ⟨-, rfl⟩ | ⟨-, ⟨nOut, op⟩, houts, rfl⟩
  · -- without a name output there are only rejections
    cases hnc : tx.IsNamecoin <;> simp [hnc] at h
  cases hnc : tx.IsNamecoin
  · simp [hnc] at h
  simp only [hnc, Bool.not_true, Bool.false_eq_true, if_false, bind_eq_error,
    rejectIf_ne_assertion, false_or, rejectIf_eq_ok] at h
  obtain ⟨_, -, h⟩ := h
  by_cases hnew : op.op = .OP_NAME_NEW
  · simp [hnew] at h
  simp only [hnew, if_false] at h
  rcases hins with ⟨-, rfl⟩ | ⟨-, ⟨nIn, opIn, coinIn⟩, hinl, rfl⟩
  · simp at h
  simp only [bind_eq_error, rejectIf_ne_assertion, false_or, rejectIf_eq_ok] at h
  obtain ⟨_, -, _, -, h⟩ := h
  refine ⟨nOut, op, nIn, opIn, coinIn, houts, hinl, ?_⟩
  by_cases hup : op.op = .OP_NAME_UPDATE
  · rw [if_pos hup] at h
    exact .inl ⟨hup, checkNameUpdate_assertion h⟩
  · rw [if_neg hup] at h
    exact .inr (checkNameFirstUpdate_assertion h)

end Namecoin.Names
