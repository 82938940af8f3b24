import Namecoin.Names.View
import Namecoin.Lib.Chain
import Namecoin.Lib.ExceptM
import Namecoin.Script.NameBuild

/-! # The name index of the mempool (names/mempool.cpp)

`CNameMemPool` indexes the name transactions of the pool: `mapNameRegs` holds
the pending registration of each name, `updates` the set of its pending
updates. `lastNameOutput` finds the outpoint a new update of a name has to
spend. Among the pending updates it takes the one whose txid no input of
another candidate spends from. It compares txids, not outpoints. That is
enough because no pool transaction spends, directly or through others, from
itself: a txid hashes the transaction and the outpoints it spends
(`CTxMemPool.parents_wf`). So when the updates form a chain, each is spent
from by the next one and the last by none (`spent_iff_ne_getLast`), and the
second loop meets the last one only (`lastNameOutput_chain`). -/

namespace Namecoin.Names
open Namecoin.Script

/-- `a` is a parent of `b`: the pool transaction `b` spends an output of `a`. -/
def ParentOf (mapTx : uint256 → Option CTransaction) (a b : uint256) : Prop :=
  ∃ tx, mapTx b = some tx ∧ ∃ txin ∈ tx.vin, txin.prevout.hash = a

/-- The transactions of `CTxMemPool::mapTx`, by txid. -/
structure CTxMemPool where
  mapTx : uint256 → Option CTransaction
  /-- Going back from a transaction to its parents ends: a txid is the hash of
  the transaction with the outpoints it spends, so no cycle can be built. -/
  parents_wf : WellFounded (ParentOf mapTx)

/-- A pool whose transactions spend only from smaller txids has well-founded
parents. -/
theorem parents_wf_of_lt {mapTx : uint256 → Option CTransaction}
    (h : ∀ b tx, mapTx b = some tx → ∀ txin ∈ tx.vin, txin.prevout.hash < b) :
    WellFounded (ParentOf mapTx) :=
  Subrelation.wf (fun {_ b} ⟨tx, htx, txin, hin, ha⟩ => ha ▸ h b tx htx txin hin) Nat.lt_wfRel.wf

/-- `COutPoint ()`. -/
def COutPoint.null : COutPoint := ⟨0, NULL_INDEX⟩

/-- The loop of `getNameOutput` from output `i` on: the first output whose
script is a name operation. -/
def nameOutputFrom (txid : uint256) : Nat → List CTxOut → COutPoint
  | _, [] => COutPoint.null
  | i, txout :: vout =>
    if (CNameScript.ofScript txout.scriptPubKey).isNameOp then ⟨txid, i⟩
    else nameOutputFrom txid (i + 1) vout

/-- `getNameOutput (pool, txid)`, which asserts that `txid` is in the pool. -/
def getNameOutput (pool : CTxMemPool) (txid : uint256) : Except Failure COutPoint :=
  match pool.mapTx txid with
  | none => .error .assertion
  | some tx => .ok (nameOutputFrom txid 0 tx.vout)

theorem null_isNull : COutPoint.null.IsNull = true := rfl

theorem nameOutputFrom_nil (txid : uint256) (i : Nat) : nameOutputFrom txid i [] = COutPoint.null :=
  rfl

theorem nameOutputFrom_cons (txid : uint256) (i : Nat) (txout : CTxOut) (vout : List CTxOut) :
    nameOutputFrom txid i (txout :: vout) =
      if (CNameScript.ofScript txout.scriptPubKey).isNameOp then ⟨txid, i⟩
      else nameOutputFrom txid (i + 1) vout := rfl

/-- A name output that is found lies in the transaction it was looked up in. -/
theorem nameOutputFrom_hash (txid : uint256) :
    ∀ (i : Nat) (vout : List CTxOut), (nameOutputFrom txid i vout).IsNull = false →
      (nameOutputFrom txid i vout).hash = txid
  | i, [], h => by
    rw [nameOutputFrom_nil, null_isNull] at h
    cases h
  | i, txout :: vout, h => by
    rw [nameOutputFrom_cons] at h ⊢
    split
    · rfl
    · rename_i hop
      rw [if_neg hop] at h
      exact nameOutputFrom_hash txid (i + 1) vout h

theorem getNameOutput_hash {pool : CTxMemPool} {txid : uint256} {out : COutPoint}
    (h : getNameOutput pool txid = .ok out) (hnull : out.IsNull = false) : out.hash = txid := by
  unfold getNameOutput at h
  split at h
  · cases h
  · cases h
    exact nameOutputFrom_hash txid 0 _ hnull

theorem isSome_of_getNameOutput {pool : CTxMemPool} {txid : uint256} {out : COutPoint}
    (h : getNameOutput pool txid = .ok out) : (pool.mapTx txid).isSome := by
  unfold getNameOutput at h
  split at h
  · cases h
  · rename_i tx htx
    simp [htx]

structure CNameMemPool where
  pool : CTxMemPool
  mapNameRegs : valtype → Option uint256
  /-- `updates`: each name's `std::set` of txids -/
  updates : valtype → Option (List uint256)
  updates_nodup : ∀ name txids, updates name = some txids → txids.Nodup

namespace CNameMemPool

def registersName (m : CNameMemPool) (name : valtype) : Bool := (m.mapNameRegs name).isSome

def pendingChainLength (m : CNameMemPool) (name : valtype) : Nat :=
  (if m.registersName name then 1 else 0) +
    match m.updates name with
    | some txids => txids.length
    | none => 0

/-- The first loop of `lastNameOutput`: the inputs of each candidate add the
txids they spend from to `spentTxids`. -/
def collectSpent (pool : CTxMemPool) : List uint256 → List uint256 → Except Failure (List uint256)
  | spentTxids, [] => .ok spentTxids
  | spentTxids, txid :: txids =>
    match pool.mapTx txid with
    | none => .error .assertion
    | some tx =>
      collectSpent pool (Lib.OrdSet.union spentTxids (tx.vin.map fun txin => txin.prevout.hash))
        txids

/-- The second loop of `lastNameOutput`: each candidate that is not spent from
asserts that no result was found before it and becomes the result. -/
def findUnspent (pool : CTxMemPool) (spentTxids : List uint256) :
    COutPoint → List uint256 → Except Failure COutPoint
  | res, [] => .ok res
  | res, txid :: txids =>
    if txid ∈ spentTxids then findUnspent pool spentTxids res txids
    else if !res.IsNull then .error .assertion
    else getNameOutput pool txid >>= fun res => findUnspent pool spentTxids res txids

def lastNameOutput (m : CNameMemPool) (name : valtype) : Except Failure COutPoint :=
  match m.updates name with
  | some candidateTxids =>
    collectSpent m.pool [] candidateTxids >>= fun spentTxids =>
    findUnspent m.pool spentTxids COutPoint.null candidateTxids >>= fun res =>
    if res.IsNull then .error .assertion else .ok res
  | none =>
    match m.mapNameRegs name with
    | some txid => getNameOutput m.pool txid
    | none => .ok COutPoint.null

theorem collectSpent_cons (pool : CTxMemPool) (spentTxids : List uint256) (txid : uint256)
    (txids : List uint256) :
    collectSpent pool spentTxids (txid :: txids) =
      match pool.mapTx txid with
      | none => .error .assertion
      | some tx => collectSpent pool
          (Lib.OrdSet.union spentTxids (tx.vin.map fun txin => txin.prevout.hash)) txids := rfl

theorem findUnspent_cons (pool : CTxMemPool) (spentTxids : List uint256) (res : COutPoint)
    (txid : uint256) (txids : List uint256) :
    findUnspent pool spentTxids res (txid :: txids) =
      if txid ∈ spentTxids then findUnspent pool spentTxids res txids
      else if !res.IsNull then .error .assertion
      else getNameOutput pool txid >>= fun res => findUnspent pool spentTxids res txids := rfl

/-- When every candidate is in the pool, the first loop collects exactly the
parents of the candidates. -/
theorem collectSpent_ok (pool : CTxMemPool) :
    ∀ (spent cands : List uint256), (∀ c ∈ cands, (pool.mapTx c).isSome) →
      ∃ r, collectSpent pool spent cands = .ok r ∧
        ∀ x, x ∈ r ↔ x ∈ spent ∨ ∃ c ∈ cands, ParentOf pool.mapTx x c
  | spent, [], _ => ⟨spent, rfl, by simp⟩
  | spent, c :: cands, hin => by
    obtain ⟨tx, htx⟩ := Option.isSome_iff_exists.mp (hin c List.mem_cons_self)
    obtain ⟨r, hr, hmem⟩ := collectSpent_ok pool
      (Lib.OrdSet.union spent (tx.vin.map fun txin => txin.prevout.hash)) cands
      fun c' hc' => hin c' (List.mem_cons_of_mem c hc')
    have hparent : ∀ x, ParentOf pool.mapTx x c ↔
        x ∈ tx.vin.map fun txin => txin.prevout.hash := by
      simp [ParentOf, htx]
    refine ⟨r, by rw [collectSpent_cons, htx]; exact hr, fun x => ?_⟩
    rw [hmem, Lib.OrdSet.mem_union]
    simp only [List.mem_cons, or_and_right, exists_or, exists_eq_left, hparent]
    tauto

/-- When every candidate is spent from, the second loop keeps its result. -/
theorem findUnspent_of_spent (pool : CTxMemPool) (spent : List uint256) :
    ∀ (res : COutPoint) (cands : List uint256), (∀ c ∈ cands, c ∈ spent) →
      findUnspent pool spent res cands = .ok res
  | _, [], _ => rfl
  | res, c :: cands, h => by
    rw [findUnspent_cons, if_pos (h c List.mem_cons_self)]
    exact findUnspent_of_spent pool spent res cands fun c' hc' => h c' (List.mem_cons_of_mem c hc')

/-- When exactly one candidate `t` is not spent from, the second loop finds its
name output. -/
theorem findUnspent_unique (pool : CTxMemPool) (spent : List uint256) {t : uint256}
    {out : COutPoint} (hout : getNameOutput pool t = .ok out) (ht : t ∉ spent) :
    ∀ cands : List uint256, cands.Nodup → t ∈ cands → (∀ c ∈ cands, c ≠ t → c ∈ spent) →
      findUnspent pool spent COutPoint.null cands = .ok out
  | [], _, hmem, _ => absurd hmem List.not_mem_nil
  | c :: cands, hnd, hmem, hspent => by
    obtain ⟨hc, hnd⟩ := List.nodup_cons.mp hnd
    have hrest : ∀ c' ∈ cands, c' ≠ t → c' ∈ spent :=
      fun c' hc' => hspent c' (List.mem_cons_of_mem c hc')
    by_cases hct : c = t
    · subst hct
      rw [findUnspent_cons, if_neg ht, if_neg (by decide), hout]
      exact findUnspent_of_spent pool spent out cands
        fun c' hc' => hrest c' hc' fun h => hc (h ▸ hc')
    · rw [findUnspent_cons, if_pos (hspent c List.mem_cons_self hct)]
      have ht' : t ∈ cands := (List.mem_cons.mp hmem).resolve_left fun h => hct h.symm
      exact findUnspent_unique pool spent hout ht cands hnd ht' hrest

end CNameMemPool

/-! ## A chain of pending updates -/

/-- `chain` lists pending name updates in spending order: each is in the pool
with a name output, and each after the first spends an output of the one before
it. -/
structure UpdateChain (pool : CTxMemPool) (chain : List uint256) : Prop where
  ne_nil : chain ≠ []
  nameOutput : ∀ t ∈ chain, ∃ out, getNameOutput pool t = .ok out ∧ out.IsNull = false
  spends : chain.IsChain (ParentOf pool.mapTx)

namespace UpdateChain

variable {pool : CTxMemPool} {chain : List uint256}

/-- Updates that each spend the name output of the one before form a chain. -/
theorem of_spendsNameOutput (hne : chain ≠ [])
    (hout : ∀ t ∈ chain, ∃ out, getNameOutput pool t = .ok out ∧ out.IsNull = false)
    (hspends : chain.IsChain fun a b =>
      ∃ tx, pool.mapTx b = some tx ∧ ∃ txin ∈ tx.vin, getNameOutput pool a = .ok txin.prevout) :
    UpdateChain pool chain := by
  refine ⟨hne, hout, hspends.imp_of_mem_imp fun a b ha _ ⟨tx, htx, txin, hin, ha'⟩ =>
    ⟨tx, htx, txin, hin, ?_⟩⟩
  obtain ⟨out, hout', hnull⟩ := hout a ha
  rw [ha'] at hout'
  cases hout'
  exact getNameOutput_hash ha' hnull

/-- Of the chain's members, all but the last are spent from by another member. -/
theorem spent_iff_ne_getLast (hc : UpdateChain pool chain) {t : uint256} (ht : t ∈ chain) :
    (∃ c ∈ chain, ParentOf pool.mapTx t c) ↔ t ≠ chain.getLast hc.ne_nil := by
  constructor
  · rintro ⟨c, hc', hpar⟩ rfl
    exact Lib.Chain.not_rel_getLast pool.parents_wf hc.spends hc.ne_nil hc' hpar
  · exact Lib.Chain.exists_rel_of_ne_getLast hc.spends hc.ne_nil ht

theorem nodup (hc : UpdateChain pool chain) : chain.Nodup :=
  Lib.Chain.nodup pool.parents_wf hc.spends

end UpdateChain

namespace CNameMemPool

open Lib.ExceptM in
/-- `lastNameOutput` and `pendingChainLength` in the three states of a name: its
pending updates form a chain, ending at `tip`; only a registration is pending;
nothing is pending. -/
theorem lastNameOutput_chain (m : CNameMemPool) (name : valtype) :
    (∀ cands chain tip, m.updates name = some cands → (∀ t, t ∈ cands ↔ t ∈ chain) →
      UpdateChain m.pool chain → chain.getLast? = some tip →
      ∃ out, getNameOutput m.pool tip = .ok out ∧ m.lastNameOutput name = .ok out ∧
        m.pendingChainLength name = chain.length + (if m.registersName name then 1 else 0)) ∧
    (∀ txid, m.updates name = none → m.mapNameRegs name = some txid →
      m.lastNameOutput name = getNameOutput m.pool txid ∧ m.pendingChainLength name = 1) ∧
    (m.updates name = none → m.mapNameRegs name = none →
      m.lastNameOutput name = .ok COutPoint.null ∧ m.pendingChainLength name = 0) := by
  refine ⟨fun cands chain tip hupd hmem hc htip => ?_, fun txid hupd hreg => ?_,
    fun hupd hreg => ?_⟩
  · have hlast : chain.getLast hc.ne_nil = tip := by
      rw [List.getLast?_eq_some_getLast hc.ne_nil] at htip
      exact Option.some.inj htip
    obtain ⟨out, hout, hnull⟩ := hc.nameOutput tip (hlast ▸ List.getLast_mem hc.ne_nil)
    -- the first loop collects the parents of the chain's members
    obtain ⟨spent, hcollect, hspent⟩ := collectSpent_ok m.pool [] cands fun c hc' =>
      have ⟨_, hc'', _⟩ := hc.nameOutput c ((hmem c).mp hc')
      isSome_of_getNameOutput hc''
    have hspent_iff : ∀ c ∈ cands, c ∈ spent ↔ c ≠ tip := by
      intro c hc'
      rw [hspent, ← hlast, ← hc.spent_iff_ne_getLast ((hmem c).mp hc')]
      simp [hmem]
    have htip_mem : tip ∈ cands := (hmem tip).mpr (hlast ▸ List.getLast_mem hc.ne_nil)
    have hfind := findUnspent_unique m.pool spent hout
      (fun h => (hspent_iff tip htip_mem).mp h rfl) cands (m.updates_nodup name cands hupd)
      htip_mem fun c hc' hct => (hspent_iff c hc').mpr hct
    have hlen : cands.length = chain.length :=
      ((List.perm_ext_iff_of_nodup (m.updates_nodup name cands hupd) hc.nodup).mpr hmem).length_eq
    refine ⟨out, hout, ?_, ?_⟩
    · simp only [lastNameOutput, hupd, hcollect, hfind, ok_bind, hnull]
      rfl
    · simp only [pendingChainLength, hupd, hlen]
      omega
  · simp [lastNameOutput, pendingChainLength, registersName, hupd, hreg]
  · simp [lastNameOutput, pendingChainLength, registersName, hupd, hreg]

/-- A pool with a registration of `a` (txid 1) and two updates of it (2 and 3),
the second of which also spends another output of the registration, and a
registration of `b` (4). -/
def sampleTxs : List CTransaction :=
  [⟨1, NAMECOIN_VERSION, [⟨⟨0, 0⟩⟩],
      [⟨COIN, CNameScript.buildNameFirstupdate [] [0x61] [] []⟩, ⟨COIN, []⟩]⟩,
    ⟨2, NAMECOIN_VERSION, [⟨⟨1, 0⟩⟩], [⟨COIN, []⟩, ⟨COIN, CNameScript.buildNameUpdate [] [0x61] [0x78]⟩]⟩,
    ⟨3, NAMECOIN_VERSION, [⟨⟨2, 1⟩⟩, ⟨⟨1, 1⟩⟩],
      [⟨COIN, []⟩, ⟨COIN, CNameScript.buildNameUpdate [] [0x61] [0x79]⟩]⟩,
    ⟨4, NAMECOIN_VERSION, [⟨⟨0, 1⟩⟩], [⟨COIN, CNameScript.buildNameFirstupdate [] [0x62] [] []⟩]⟩]

def samplePool : CTxMemPool where
  mapTx txid := sampleTxs.find? fun tx => tx.hash == txid
  parents_wf := parents_wf_of_lt fun b tx htx => by
    have hmem := List.mem_of_find?_eq_some htx
    have hb := List.find?_some htx
    rw [beq_iff_eq] at hb
    subst hb
    revert tx
    decide

def sampleNameMemPool : CNameMemPool where
  pool := samplePool
  mapNameRegs name := if name = [0x61] then some 1 else if name = [0x62] then some 4 else none
  updates name := if name = [0x61] then some [2, 3] else none
  updates_nodup name txids h := by
    split_ifs at h
    cases h
    decide

theorem lastNameOutput_chain_sample :
    (∃ out, getNameOutput samplePool 3 = .ok out ∧
      sampleNameMemPool.lastNameOutput [0x61] = .ok out ∧
      sampleNameMemPool.pendingChainLength [0x61] =
        [2, 3].length + (if sampleNameMemPool.registersName [0x61] then 1 else 0)) ∧
    (sampleNameMemPool.lastNameOutput [0x62] = getNameOutput samplePool 4 ∧
      sampleNameMemPool.pendingChainLength [0x62] = 1) ∧
    (sampleNameMemPool.lastNameOutput [0x63] = .ok COutPoint.null ∧
      sampleNameMemPool.pendingChainLength [0x63] = 0) := by
  have hchain : UpdateChain samplePool [2, 3] := by
    refine UpdateChain.of_spendsNameOutput (by simp) (fun t ht => ?_) ?_
    · simp only [List.mem_cons, List.not_mem_nil, or_false] at ht
      rcases ht with rfl | rfl
      · exact ⟨⟨2, 1⟩, rfl, rfl⟩
      · exact ⟨⟨3, 1⟩, rfl, rfl⟩
    · simp only [List.isChain_cons_cons, List.IsChain.singleton, and_true]
      exact ⟨_, rfl, ⟨⟨2, 1⟩⟩, by simp, rfl⟩
  have h := lastNameOutput_chain sampleNameMemPool
  exact ⟨(h [0x61]).1 [2, 3] [2, 3] 3 rfl (fun _ => Iff.rfl) hchain rfl,
    (h [0x62]).2.1 4 rfl rfl, (h [0x63]).2.2 rfl rfl⟩

end CNameMemPool

end Namecoin.Names
