import Mathlib
import Namecoin.Names.MempoolIndex
import Namecoin.Script.NameBuild
import Namecoin.Lib.Closure

/-! # The name index agrees with the pool over every run (names/mempool.cpp)

`Consistent` says that the name index describes the pool: `mapNameRegs` maps
each name with a pending registration to its txid and has no other keys,
`updates` maps each name with pending updates to the non-empty set of their
txids and has no other keys, and every pending `NAME_NEW` has its hash in
`mapNameNews` with its own txid (the map is never shrunk, so this direction is
all that holds). The txids of the pool are distinct.

Adding an entry that `checkTx` accepts keeps it (`addNewTransaction_consistent`),
and so does `removeUnchecked` of any entry of the pool
(`removeUnchecked_consistent`), which is all a removal does. Entries are
followed through their kind (`Has`): appending adds one, filtering by txid
removes one, and with distinct txids the removed one is the entry itself. -/

namespace Namecoin.Names.MempoolIndex
open Namecoin.Script Lib.KeyList Lib.ExceptM

/-! ## Entries -/

namespace CTxMemPoolEntry

@[simp] theorem isNameNew_eq (e : CTxMemPoolEntry) : e.isNameNew = (e.nameOp.op == .OP_NAME_NEW) := by
  unfold isNameNew CNameScript.isNameOp
  cases e.nameOp.op <;> rfl

@[simp] theorem isNameRegistration_eq (e : CTxMemPoolEntry) :
    e.isNameRegistration = (e.nameOp.op == .OP_NAME_FIRSTUPDATE) := by
  unfold isNameRegistration CNameScript.isNameOp
  cases e.nameOp.op <;> rfl

@[simp] theorem isNameUpdate_eq (e : CTxMemPoolEntry) : e.isNameUpdate = (e.nameOp.op == .OP_NAME_UPDATE) := by
  unfold isNameUpdate CNameScript.isNameOp
  cases e.nameOp.op <;> rfl

end CTxMemPoolEntry

/-- The loop of the constructor returns what it started with or the name
operation of one of the outputs. -/
theorem nameOpLoop_mem :
    ∀ {start nameOp : CNameScript} {vout : List CTxOut}, nameOpLoop start vout = .ok nameOp →
      nameOp = start ∨ ∃ txout ∈ vout, CNameScript.ofScript txout.scriptPubKey = nameOp
  | _, _, [], h => .inl (Except.ok.inj h).symm
  | start, nameOp, txout :: vout, h => by
    by_cases hcur : (CNameScript.ofScript txout.scriptPubKey).isNameOp = true
    · by_cases hstart : start.isNameOp = true
      · simp [nameOpLoop, hcur, hstart] at h
      · simp only [nameOpLoop, hcur, hstart, Bool.not_true, Bool.false_eq_true, if_false] at h
        rcases nameOpLoop_mem h with rfl | ⟨o, ho, hs⟩
        · exact .inr ⟨txout, List.mem_cons_self, rfl⟩
        · exact .inr ⟨o, List.mem_cons_of_mem _ ho, hs⟩
    · simp only [nameOpLoop, hcur, Bool.not_false, if_true] at h
      rcases nameOpLoop_mem h with rfl | ⟨o, ho, hs⟩
      · exact .inl rfl
      · exact .inr ⟨o, List.mem_cons_of_mem _ ho, hs⟩

/-- A cached name operation is the name operation of an output of a Namecoin
transaction. -/
theorem CTxMemPoolEntry.nameOp_mem (e : CTxMemPoolEntry) (h : e.nameOp.isNameOp = true) :
    e.tx.IsNamecoin = true ∧ ∃ txout ∈ e.tx.vout, CNameScript.ofScript txout.scriptPubKey = e.nameOp := by
  have hc := e.cached
  unfold cacheNameOp at hc
  split at hc
  · rename_i hnmc
    obtain ⟨n, hloop, hn⟩ := Iff.mp bind_eq_ok hc
    split at hn
    · rw [← Except.ok.inj hn] at h ⊢
      rcases nameOpLoop_mem hloop with hn0 | hout
      · simp [hn0, noNameOp, CNameScript.isNameOp] at h
      · exact ⟨hnmc, hout⟩
    · cases hn
  · rw [← Except.ok.inj hc] at h
    simp [noNameOp, CNameScript.isNameOp] at h

/-! ## What `checkTx` rules out -/

namespace CNameMemPool

variable {m : CNameMemPool} {txHash : uint256}

/-- Every output of a transaction the loop accepts has a `NAME_NEW` hash seen
with no other txid, and registers no name with a pending registration. -/
theorem checkTxLoop_true :
    ∀ {vout : List CTxOut}, checkTxLoop m txHash vout = .ok true → ∀ txout ∈ vout,
      (∀ txid, (CNameScript.ofScript txout.scriptPubKey).op = .OP_NAME_NEW →
        m.mapNameNews.lookup (CNameScript.ofScript txout.scriptPubKey).getOpHash = some txid →
        txid = txHash) ∧
      ((CNameScript.ofScript txout.scriptPubKey).op = .OP_NAME_FIRSTUPDATE →
        m.registersName (CNameScript.ofScript txout.scriptPubKey).getOpName = false)
  | [], _, _, h => nomatch h
  | txout :: vout, h, o, ho => by
    simp only [checkTxLoop] at h
    -- the loop goes on past `txout` whenever it returns `true`
    have hrest : checkTxLoop m txHash vout = .ok true := by
      split at h
      · exact h
      · split at h
        · split at h
          · split at h
            · cases h
            · exact h
          · exact h
        · split at h
          · cases h
          · exact h
        · exact h
        · cases h
    rcases List.mem_cons.mp ho with rfl | ho
    · refine ⟨fun txid hnew hlook => ?_, fun hfirst => ?_⟩
      · have hop : (CNameScript.ofScript o.scriptPubKey).isNameOp = true := by
          simp [CNameScript.isNameOp, hnew]
        rw [if_neg (by simp [hop])] at h
        simp only [hnew, hlook] at h
        split at h
        · cases h
        · rename_i hne
          exact not_not.mp hne
      · have hop : (CNameScript.ofScript o.scriptPubKey).isNameOp = true := by
          simp [CNameScript.isNameOp, hfirst]
        rw [if_neg (by simp [hop])] at h
        simp only [hfirst] at h
        split at h
        · cases h
        · rename_i hreg
          exact Bool.eq_false_iff.mpr hreg
    · exact checkTxLoop_true hrest o ho

/-- What `checkTx` accepting an entry's transaction says about its name
operation. -/
theorem checkTx_entry {e : CTxMemPoolEntry} (h : m.checkTx e.tx = .ok true) :
    (∀ txid, e.isNameNew = true → m.mapNameNews.lookup e.getNameNewHash = some txid →
      txid = e.tx.GetHash) ∧
    (e.isNameRegistration = true → m.registersName e.getName = false) := by
  by_cases hop : e.nameOp.isNameOp = true
  · obtain ⟨hnmc, txout, hout, hs⟩ := e.nameOp_mem hop
    unfold checkTx at h
    rw [if_neg (by simp [hnmc])] at h
    have hout := checkTxLoop_true h txout hout
    rw [hs] at hout
    refine ⟨fun txid hnew => hout.1 txid ?_, fun hreg => hout.2 ?_⟩
    · simpa [CTxMemPoolEntry.isNameNew_eq] using hnew
    · simpa [CTxMemPoolEntry.isNameRegistration_eq] using hreg
  · have hnop : e.nameOp.op = .OP_NOP := by simpa [CNameScript.isNameOp] using hop
    simp [CTxMemPoolEntry.isNameNew_eq, CTxMemPoolEntry.isNameRegistration_eq, hnop]

end CNameMemPool

/-! ## The kind of each entry and what `addUnchecked` and `remove` do with it -/

namespace CNameMemPool

variable {m : CNameMemPool} {e : CTxMemPoolEntry}

theorem addUnchecked_of_nop (hop : e.nameOp.op = .OP_NOP) : m.addUnchecked e = .ok m := by
  simp [addUnchecked, hop]

/-- A `NAME_NEW` whose hash is unseen, or seen with its own txid, leaves the
hash mapped to its txid. -/
theorem addUnchecked_of_new (hop : e.nameOp.op = .OP_NAME_NEW)
    (hseen : ∀ txid, m.mapNameNews.lookup e.getNameNewHash = some txid → txid = e.tx.GetHash) :
    ∃ m', m.addUnchecked e = .ok m' ∧ m'.mapNameRegs = m.mapNameRegs ∧ m'.updates = m.updates ∧
      ∀ n, m'.mapNameNews.lookup n =
        if n = e.getNameNewHash then some e.tx.GetHash else m.mapNameNews.lookup n := by
  cases hlook : m.mapNameNews.lookup e.getNameNewHash with
  | none =>
    refine ⟨m.setNew e.getNameNewHash e.tx.GetHash, ?_, rfl, rfl, fun n => setNew_news _ _ _ _⟩
    simp [addUnchecked, hop, hlook]
  | some txid =>
    have htxid := hseen txid hlook
    refine ⟨m, ?_, rfl, rfl, fun n => ?_⟩
    · simp [addUnchecked, hop, hlook, htxid]
    · by_cases hn : n = e.getNameNewHash
      · rw [if_pos hn, hn, hlook, htxid]
      · rw [if_neg hn]

theorem addUnchecked_of_registration (hop : e.nameOp.op = .OP_NAME_FIRSTUPDATE)
    (hfree : m.registersName e.getName = false) :
    m.addUnchecked e = .ok (m.setReg e.getName e.tx.GetHash) := by
  simp [addUnchecked, hop, hfree]

theorem addUnchecked_of_update (hop : e.nameOp.op = .OP_NAME_UPDATE) :
    m.addUnchecked e =
      .ok (m.setUpdates e.getName (insertTxid e.tx.GetHash ((m.updates.lookup e.getName).getD []))) := by
  cases hlook : m.updates.lookup e.getName with
  | none => simp [addUnchecked, hop, hlook, insertTxid]
  | some txids => simp [addUnchecked, hop, hlook]

theorem remove_of_not (hop : e.nameOp.op = .OP_NOP ∨ e.nameOp.op = .OP_NAME_NEW) : m.remove e = .ok m := by
  rcases hop with hop | hop <;>
    simp [remove, hop]

theorem remove_of_registration (hop : e.nameOp.op = .OP_NAME_FIRSTUPDATE) {txid : uint256}
    (hlook : m.mapNameRegs.lookup e.getName = some txid) : m.remove e = .ok (m.eraseReg e.getName) := by
  simp [remove, hop, hlook]

/-- An update leaves the set of its name, and the set goes when it is empty. -/
theorem remove_of_update (hop : e.nameOp.op = .OP_NAME_UPDATE) {txids : List uint256}
    (hlook : m.updates.lookup e.getName = some txids) (hin : e.tx.GetHash ∈ txids) :
    ∃ m', m.remove e = .ok m' ∧ m'.mapNameRegs = m.mapNameRegs ∧ m'.mapNameNews = m.mapNameNews ∧
      ∀ n, m'.updates.lookup n =
        if n = e.getName then
          (if (eraseTxid e.tx.GetHash txids).isEmpty then none else some (eraseTxid e.tx.GetHash txids))
        else m.updates.lookup n := by
  by_cases hempty : (eraseTxid e.tx.GetHash txids).isEmpty
  · refine ⟨m.eraseUpdates e.getName, ?_, rfl, rfl, fun n => ?_⟩
    · simp [remove, hop, hlook, hin, List.isEmpty_iff.mp hempty]
    · simp only [eraseUpdates_updates, hempty, if_true]
  · refine ⟨m.setUpdates e.getName (eraseTxid e.tx.GetHash txids), ?_, rfl, rfl, fun n => ?_⟩
    · simp [remove, hop, hlook, hin, mt List.isEmpty_iff.mpr hempty]
    · simp only [setUpdates_updates, hempty, Bool.false_eq_true, if_false]

end CNameMemPool

/-! ## The invariant -/

/-- The pool has an entry of the kind `kind` for `name`, with the txid `txid`. -/
def Has (kind : CTxMemPoolEntry → Bool) (mapTx : List CTxMemPoolEntry) (name : valtype)
    (txid : uint256) : Prop :=
  ∃ e ∈ mapTx, kind e = true ∧ e.getName = name ∧ e.tx.GetHash = txid

/-- `mapNameRegs` maps each name with a registration in the pool to its txid,
and has no other keys. -/
def RegsAgree (regs : List (valtype × uint256)) (mapTx : List CTxMemPoolEntry) : Prop :=
  ∀ name txid, regs.lookup name = some txid ↔ Has CTxMemPoolEntry.isNameRegistration mapTx name txid

/-- `updates` maps each name with updates in the pool to the set of their
txids, non-empty and without duplicates, and has no other keys. -/
def UpdatesAgree (updates : List (valtype × List uint256)) (mapTx : List CTxMemPoolEntry) : Prop :=
  (∀ name txid, txid ∈ (updates.lookup name).getD [] ↔ Has CTxMemPoolEntry.isNameUpdate mapTx name txid) ∧
  ∀ name txids, updates.lookup name = some txids → txids ≠ [] ∧ txids.Nodup

/-- Every `NAME_NEW` of the pool has its hash in `mapNameNews`, with its txid. -/
def NewsCover (news : List (valtype × uint256)) (mapTx : List CTxMemPoolEntry) : Prop :=
  ∀ e ∈ mapTx, e.isNameNew = true → news.lookup e.getNameNewHash = some e.tx.GetHash

/-- The name index describes the pool, whose txids are distinct. -/
structure Consistent (pool : CTxMemPool) : Prop where
  nodup : (pool.mapTx.map (·.tx.GetHash)).Nodup
  regs : RegsAgree pool.names.mapNameRegs pool.mapTx
  updates : UpdatesAgree pool.names.updates pool.mapTx
  news : NewsCover pool.names.mapNameNews pool.mapTx

theorem consistent_empty : Consistent CTxMemPool.empty :=
  ⟨List.nodup_nil, fun _ _ => by simp [CTxMemPool.empty, CNameMemPool.empty, Has],
    ⟨fun _ _ => by simp [CTxMemPool.empty, CNameMemPool.empty, Has], fun _ _ h => by
      simp [CTxMemPool.empty, CNameMemPool.empty] at h⟩, fun _ h => by simp [CTxMemPool.empty] at h⟩

section Frame

variable {kind : CTxMemPoolEntry → Bool} {l : List CTxMemPoolEntry} {x : CTxMemPoolEntry}
  {name : valtype} {txid : uint256}

theorem has_append : Has kind (l ++ [x]) name txid ↔
    Has kind l name txid ∨ (kind x = true ∧ x.getName = name ∧ x.tx.GetHash = txid) := by
  simp only [Has, List.mem_append, List.mem_singleton, or_and_right, exists_or, exists_eq_left]

theorem has_filter : Has kind (l.filter fun e => e.tx.GetHash != x.tx.GetHash) name txid ↔
    Has kind l name txid ∧ txid ≠ x.tx.GetHash := by
  constructor
  · rintro ⟨e, he, hk, hn, rfl⟩
    obtain ⟨he, hne⟩ := List.mem_filter.mp he
    exact ⟨⟨e, he, hk, hn, rfl⟩, by simpa using hne⟩
  · rintro ⟨⟨e, he, hk, hn, rfl⟩, hne⟩
    exact ⟨e, List.mem_filter.mpr ⟨he, by simpa using hne⟩, hk, hn, rfl⟩

/-- With distinct txids, an entry is determined by its txid. -/
theorem eq_of_txid_eq (hnd : (l.map (·.tx.GetHash)).Nodup) {e : CTxMemPoolEntry} (he : e ∈ l)
    (hx : x ∈ l) (h : e.tx.GetHash = x.tx.GetHash) : e = x :=
  List.inj_on_of_nodup_map hnd he hx h

/-- With distinct txids, an entry of the pool of another kind, or for another
name, than `x` has another txid. -/
theorem Has.txid_ne (hnd : (l.map (·.tx.GetHash)).Nodup) (hx : x ∈ l) (h : Has kind l name txid)
    (hne : kind x = false ∨ x.getName ≠ name) : txid ≠ x.tx.GetHash := by
  rintro rfl
  obtain ⟨e, he, hk, hn, ht⟩ := h
  obtain rfl := eq_of_txid_eq hnd he hx ht
  rcases hne with h | h
  · rw [hk] at h
    cases h
  · exact h hn

theorem nodup_append_of_fresh (hnd : (l.map (·.tx.GetHash)).Nodup)
    (hfresh : ∀ e ∈ l, e.tx.GetHash ≠ x.tx.GetHash) : ((l ++ [x]).map (·.tx.GetHash)).Nodup := by
  rw [List.map_append, List.nodup_append]
  refine ⟨hnd, List.nodup_singleton _, fun a ha b hb => ?_⟩
  obtain ⟨e, he, rfl⟩ := List.mem_map.mp ha
  simp only [List.map_cons, List.map_nil, List.mem_singleton] at hb
  exact hb ▸ hfresh e he

theorem nodup_filter (hnd : (l.map (·.tx.GetHash)).Nodup) :
    ((l.filter fun e => e.tx.GetHash != x.tx.GetHash).map (·.tx.GetHash)).Nodup :=
  hnd.sublist (List.filter_sublist.map _)

end Frame

/-! ## Appending and removing one entry -/

section Agree

variable {l : List CTxMemPoolEntry} {x : CTxMemPoolEntry}

theorem RegsAgree.append_of {regs : List (valtype × uint256)} (h : RegsAgree regs l)
    (hk : x.isNameRegistration = false) : RegsAgree regs (l ++ [x]) := fun name txid => by
  rw [h name txid, has_append, hk]
  simp

/-- A registration of a name without one goes into the map. -/
theorem RegsAgree.append_registration {regs regs' : List (valtype × uint256)} (h : RegsAgree regs l)
    (hk : x.isNameRegistration = true) (hfree : regs.lookup x.getName = none)
    (hl : ∀ n, regs'.lookup n = if n = x.getName then some x.tx.GetHash else regs.lookup n) :
    RegsAgree regs' (l ++ [x]) := fun name txid => by
  rw [hl, has_append, ← h name txid, hk]
  by_cases hn : name = x.getName
  · subst hn
    simp [hfree]
  · simp [hn, Ne.symm hn]

theorem RegsAgree.filter_of {regs : List (valtype × uint256)} (h : RegsAgree regs l)
    (hnd : (l.map (·.tx.GetHash)).Nodup) (hx : x ∈ l) (hk : x.isNameRegistration = false) :
    RegsAgree regs (l.filter fun e => e.tx.GetHash != x.tx.GetHash) := fun name txid => by
  rw [has_filter, ← h name txid]
  exact ⟨fun hr => ⟨hr, Has.txid_ne hnd hx (Iff.mp (h name txid) hr) (.inl hk)⟩, And.left⟩

/-- The registration of the removed entry leaves the map, and no other. -/
theorem RegsAgree.filter_registration {regs regs' : List (valtype × uint256)} (h : RegsAgree regs l)
    (hnd : (l.map (·.tx.GetHash)).Nodup) (hx : x ∈ l) (hk : x.isNameRegistration = true)
    (hl : ∀ n, regs'.lookup n = if n = x.getName then none else regs.lookup n) :
    RegsAgree regs' (l.filter fun e => e.tx.GetHash != x.tx.GetHash) := fun name txid => by
  rw [hl, has_filter, ← h name txid]
  by_cases hn : name = x.getName
  · subst hn
    -- the name's registration is `x` itself
    have hown : regs.lookup x.getName = some x.tx.GetHash := Iff.mpr (h _ _) ⟨x, hx, hk, rfl, rfl⟩
    rw [if_pos rfl, hown]
    constructor
    · nofun
    · rintro ⟨heq, hne⟩
      exact absurd (Option.some.inj heq).symm hne
  · rw [if_neg hn]
    exact ⟨fun hr => ⟨hr, Has.txid_ne hnd hx (Iff.mp (h name txid) hr) (.inr (Ne.symm hn))⟩, And.left⟩

theorem UpdatesAgree.append_of {upd : List (valtype × List uint256)} (h : UpdatesAgree upd l)
    (hk : x.isNameUpdate = false) : UpdatesAgree upd (l ++ [x]) :=
  ⟨fun name txid => by
    rw [h.1 name txid, has_append, hk]
    simp, h.2⟩

/-- An update goes into the set of its name, which is created if need be. -/
theorem UpdatesAgree.append_update {upd upd' : List (valtype × List uint256)} (h : UpdatesAgree upd l)
    (hk : x.isNameUpdate = true)
    (hl : ∀ n, upd'.lookup n =
      if n = x.getName then some (insertTxid x.tx.GetHash ((upd.lookup x.getName).getD []))
      else upd.lookup n) :
    UpdatesAgree upd' (l ++ [x]) := by
  refine ⟨fun name txid => ?_, fun name txids hlook => ?_⟩
  · rw [hl, has_append, ← h.1 name txid, hk]
    by_cases hn : name = x.getName
    · subst hn
      simp [eq_comm, or_comm]
    · simp [hn, Ne.symm hn]
  · rw [hl] at hlook
    by_cases hn : name = x.getName
    · rw [if_pos hn] at hlook
      cases hlook
      -- the old set, if any, had no duplicates
      have hold : ((upd.lookup x.getName).getD []).Nodup := by
        cases hs : upd.lookup x.getName with
        | none => exact List.nodup_nil
        | some s => exact (h.2 _ s hs).2
      exact ⟨List.ne_nil_of_mem (mem_insertTxid.mpr (.inl rfl)), nodup_insertTxid hold⟩
    · rw [if_neg hn] at hlook
      exact h.2 name txids hlook

theorem UpdatesAgree.filter_of {upd : List (valtype × List uint256)} (h : UpdatesAgree upd l)
    (hnd : (l.map (·.tx.GetHash)).Nodup) (hx : x ∈ l) (hk : x.isNameUpdate = false) :
    UpdatesAgree upd (l.filter fun e => e.tx.GetHash != x.tx.GetHash) :=
  ⟨fun name txid => by
    rw [has_filter, ← h.1 name txid]
    exact ⟨fun hm => ⟨hm, Has.txid_ne hnd hx (Iff.mp (h.1 name txid) hm) (.inl hk)⟩, And.left⟩, h.2⟩

theorem getD_ite_isEmpty (s : List uint256) : (if s.isEmpty then none else some s).getD [] = s := by
  cases s <;> rfl

/-- The removed update leaves the set of its name, which goes when it is empty. -/
theorem UpdatesAgree.filter_update {upd upd' : List (valtype × List uint256)} {txids : List uint256}
    (h : UpdatesAgree upd l) (hnd : (l.map (·.tx.GetHash)).Nodup) (hx : x ∈ l)
    (hlook : upd.lookup x.getName = some txids)
    (hl : ∀ n, upd'.lookup n =
      if n = x.getName then
        (if (eraseTxid x.tx.GetHash txids).isEmpty then none else some (eraseTxid x.tx.GetHash txids))
      else upd.lookup n) :
    UpdatesAgree upd' (l.filter fun e => e.tx.GetHash != x.tx.GetHash) := by
  refine ⟨fun name txid => ?_, fun name s hs => ?_⟩
  · rw [hl, has_filter, ← h.1 name txid]
    by_cases hn : name = x.getName
    · subst hn
      rw [if_pos rfl, getD_ite_isEmpty, hlook, Option.getD_some, mem_eraseTxid]
    · rw [if_neg hn]
      exact ⟨fun hm => ⟨hm, Has.txid_ne hnd hx (Iff.mp (h.1 name txid) hm) (.inr (Ne.symm hn))⟩, And.left⟩
  · rw [hl] at hs
    by_cases hn : name = x.getName
    · rw [if_pos hn] at hs
      split at hs
      · cases hs
      · rename_i hne
        cases hs
        exact ⟨fun h0 => hne (List.isEmpty_iff.mpr h0), nodup_eraseTxid (h.2 _ _ hlook).2⟩
    · rw [if_neg hn] at hs
      exact h.2 name s hs

theorem NewsCover.append_of {news : List (valtype × uint256)} (h : NewsCover news l)
    (hk : x.isNameNew = false) : NewsCover news (l ++ [x]) := by
  intro e he hnew
  rcases List.mem_append.mp he with he | he
  · exact h e he hnew
  · obtain rfl := List.mem_singleton.mp he
    rw [hk] at hnew
    cases hnew

/-- A `NAME_NEW` whose hash is unseen, or seen with its own txid, is covered. -/
theorem NewsCover.append_new {news news' : List (valtype × uint256)} (h : NewsCover news l)
    (hseen : ∀ txid, news.lookup x.getNameNewHash = some txid → txid = x.tx.GetHash)
    (hl : ∀ n, news'.lookup n = if n = x.getNameNewHash then some x.tx.GetHash else news.lookup n) :
    NewsCover news' (l ++ [x]) := by
  intro e he hnew
  rw [hl]
  rcases List.mem_append.mp he with he | he
  · by_cases hn : e.getNameNewHash = x.getNameNewHash
    · -- the hash was seen before, with `e`'s txid, which is then `x`'s
      have hold : news.lookup x.getNameNewHash = some e.tx.GetHash := hn ▸ h e he hnew
      rw [if_pos hn, hseen _ hold]
    · rw [if_neg hn]
      exact h e he hnew
  · obtain rfl := List.mem_singleton.mp he
    rw [if_pos rfl]

theorem NewsCover.filter {news : List (valtype × uint256)} (h : NewsCover news l)
    (f : CTxMemPoolEntry → Bool) : NewsCover news (l.filter f) :=
  fun e he => h e (List.mem_filter.mp he).1

end Agree

/-! ## The two steps on the index -/

namespace CTxMemPool

theorem find_eq_none {pool : CTxMemPool} {txid : uint256} :
    pool.find txid = none ↔ ∀ e ∈ pool.mapTx, e.tx.GetHash ≠ txid := by
  simp [find, List.find?_eq_none]

theorem find_eq_some {pool : CTxMemPool} {txid : uint256} {e : CTxMemPoolEntry}
    (h : pool.find txid = some e) : e ∈ pool.mapTx ∧ e.tx.GetHash = txid := by
  unfold find at h
  exact ⟨List.mem_of_find?_eq_some h, by simpa using List.find?_some h⟩

/-- Adding an entry whose txid is new and whose transaction `checkTx` accepts
keeps the index in step, and no `assert` of `addUnchecked` fails. -/
theorem addNewTransaction_consistent {pool : CTxMemPool} {x : CTxMemPoolEntry} (h : Consistent pool)
    (hfresh : pool.find x.tx.GetHash = none) (hcheck : pool.names.checkTx x.tx = .ok true) :
    ∃ pool', pool.addNewTransaction x = .ok pool' ∧ Consistent pool' := by
  obtain ⟨hseen, hfree⟩ := CNameMemPool.checkTx_entry hcheck
  have hnd := nodup_append_of_fresh h.nodup (Iff.mp find_eq_none hfresh)
  suffices hnames : ∃ names', pool.names.addUnchecked x = .ok names' ∧
      RegsAgree names'.mapNameRegs (pool.mapTx ++ [x]) ∧ UpdatesAgree names'.updates (pool.mapTx ++ [x]) ∧
      NewsCover names'.mapNameNews (pool.mapTx ++ [x]) by
    obtain ⟨names', hadd, hr, hu, hn⟩ := hnames
    exact ⟨⟨pool.mapTx ++ [x], names'⟩, by simp [addNewTransaction, hadd], ⟨hnd, hr, hu, hn⟩⟩
  cases hop : x.nameOp.op with
  | OP_NOP =>
    exact ⟨pool.names, CNameMemPool.addUnchecked_of_nop hop, h.regs.append_of (by simp [hop]),
      h.updates.append_of (by simp [hop]), h.news.append_of (by simp [hop])⟩
  | OP_NAME_NEW =>
    have hseen' := fun txid => hseen txid (by simp [hop])
    obtain ⟨names', hadd, hr, hu, hl⟩ := CNameMemPool.addUnchecked_of_new hop hseen'
    exact ⟨names', hadd, hr ▸ h.regs.append_of (by simp [hop]),
      hu ▸ h.updates.append_of (by simp [hop]), h.news.append_new hseen' hl⟩
  | OP_NAME_FIRSTUPDATE =>
    have hfree' := hfree (by simp [hop])
    refine ⟨_, CNameMemPool.addUnchecked_of_registration hop hfree', ?_, ?_, ?_⟩
    · refine h.regs.append_registration (by simp [hop]) ?_ (fun n => CNameMemPool.setReg_regs _ _ _ _)
      simpa [CNameMemPool.registersName] using hfree'
    · exact h.updates.append_of (by simp [hop])
    · exact h.news.append_of (by simp [hop])
  | OP_NAME_UPDATE =>
    refine ⟨_, CNameMemPool.addUnchecked_of_update hop, h.regs.append_of (by simp [hop]), ?_,
      h.news.append_of (by simp [hop])⟩
    exact h.updates.append_update (by simp [hop]) (fun n => CNameMemPool.setUpdates_updates _ _ _ _)

/-- Removing an entry of the pool keeps the index in step, and no `assert` of
`remove` fails. -/
theorem removeUnchecked_consistent {pool : CTxMemPool} {x : CTxMemPoolEntry} (h : Consistent pool)
    (hx : x ∈ pool.mapTx) :
    ∃ pool', pool.removeUnchecked x = .ok pool' ∧ Consistent pool' ∧
      pool'.mapTx = pool.mapTx.filter fun e => e.tx.GetHash != x.tx.GetHash := by
  have hnd := nodup_filter (x := x) h.nodup
  suffices hnames : ∃ names', pool.names.remove x = .ok names' ∧
      RegsAgree names'.mapNameRegs (pool.mapTx.filter fun e => e.tx.GetHash != x.tx.GetHash) ∧
      UpdatesAgree names'.updates (pool.mapTx.filter fun e => e.tx.GetHash != x.tx.GetHash) ∧
      NewsCover names'.mapNameNews (pool.mapTx.filter fun e => e.tx.GetHash != x.tx.GetHash) by
    obtain ⟨names', hrem, hr, hu, hn⟩ := hnames
    exact ⟨⟨_, names'⟩, by simp [removeUnchecked, hrem], ⟨hnd, hr, hu, hn⟩, rfl⟩
  cases hop : x.nameOp.op with
  | OP_NOP =>
    exact ⟨pool.names, CNameMemPool.remove_of_not (.inl hop), h.regs.filter_of h.nodup hx (by simp [hop]),
      h.updates.filter_of h.nodup hx (by simp [hop]), h.news.filter _⟩
  | OP_NAME_NEW =>
    exact ⟨pool.names, CNameMemPool.remove_of_not (.inr hop), h.regs.filter_of h.nodup hx (by simp [hop]),
      h.updates.filter_of h.nodup hx (by simp [hop]), h.news.filter _⟩
  | OP_NAME_FIRSTUPDATE =>
    have hk : x.isNameRegistration = true := by simp [hop]
    have hown : pool.names.mapNameRegs.lookup x.getName = some x.tx.GetHash :=
      Iff.mpr (h.regs _ _) ⟨x, hx, hk, rfl, rfl⟩
    refine ⟨_, CNameMemPool.remove_of_registration hop hown, ?_, ?_, ?_⟩
    · exact h.regs.filter_registration h.nodup hx hk (fun n => CNameMemPool.eraseReg_regs _ _ _)
    · exact h.updates.filter_of h.nodup hx (by simp [hop])
    · exact h.news.filter _
  | OP_NAME_UPDATE =>
    have hk : x.isNameUpdate = true := by simp [hop]
    -- the update is in the set of its name
    have hin : x.tx.GetHash ∈ (pool.names.updates.lookup x.getName).getD [] :=
      Iff.mpr (h.updates.1 _ _) ⟨x, hx, hk, rfl, rfl⟩
    obtain ⟨txids, hlook⟩ : ∃ txids, pool.names.updates.lookup x.getName = some txids := by
      cases hs : pool.names.updates.lookup x.getName with
      | none => rw [hs] at hin; cases hin
      | some txids => exact ⟨txids, rfl⟩
    rw [hlook, Option.getD_some] at hin
    obtain ⟨names', hrem, hr, hn, hl⟩ := CNameMemPool.remove_of_update hop hlook hin
    exact ⟨names', hrem, hr ▸ h.regs.filter_of h.nodup hx (by simp [hop]),
      h.updates.filter_update h.nodup hx hlook hl, hn ▸ h.news.filter _⟩

end CTxMemPool

/-! ## Removals

A removal only drops entries of the pool: `Shrinks pool pool'` says that the
index of `pool'` is in step and its entries are entries of `pool`. Every fold of
removals shrinks the pool when each of its turns does (`foldlM_shrinks`). -/

/-- `pool'` is in step, with entries of `pool` only. -/
def Shrinks (pool pool' : CTxMemPool) : Prop := Consistent pool' ∧ ∀ e ∈ pool'.mapTx, e ∈ pool.mapTx

theorem Shrinks.refl {pool : CTxMemPool} (h : Consistent pool) : Shrinks pool pool := ⟨h, fun _ he => he⟩

theorem Shrinks.trans {p₁ p₂ p₃ : CTxMemPool} (h₁ : Shrinks p₁ p₂) (h₂ : Shrinks p₂ p₃) : Shrinks p₁ p₃ :=
  ⟨h₂.1, fun e he => h₁.2 e (h₂.2 e he)⟩

/-- A fold whose every turn shrinks a pool in step shrinks it. -/
theorem foldlM_shrinks {β : Type} {f : CTxMemPool → β → Except Failure CTxMemPool}
    (hf : ∀ p b, Consistent p → ∃ p', f p b = .ok p' ∧ Shrinks p p') (l : List β) {pool : CTxMemPool}
    (h : Consistent pool) : ∃ pool', l.foldlM f pool = .ok pool' ∧ Shrinks pool pool' :=
  foldlM_ok (P := fun _ p => Shrinks pool p)
    (fun _ b _ p _ hp => by
      obtain ⟨p', hp', hs⟩ := hf p b hp.1
      exact ⟨p', hp', hp.trans hs⟩)
    (Shrinks.refl h)

namespace CTxMemPool

variable {pool : CTxMemPool}

theorem find_self {e : CTxMemPoolEntry} (h : Consistent pool) (he : e ∈ pool.mapTx) :
    pool.find e.tx.GetHash = some e := by
  cases hf : pool.find e.tx.GetHash with
  | none => exact absurd rfl (Iff.mp find_eq_none hf e he)
  | some o =>
    obtain ⟨ho, hoid⟩ := find_eq_some hf
    rw [eq_of_txid_eq h.nodup ho he hoid]

/-- Removing entries of the pool with distinct txids, one by one, keeps the
index in step and drops exactly their txids. -/
theorem removeAll_consistent (h : Consistent pool) {entries : List CTxMemPoolEntry}
    (hmem : ∀ e ∈ entries, e ∈ pool.mapTx) (hnd : (entries.map (·.tx.GetHash)).Nodup) :
    ∃ pool', pool.removeAll entries = .ok pool' ∧ Consistent pool' ∧
      pool'.mapTx = pool.mapTx.filter fun e => e.tx.GetHash ∉ entries.map (·.tx.GetHash) := by
  obtain ⟨pool', hrun, hc, hmap⟩ := foldlM_ok (f := removeUnchecked) (l := entries)
    (P := fun done p => Consistent p ∧
      p.mapTx = pool.mapTx.filter fun e => e.tx.GetHash ∉ done.map (·.tx.GetHash))
    (fun done b rest p hsplit ⟨hp, hpmap⟩ => by
      -- `b` is still there: its txid is none of the entries removed before it
      have hfresh : b.tx.GetHash ∉ done.map (·.tx.GetHash) := by
        rw [hsplit, List.map_append, List.map_cons] at hnd
        exact (List.nodup_middle.mp hnd |> List.nodup_cons.mp).1 ∘ fun h => List.mem_append_left _ h
      have hb : b ∈ p.mapTx := by
        rw [hpmap]
        exact List.mem_filter.mpr ⟨hmem b (hsplit ▸ List.mem_append_right _ List.mem_cons_self),
          by simpa using hfresh⟩
      obtain ⟨p', hp', hc', hmap'⟩ := removeUnchecked_consistent hp hb
      refine ⟨p', hp', hc', ?_⟩
      rw [hmap', hpmap, List.filter_filter]
      congr 1
      funext e
      by_cases hid : e.tx.GetHash = b.tx.GetHash <;> simp [hid])
    (a := pool) (by simpa using h)
  exact ⟨pool', hrun, hc, hmap⟩

/-- `b` is the txid `a`, or that of an entry that descends from it through the
pool's spends. -/
def Descends (mapTx : List CTxMemPoolEntry) : uint256 → uint256 → Prop :=
  Relation.ReflTransGen (Lib.Closure.Step (·.tx.GetHash) spends mapTx)

/-- The descendant search is the closure by rounds of its roots under spends. -/
theorem descendantsLoop_eq_rounds {mapTx : List CTxMemPoolEntry} :
    ∀ (fuel : Nat) (found : List uint256),
      descendantsLoop mapTx fuel found = Lib.Closure.rounds (·.tx.GetHash) spends mapTx fuel found
  | 0, _ => rfl
  | fuel + 1, found => by
    simp only [descendantsLoop, Lib.Closure.rounds, Lib.Closure.newKeys, descendantsLoop_eq_rounds fuel]
    rfl

/-- `GetDescendants` finds exactly the entries that descend from a root. -/
theorem mem_getDescendants {roots : List uint256} {e : CTxMemPoolEntry} :
    e ∈ pool.GetDescendants roots ↔ e ∈ pool.mapTx ∧ ∃ r ∈ roots, Descends pool.mapTx r e.tx.GetHash := by
  simp only [GetDescendants, List.mem_filter, decide_eq_true_eq, descendantsLoop_eq_rounds,
    Lib.Closure.mem_rounds_iff, Descends]

/-- The txids of the descendants hold the target of every spend from one of them. -/
theorem closed_getDescendants (roots : List uint256) :
    Lib.Closure.Closed (·.tx.GetHash) spends pool.mapTx ((pool.GetDescendants roots).map (·.tx.GetHash)) := by
  simp only [GetDescendants, descendantsLoop_eq_rounds]
  exact Lib.Closure.Closed.keys_filter Lib.Closure.closed_rounds

theorem mem_getDescendants_keys {roots : List uint256} {t : uint256} :
    t ∈ (pool.GetDescendants roots).map (·.tx.GetHash) ↔
      t ∈ pool.mapTx.map (·.tx.GetHash) ∧ ∃ r ∈ roots, Descends pool.mapTx r t := by
  simp only [List.mem_map, mem_getDescendants]
  constructor
  · rintro ⟨e, ⟨he, hdesc⟩, rfl⟩
    exact ⟨⟨e, he, rfl⟩, hdesc⟩
  · rintro ⟨⟨e, he, rfl⟩, hdesc⟩
    exact ⟨e, ⟨he, hdesc⟩, rfl⟩

theorem removeAll_getDescendants (h : Consistent pool) (roots : List uint256) :
    ∃ pool', pool.removeAll (pool.GetDescendants roots) = .ok pool' ∧ Consistent pool' ∧
      pool'.mapTx = pool.mapTx.filter fun e => e.tx.GetHash ∉ (pool.GetDescendants roots).map (·.tx.GetHash) :=
  removeAll_consistent h (fun _ he => (Iff.mp mem_getDescendants he).1)
    (h.nodup.sublist (List.filter_sublist.map _))

/-- `removeRecursive (txiter)` takes the entry and whatever spends from it. -/
theorem removeRecursiveAt_consistent (h : Consistent pool) (o : CTxMemPoolEntry) :
    ∃ pool', pool.removeRecursiveAt o = .ok pool' ∧ Shrinks pool pool' ∧
      ∀ e ∈ pool.mapTx, (e.tx.GetHash = o.tx.GetHash ∨ spends e o.tx.GetHash = true) → e ∉ pool'.mapTx := by
  obtain ⟨pool', hrun, hc, hmap⟩ := removeAll_getDescendants h [o.tx.GetHash]
  refine ⟨pool', hrun, ⟨hc, fun e he => ?_⟩, fun e he hes hin => ?_⟩
  · rw [hmap] at he
    exact (List.mem_filter.mp he).1
  · -- `e` is among the descendants, whose txids are gone
    have hdesc : e ∈ pool.GetDescendants [o.tx.GetHash] := by
      refine Iff.mpr mem_getDescendants ⟨he, o.tx.GetHash, List.mem_cons_self, ?_⟩
      rcases hes with hid | hs
      · exact hid ▸ .refl
      · exact .single ⟨e, he, rfl, hs⟩
    rw [hmap] at hin
    have := (List.mem_filter.mp hin).2
    simp only [decide_eq_true_eq] at this
    exact this (List.mem_map_of_mem hdesc)

/-- `removeRecursive (tx)` keeps the index in step, and leaves no entry with
the txid of `tx`. -/
theorem removeRecursive_consistent (h : Consistent pool) (tx : CTransaction) :
    ∃ pool', pool.removeRecursive tx = .ok pool' ∧ Shrinks pool pool' ∧
      ∀ e ∈ pool'.mapTx, e.tx.GetHash ≠ tx.GetHash := by
  unfold removeRecursive
  cases hf : pool.find tx.GetHash with
  | some o =>
    obtain ⟨-, hoid⟩ := find_eq_some hf
    obtain ⟨pool', hrun, hs, hgone⟩ := removeRecursiveAt_consistent h o
    refine ⟨pool', hrun, hs, fun e he hid => hgone e (hs.2 e he) (.inl (hid.trans hoid.symm)) he⟩
  | none =>
    obtain ⟨pool', hrun, hc, hmap⟩ := removeAll_getDescendants h
      ((pool.mapTx.filter fun e => spends e tx.GetHash).map (·.tx.GetHash))
    refine ⟨pool', hrun, ⟨hc, fun e he => ?_⟩, fun e he => ?_⟩
    · rw [hmap] at he
      exact (List.mem_filter.mp he).1
    · rw [hmap] at he
      exact Iff.mp find_eq_none hf e (List.mem_filter.mp he).1

end CTxMemPool

namespace CNameMemPool
open CTxMemPool

variable {pool : CTxMemPool}

/-- The pending registration of a name is in the pool, so the `assert` of
`removeConflicts` and `removeUnexpireConflicts` holds. -/
theorem removeRegistration_shrinks (h : Consistent pool) (name : valtype) :
    ∃ pool', removeRegistration pool name = .ok pool' ∧ Shrinks pool pool' := by
  unfold removeRegistration
  cases hlook : pool.names.mapNameRegs.lookup name with
  | none => exact ⟨pool, rfl, Shrinks.refl h⟩
  | some txid =>
    obtain ⟨e, he, -, -, rfl⟩ := Iff.mp (h.regs name txid) hlook
    dsimp only
    rw [find_self h he]
    obtain ⟨pool', hrun, hs, -⟩ := removeRecursive_consistent h e.tx
    exact ⟨pool', hrun, hs⟩

theorem removeConflicts_shrinks (h : Consistent pool) (tx : CTransaction) :
    ∃ pool', removeConflicts pool tx = .ok pool' ∧ Shrinks pool pool' := by
  unfold removeConflicts
  split
  · exact ⟨pool, rfl, Shrinks.refl h⟩
  · refine foldlM_shrinks (fun p txout hp => ?_) tx.vout h
    dsimp only
    split
    · exact removeRegistration_shrinks hp _
    · exact ⟨p, rfl, Shrinks.refl hp⟩

theorem removeUnexpireConflicts_shrinks (h : Consistent pool) (unexpired : List valtype) :
    ∃ pool', removeUnexpireConflicts pool unexpired = .ok pool' ∧ Shrinks pool pool' :=
  foldlM_shrinks (fun _ name hp => removeRegistration_shrinks hp name) unexpired h

end CNameMemPool

namespace CTxMemPool

variable {pool : CTxMemPool}

theorem removeSpender_shrinks (tx : CTransaction) (h : Consistent pool) (txin : CTxIn) :
    ∃ pool', removeSpender tx pool txin = .ok pool' ∧ Shrinks pool pool' := by
  unfold removeSpender
  split
  · rename_i it _
    split
    · obtain ⟨pool', hrun, hs, -⟩ := removeRecursiveAt_consistent h it
      exact ⟨pool', hrun, hs⟩
    · exact ⟨pool, rfl, Shrinks.refl h⟩
  · exact ⟨pool, rfl, Shrinks.refl h⟩

theorem removeConflicts_shrinks (h : Consistent pool) (tx : CTransaction) :
    ∃ pool', pool.removeConflicts tx = .ok pool' ∧ Shrinks pool pool' := by
  obtain ⟨p₁, hrun₁, hs₁⟩ := foldlM_shrinks (fun _ txin hp => removeSpender_shrinks tx hp txin) tx.vin h
  obtain ⟨p₂, hrun₂, hs₂⟩ := CNameMemPool.removeConflicts_shrinks hs₁.1 tx
  refine ⟨p₂, ?_, hs₁.trans hs₂⟩
  unfold removeConflicts
  rw [hrun₁, ok_bind]
  exact hrun₂

theorem removeBlockTx_shrinks (h : Consistent pool) (tx : CTransaction) :
    ∃ pool', pool.removeBlockTx tx = .ok pool' ∧ Shrinks pool pool' := by
  unfold removeBlockTx
  cases hf : pool.find tx.GetHash with
  | none =>
    obtain ⟨p₂, hrun₂, hs₂⟩ := removeConflicts_shrinks h tx
    exact ⟨p₂, by simp [hrun₂], hs₂⟩
  | some it =>
    -- the block's own transaction leaves the pool first, without its descendants
    obtain ⟨p₁, hrun₁, hc, hmap⟩ := removeUnchecked_consistent h (find_eq_some hf).1
    have hs₁ : Shrinks pool p₁ := ⟨hc, fun e he => by
      rw [hmap] at he
      exact (List.mem_filter.mp he).1⟩
    obtain ⟨p₂, hrun₂, hs₂⟩ := removeConflicts_shrinks hc tx
    exact ⟨p₂, by simp [hrun₁, hrun₂], hs₁.trans hs₂⟩

theorem removeForBlock_shrinks (h : Consistent pool) (vtx : List CTransaction) :
    ∃ pool', pool.removeForBlock vtx = .ok pool' ∧ Shrinks pool pool' :=
  foldlM_shrinks (fun _ tx hp => removeBlockTx_shrinks hp tx) vtx h

end CTxMemPool

/-! ## Expired names -/

/-- A pool in step with no pending update of `name` has no set for it. -/
theorem Consistent.updates_none {pool : CTxMemPool} (h : Consistent pool) {name : valtype}
    (hno : ∀ e ∈ pool.mapTx, e.isNameUpdate = true → e.getName ≠ name) :
    pool.names.updates.lookup name = none := by
  cases hl : pool.names.updates.lookup name with
  | none => rfl
  | some s =>
    obtain ⟨hne, -⟩ := h.updates.2 name s hl
    obtain ⟨t, ht⟩ := List.exists_mem_of_ne_nil s hne
    obtain ⟨e, he, hk, hn, -⟩ := Iff.mp (h.updates.1 name t) (by rw [hl]; exact ht)
    exact absurd hn (hno e he hk)

theorem Shrinks.updates_none {pool pool' : CTxMemPool} (hs : Shrinks pool pool') (h : Consistent pool)
    {name : valtype} (hn : pool.names.updates.lookup name = none) :
    pool'.names.updates.lookup name = none :=
  hs.1.updates_none fun e he hk hname => by
    have hin := Iff.mpr (h.updates.1 name e.tx.GetHash) ⟨e, hs.2 e he, hk, hname, rfl⟩
    rw [hn] at hin
    cases hin

namespace CTxMemPool

theorem spends_iff {e : CTxMemPoolEntry} {txid : uint256} :
    spends e txid = true ↔ ∃ txin ∈ e.tx.vin, txin.prevout.hash = txid := by
  simp [spends]

end CTxMemPool

namespace CNameMemPool
open CTxMemPool

/-- The loop over the copy of a name's updates removes every txid of the copy. -/
theorem removeTxids_shrinks :
    ∀ {pool pool' : CTxMemPool} {l : List uint256}, Consistent pool → removeTxids pool l = .ok pool' →
      Shrinks pool pool' ∧ ∀ e ∈ pool'.mapTx, e.tx.GetHash ∉ l
  | pool, pool', [], h, hrun => by
    obtain rfl := Except.ok.inj hrun
    exact ⟨Shrinks.refl h, fun _ _ => List.not_mem_nil⟩
  | pool, pool', t :: l, h, hrun => by
    unfold removeTxids at hrun
    cases hf : pool.find t with
    | none =>
      rw [hf] at hrun
      cases hrun
    | some o =>
      rw [hf] at hrun
      obtain ⟨p₁, hrun₁, hs₁, hgone⟩ := removeRecursive_consistent h o.tx
      simp only [hrun₁, ok_bind] at hrun
      obtain ⟨hs, hnot⟩ := removeTxids_shrinks hs₁.1 hrun
      refine ⟨hs₁.trans hs, fun e he hmem => ?_⟩
      rcases List.mem_cons.mp hmem with hid | hl
      · exact hgone e (hs.2 e he) (hid.trans (find_eq_some hf).2.symm)
      · exact hnot e he hl

/-- After the loop over all of a name's updates the name has no set left: the
`assert (updates.count (name) == 0)` of `removeExpireConflicts` holds. -/
theorem removeTxids_clears {pool pool' : CTxMemPool} {name : valtype} {txids : List uint256}
    (h : Consistent pool) (hlook : pool.names.updates.lookup name = some txids)
    (hrun : removeTxids pool txids = .ok pool') : pool'.names.updates.lookup name = none := by
  obtain ⟨hs, hnot⟩ := removeTxids_shrinks h hrun
  refine hs.1.updates_none fun e he hk hname => ?_
  -- a pending update of the name left in the pool was in the copy, so it went
  have hin := Iff.mpr (h.updates.1 name e.tx.GetHash) ⟨e, hs.2 e he, hk, hname, rfl⟩
  rw [hlook, Option.getD_some] at hin
  exact hnot e he hin

/-- Run on a pool in step, `removeExpireConflicts` only drops entries, and
when it returns no expired name has a pending update. -/
theorem removeExpireConflicts_shrinks :
    ∀ {pool pool' : CTxMemPool} {expired : List valtype}, Consistent pool →
      removeExpireConflicts pool expired = .ok pool' →
      Shrinks pool pool' ∧ ∀ name ∈ expired, pool'.names.updates.lookup name = none
  | pool, pool', [], h, hrun => by
    obtain rfl := Except.ok.inj hrun
    exact ⟨Shrinks.refl h, fun _ h => absurd h List.not_mem_nil⟩
  | pool, pool', name :: expired, h, hrun => by
    unfold removeExpireConflicts at hrun
    cases hlook : pool.names.updates.lookup name with
    | none =>
      rw [hlook] at hrun
      obtain ⟨hs, hnone⟩ := removeExpireConflicts_shrinks h hrun
      refine ⟨hs, fun n hn => ?_⟩
      rcases List.mem_cons.mp hn with rfl | hn
      · exact hs.updates_none h hlook
      · exact hnone n hn
    | some txids =>
      rw [hlook] at hrun
      obtain ⟨p₁, hrun₁, hrest⟩ := Iff.mp bind_eq_ok hrun
      have hs₁ := (removeTxids_shrinks h hrun₁).1
      have hclear := removeTxids_clears h hlook hrun₁
      rw [hclear] at hrest
      obtain ⟨hs, hnone⟩ := removeExpireConflicts_shrinks hs₁.1 hrest
      refine ⟨hs₁.trans hs, fun n hn => ?_⟩
      rcases List.mem_cons.mp hn with rfl | hn
      · exact hs.updates_none hs₁.1 hclear
      · exact hnone n hn

/-- Once the txid `b` has left the pool, the loop fails when it reaches it. -/
theorem removeTxids_absent :
    ∀ {pool : CTxMemPool} {l : List uint256} {b : uint256}, Consistent pool → b ∈ l →
      (∀ e ∈ pool.mapTx, e.tx.GetHash ≠ b) → removeTxids pool l = .error .assertion
  | pool, t :: l, b, h, hb, hgone => by
    unfold removeTxids
    cases hf : pool.find t with
    | none => rfl
    | some o =>
      obtain ⟨ho, hoid⟩ := find_eq_some hf
      obtain ⟨p₁, hrun₁, hs₁, -⟩ := removeRecursive_consistent h o.tx
      simp only [hrun₁, ok_bind]
      rcases List.mem_cons.mp hb with rfl | hb
      · exact absurd hoid (hgone o ho)
      · exact removeTxids_absent hs₁.1 hb fun e he => hgone e (hs₁.2 e he)

/-- When the entry with txid `b`, later in the copy than `a`, spends from `a`,
the loop fails: `b` leaves the pool with `a`'s descendants, or earlier. -/
theorem removeTxids_spender_fails :
    ∀ {pool : CTxMemPool} {pre post : List uint256} {a : uint256} {eb : CTxMemPoolEntry},
      Consistent pool → eb.tx.GetHash ∈ post → eb ∈ pool.mapTx → CTxMemPool.spends eb a = true →
      removeTxids pool (pre ++ a :: post) = .error .assertion
  | pool, [], post, a, eb, h, hb, heb, hspend => by
    rw [List.nil_append]
    unfold removeTxids
    cases hf : pool.find a with
    | none => rfl
    | some o =>
      obtain ⟨-, hoid⟩ := find_eq_some hf
      have hrec : pool.removeRecursive o.tx = pool.removeRecursiveAt o := by
        unfold removeRecursive
        rw [hoid, hf]
      obtain ⟨p₁, hrun₁, hs₁, hgone⟩ := removeRecursiveAt_consistent h o
      simp only [hrec, hrun₁, ok_bind]
      refine removeTxids_absent hs₁.1 hb fun e he hid => ?_
      -- the entry with `b`'s txid is `eb`, which spends from `a` and went with it
      obtain rfl := eq_of_txid_eq h.nodup (hs₁.2 e he) heb hid
      exact hgone e heb (.inr (hoid ▸ hspend)) he
  | pool, t :: pre, post, a, eb, h, hb, heb, hspend => by
    rw [List.cons_append]
    unfold removeTxids
    cases hf : pool.find t with
    | none => rfl
    | some o =>
      obtain ⟨p₁, hrun₁, hs₁, -⟩ := removeRecursive_consistent h o.tx
      simp only [hrun₁, ok_bind]
      by_cases heb₁ : eb ∈ p₁.mapTx
      · exact removeTxids_spender_fails hs₁.1 hb heb₁ hspend
      · -- `eb` went with an earlier txid of the copy, before its turn
        refine removeTxids_absent hs₁.1 (List.mem_append_right _ (List.mem_cons_of_mem _ hb))
          fun e he hid => heb₁ ?_
        obtain rfl := eq_of_txid_eq h.nodup (hs₁.2 e he) heb hid
        exact he

/-- One turn of the loop on a txid of the pool: `removeRecursive` of its entry
leaves the entries that do not descend from it. -/
theorem removeTxids_cons {pool : CTxMemPool} (h : Consistent pool) {o : CTxMemPoolEntry} (ho : o ∈ pool.mapTx)
    (l : List uint256) :
    ∃ p₁, removeTxids pool (o.tx.GetHash :: l) = removeTxids p₁ l ∧ Consistent p₁ ∧
      p₁.mapTx = pool.mapTx.filter fun e =>
        e.tx.GetHash ∉ (pool.GetDescendants [o.tx.GetHash]).map (·.tx.GetHash) := by
  obtain ⟨p₁, hrun₁, hc₁, hmap₁⟩ := removeAll_getDescendants h [o.tx.GetHash]
  have hf := find_self h ho
  have hrec : pool.removeRecursive o.tx = .ok p₁ := by
    unfold removeRecursive
    rw [hf]
    exact hrun₁
  exact ⟨p₁, by simp only [removeTxids, hf, hrec, ok_bind], hc₁, hmap₁⟩

/-- The loop returns exactly when every txid of the copy is in the pool and
none descends from one before it: the turn of a txid takes its descendants,
and leaves the paths between the others as they were. -/
theorem removeTxids_ok_iff :
    ∀ {pool : CTxMemPool} {l : List uint256}, Consistent pool →
      ((∃ pool', removeTxids pool l = .ok pool') ↔
        (∀ t ∈ l, t ∈ pool.mapTx.map (·.tx.GetHash)) ∧ l.Pairwise fun a b => ¬ Descends pool.mapTx a b)
  | pool, [], _ => by simp [removeTxids]
  | pool, t :: l, h => by
    by_cases ht : t ∈ pool.mapTx.map (·.tx.GetHash)
    · obtain ⟨o, ho, rfl⟩ := List.mem_map.mp ht
      obtain ⟨p₁, hstep, hc₁, hmap₁⟩ := removeTxids_cons h ho l
      have hleft : ∀ b, b ∈ p₁.mapTx.map (·.tx.GetHash) ↔
          b ∈ pool.mapTx.map (·.tx.GetHash) ∧ ¬ Descends pool.mapTx o.tx.GetHash b := by
        intro b
        rw [hmap₁, Lib.Closure.mem_keys_filter, mem_getDescendants_keys]
        simp only [List.mem_singleton, exists_eq_left, and_congr_right_iff]
        exact fun hb => not_congr (and_iff_right hb)
      have hsame : ∀ a b, b ∈ p₁.mapTx.map (·.tx.GetHash) →
          (Descends p₁.mapTx a b ↔ Descends pool.mapTx a b) := by
        intro a b hb
        rw [hmap₁] at hb ⊢
        exact Lib.Closure.reflTransGen_filter_iff (closed_getDescendants _)
          (Iff.mp Lib.Closure.mem_keys_filter hb).2
      rw [hstep, removeTxids_ok_iff hc₁, List.forall_mem_cons, List.pairwise_cons]
      constructor
      · rintro ⟨hin, hpair⟩
        refine ⟨⟨ht, fun b hb => ((hleft b).mp (hin b hb)).1⟩, fun b hb => ((hleft b).mp (hin b hb)).2, ?_⟩
        exact (List.Pairwise.iff_of_mem fun _ hb => not_congr (hsame _ _ (hin _ hb))).mp hpair
      · rintro ⟨⟨-, hin⟩, hnot, hpair⟩
        have hin₁ : ∀ b ∈ l, b ∈ p₁.mapTx.map (·.tx.GetHash) := fun b hb => (hleft b).mpr ⟨hin b hb, hnot b hb⟩
        exact ⟨hin₁, (List.Pairwise.iff_of_mem fun _ hb => not_congr (hsame _ _ (hin₁ _ hb))).mpr hpair⟩
    · -- the first txid is not in the pool: its `assert` fails
      have hf : pool.find t = none := Iff.mpr find_eq_none fun e he hid => ht (List.mem_map.mpr ⟨e, he, hid⟩)
      refine iff_of_false ?_ fun hin => ht (hin.1 t List.mem_cons_self)
      simp [removeTxids, hf]

end CNameMemPool

/-! ## `check` -/

/-- The pending updates of `name` among `entries`. -/
def updateCount (entries : List CTxMemPoolEntry) (name : valtype) : Nat :=
  (entries.filter fun e => e.isNameUpdate && e.getName == name).length

/-- What the loop of `check` has gathered after the entries `done`: the names
they register, once each, and the number of updates of each name. -/
def CheckAcc (done : List CTxMemPoolEntry) (acc : List valtype × List (valtype × Nat)) : Prop :=
  (∀ n, n ∈ acc.1 ↔ ∃ e ∈ done, e.isNameRegistration = true ∧ e.getName = n) ∧ acc.1.Nodup ∧
  Sorted (· < ·) acc.2 ∧
  ∀ n, acc.2.lookup n = if updateCount done n = 0 then none else some (updateCount done n)

namespace CNameMemPool

variable {m : CNameMemPool} {e : CTxMemPoolEntry} {acc : List valtype × List (valtype × Nat)}

theorem checkEntry_of_nop (hop : e.nameOp.op = .OP_NOP) : m.checkEntry acc e = .ok acc := by
  simp [checkEntry, hop]

theorem checkEntry_of_new (hop : e.nameOp.op = .OP_NAME_NEW)
    (hlook : m.mapNameNews.lookup e.getNameNewHash = some e.tx.GetHash) : m.checkEntry acc e = .ok acc := by
  simp [checkEntry, hop, hlook, failIf]

theorem checkEntry_of_registration (hop : e.nameOp.op = .OP_NAME_FIRSTUPDATE)
    (hlook : m.mapNameRegs.lookup e.getName = some e.tx.GetHash) (hnew : e.getName ∉ acc.1) :
    m.checkEntry acc e = .ok (Lib.OrdSet.insert e.getName acc.1, acc.2) := by
  simp [checkEntry, hop, hlook, List.count_eq_zero.mpr hnew, failIf]

theorem checkEntry_of_update (hop : e.nameOp.op = .OP_NAME_UPDATE) {txids : List uint256}
    (hlook : m.updates.lookup e.getName = some txids) (hin : e.tx.GetHash ∈ txids) :
    m.checkEntry acc e =
      .ok (acc.1, insertKey (· < ·) e.getName ((acc.2.lookup e.getName).getD 0 + 1) acc.2) := by
  simp [checkEntry, hop, hlook, hin, failIf]

theorem checkCounts_ok : ∀ {l : List (valtype × Nat)},
    (∀ p ∈ l, ∃ txids, m.updates.lookup p.1 = some txids ∧ txids.length = p.2) → m.checkCounts l = .ok ()
  | [], _ => rfl
  | (name, n) :: l, h => by
    obtain ⟨txids, hlook, hlen⟩ := h (name, n) List.mem_cons_self
    unfold checkCounts
    rw [hlook]
    dsimp only
    rw [hlen, failIf_bind_eq_ok]
    exact ⟨not_not.mpr rfl, checkCounts_ok fun p hp => h p (List.mem_cons_of_mem _ hp)⟩

end CNameMemPool

theorem updateCount_append (l : List CTxMemPoolEntry) (x : CTxMemPoolEntry) (n : valtype) :
    updateCount (l ++ [x]) n = updateCount l n + (if (x.isNameUpdate && x.getName == n) then 1 else 0) := by
  unfold updateCount
  rw [List.filter_append, List.length_append, List.filter_singleton]
  cases x.isNameUpdate && x.getName == n <;> rfl

theorem updateCount_append_of {l : List CTxMemPoolEntry} {x : CTxMemPoolEntry} {n : valtype}
    (h : ¬(x.isNameUpdate = true ∧ x.getName = n)) : updateCount (l ++ [x]) n = updateCount l n := by
  rw [updateCount_append, if_neg (by simpa only [Bool.and_eq_true, beq_iff_eq] using h), Nat.add_zero]

theorem updateCount_append_self {l : List CTxMemPoolEntry} {x : CTxMemPoolEntry} (h : x.isNameUpdate = true) :
    updateCount (l ++ [x]) x.getName = updateCount l x.getName + 1 := by
  rw [updateCount_append, if_pos (by simp only [h, beq_self_eq_true, Bool.and_self])]

/-- One turn of the loop of `check` over an entry of a pool in step passes its
asserts and gathers the entry. -/
theorem checkEntry_step {pool : CTxMemPool} (h : Consistent pool) {done rest : List CTxMemPoolEntry}
    {x : CTxMemPoolEntry} (hsplit : pool.mapTx = done ++ x :: rest)
    {acc : List valtype × List (valtype × Nat)} (hacc : CheckAcc done acc) :
    ∃ acc', pool.names.checkEntry acc x = .ok acc' ∧ CheckAcc (done ++ [x]) acc' := by
  obtain ⟨hregs, hnd, hsorted, hcount⟩ := hacc
  have hx : x ∈ pool.mapTx := hsplit ▸ List.mem_append_right _ List.mem_cons_self
  -- an entry of `done` is not `x`, since the txids are distinct
  have hdone : ∀ e ∈ done, e.tx.GetHash ≠ x.tx.GetHash := by
    have hnd' := h.nodup
    rw [hsplit, List.map_append, List.map_cons] at hnd'
    intro e he hid
    exact (List.nodup_middle.mp hnd' |> List.nodup_cons.mp).1 (List.mem_append_left _ (hid ▸ List.mem_map_of_mem he))
  -- the counts and names of `done ++ [x]` for an entry that changes neither
  have hsame : x.isNameRegistration = false → x.isNameUpdate = false → CheckAcc (done ++ [x]) acc := by
    intro hreg hupd
    refine ⟨fun n => ?_, hnd, hsorted, fun n => ?_⟩
    · rw [hregs n]
      simp only [List.mem_append, List.mem_singleton, or_and_right, exists_or, exists_eq_left, hreg,
        Bool.false_eq_true, false_and, or_false]
    · rw [hcount n, updateCount_append_of (fun hx => Bool.false_ne_true (hupd ▸ hx.1))]
  cases hop : x.nameOp.op with
  | OP_NOP => exact ⟨acc, CNameMemPool.checkEntry_of_nop hop, hsame (by simp [hop]) (by simp [hop])⟩
  | OP_NAME_NEW =>
    exact ⟨acc, CNameMemPool.checkEntry_of_new hop (h.news x hx (by simp [hop])),
      hsame (by simp [hop]) (by simp [hop])⟩
  | OP_NAME_FIRSTUPDATE =>
    have hk : x.isNameRegistration = true := by simp [hop]
    have hlook := Iff.mpr (h.regs x.getName x.tx.GetHash) ⟨x, hx, hk, rfl, rfl⟩
    -- no entry before `x` registers its name: it would have `x`'s txid
    have hnew : x.getName ∉ acc.1 := fun hin => by
      obtain ⟨e, he, hke, hn⟩ := Iff.mp (hregs _) hin
      have he' : e ∈ pool.mapTx := hsplit ▸ List.mem_append_left _ he
      have hl := Iff.mpr (h.regs x.getName e.tx.GetHash) ⟨e, he', hke, hn, rfl⟩
      rw [hlook] at hl
      exact hdone e he (Option.some.inj hl).symm
    refine ⟨_, CNameMemPool.checkEntry_of_registration hop hlook hnew, fun n => ?_, ?_, hsorted, fun n => ?_⟩
    · rw [Lib.OrdSet.mem_insert, hregs n]
      simp only [List.mem_append, List.mem_singleton]
      constructor
      · rintro (rfl | ⟨e, he, hke, rfl⟩)
        · exact ⟨x, .inr rfl, hk, rfl⟩
        · exact ⟨e, .inl he, hke, rfl⟩
      · rintro ⟨e, he | rfl, hke, rfl⟩
        · exact .inr ⟨e, he, hke, rfl⟩
        · exact .inl rfl
    · exact Lib.OrdSet.nodup_insert hnd
    · rw [hcount n, updateCount_append]
      simp [hop]
  | OP_NAME_UPDATE =>
    have hk : x.isNameUpdate = true := by simp [hop]
    have hin := Iff.mpr (h.updates.1 x.getName x.tx.GetHash) ⟨x, hx, hk, rfl, rfl⟩
    obtain ⟨txids, hlook⟩ : ∃ txids, pool.names.updates.lookup x.getName = some txids := by
      cases hs : pool.names.updates.lookup x.getName with
      | none => rw [hs] at hin; cases hin
      | some txids => exact ⟨txids, rfl⟩
    rw [hlook, Option.getD_some] at hin
    refine ⟨_, CNameMemPool.checkEntry_of_update hop hlook hin, fun n => ?_, hnd,
      sorted_insertKey _ _ _ hsorted, fun n => ?_⟩
    · rw [hregs n]
      simp [hop]
    · rw [lookup_insertKey]
      by_cases hn : n = x.getName
      · subst hn
        rw [hcount, if_pos rfl, updateCount_append_self hk]
        by_cases h0 : updateCount done x.getName = 0 <;> simp [h0]
      · rw [hcount n, if_neg hn, updateCount_append_of (fun hx => hn hx.2.symm)]

/-- Two duplicate-free lists with the same members have the same length. -/
theorem length_eq_of_mem_iff {α : Type} {l₁ l₂ : List α} (h₁ : l₁.Nodup) (h₂ : l₂.Nodup)
    (h : ∀ a, a ∈ l₁ ↔ a ∈ l₂) : l₁.length = l₂.length :=
  (Iff.mpr (List.perm_ext_iff_of_nodup h₁ h₂) h).length_eq

/-- The set of a name's updates has one txid for each of its pending updates. -/
theorem Consistent.updates_length {pool : CTxMemPool} (h : Consistent pool) {name : valtype}
    {txids : List uint256} (hlook : pool.names.updates.lookup name = some txids) :
    txids.length = updateCount pool.mapTx name := by
  unfold updateCount
  rw [← List.length_map (f := fun e : CTxMemPoolEntry => e.tx.GetHash)]
  refine length_eq_of_mem_iff (h.updates.2 name txids hlook).2
    (h.nodup.sublist (List.filter_sublist.map _)) fun t => ?_
  have hiff := h.updates.1 name t
  rw [hlook, Option.getD_some] at hiff
  rw [hiff]
  simp [Has, and_assoc]

/-- A name has a set of updates exactly when it has a pending update. -/
theorem Consistent.updates_isSome {pool : CTxMemPool} (h : Consistent pool) (name : valtype) :
    (pool.names.updates.lookup name).isSome ↔ updateCount pool.mapTx name ≠ 0 := by
  cases hlook : pool.names.updates.lookup name with
  | none =>
    simp only [Option.isSome_none, Bool.false_eq_true, false_iff, not_not]
    unfold updateCount
    refine List.length_eq_zero_iff.mpr (List.filter_eq_nil_iff.mpr fun e he hk => ?_)
    have hin := Iff.mpr (h.updates.1 name e.tx.GetHash) ⟨e, he, by simp_all, by simp_all, rfl⟩
    rw [hlook] at hin
    cases hin
  | some txids =>
    rw [← h.updates_length hlook]
    simpa using (h.updates.2 name txids hlook).1

/-- On a pool in step, the structural asserts of `check` all hold. -/
theorem Consistent.check {pool : CTxMemPool} (h : Consistent pool) : pool.names.check pool.mapTx = .ok () := by
  obtain ⟨acc, hfold, hregs, hnd, hsorted, hcount⟩ := foldlM_ok (f := pool.names.checkEntry)
    (l := pool.mapTx) (P := CheckAcc) (fun done x rest acc hsplit hacc => checkEntry_step h hsplit hacc)
    (a := ([], [])) ⟨fun _ => by simp, List.nodup_nil, sorted_nil _, fun _ => by simp [updateCount]⟩
  -- `nameRegs` has the keys of `mapNameRegs`, and `nameUpdates` those of `updates`
  have hregLen : acc.1.length = pool.names.mapNameRegs.length := by
    rw [← List.length_map (f := Prod.fst)]
    refine length_eq_of_mem_iff hnd (nodup_keys _ pool.names.sorted_regs) fun n => ?_
    rw [hregs n, mem_keys_iff, Option.isSome_iff_exists]
    constructor
    · rintro ⟨e, he, hk, rfl⟩
      exact ⟨e.tx.GetHash, Iff.mpr (h.regs _ _) ⟨e, he, hk, rfl, rfl⟩⟩
    · rintro ⟨t, ht⟩
      obtain ⟨e, he, hk, hn, -⟩ := Iff.mp (h.regs _ _) ht
      exact ⟨e, he, hk, hn⟩
  have hupdLen : acc.2.length = pool.names.updates.length := by
    have hkeys : (pool.names.updates.map Prod.fst).length = pool.names.updates.length := List.length_map _
    rw [← List.length_map (f := Prod.fst), ← hkeys]
    refine length_eq_of_mem_iff (nodup_keys _ hsorted) (nodup_keys _ pool.names.sorted_updates) fun n => ?_
    rw [mem_keys_iff, mem_keys_iff, hcount n, h.updates_isSome n]
    by_cases h0 : updateCount pool.mapTx n = 0 <;> simp [h0]
  have hcounts : ∀ p ∈ acc.2, ∃ txids, pool.names.updates.lookup p.1 = some txids ∧ txids.length = p.2 := by
    intro p hp
    have hl := Iff.mp (mem_iff_lookup _ p.1 p.2 hsorted) hp
    rw [hcount] at hl
    split at hl
    · cases hl
    · rename_i h0
      obtain ⟨txids, hlook⟩ := Option.isSome_iff_exists.mp (Iff.mpr (h.updates_isSome p.1) h0)
      exact ⟨txids, hlook, (h.updates_length hlook).trans (Option.some.inj hl)⟩
  unfold CNameMemPool.check
  rw [hfold, ok_bind]
  simp only [hregLen, hupdLen, failIf_bind_eq_ok, ne_eq, not_true_eq_false, not_false_eq_true, true_and]
  exact CNameMemPool.checkCounts_ok hcounts

/-! ## Runs -/

/-- The pools the node reaches from an empty one by actions whose callers'
checks pass and whose asserts hold. -/
inductive Reachable : CTxMemPool → Prop
  | empty : Reachable CTxMemPool.empty
  | step {pool pool' : CTxMemPool} {a : Action} :
      Reachable pool → a.Allowed pool → a.run pool = .ok pool' → Reachable pool'

namespace Action

/-- Every action but `removeExpireConflicts` succeeds on a pool in step, and an
action that succeeds leaves it in step. -/
theorem run_consistent {pool : CTxMemPool} (h : Consistent pool) :
    ∀ a : Action, a.Allowed pool →
      ((∀ expired, a ≠ .removeExpireConflicts expired) → ∃ pool', a.run pool = .ok pool') ∧
      ∀ pool', a.run pool = .ok pool' → Consistent pool'
  | .addNewTransaction entry, ⟨hfresh, hcheck⟩ => by
    obtain ⟨pool', hrun, hc⟩ := CTxMemPool.addNewTransaction_consistent h hfresh hcheck
    exact ⟨fun _ => ⟨pool', hrun⟩, fun p hp => by
      rw [run, hrun] at hp
      exact Except.ok.inj hp ▸ hc⟩
  | .removeRecursive tx, _ => by
    obtain ⟨pool', hrun, hs, -⟩ := CTxMemPool.removeRecursive_consistent h tx
    exact ⟨fun _ => ⟨pool', hrun⟩, fun p hp => by
      rw [run, hrun] at hp
      exact Except.ok.inj hp ▸ hs.1⟩
  | .removeForBlock vtx, _ => by
    obtain ⟨pool', hrun, hs⟩ := CTxMemPool.removeForBlock_shrinks h vtx
    exact ⟨fun _ => ⟨pool', hrun⟩, fun p hp => by
      rw [run, hrun] at hp
      exact Except.ok.inj hp ▸ hs.1⟩
  | .removeUnexpireConflicts unexpired, _ => by
    obtain ⟨pool', hrun, hs⟩ := CNameMemPool.removeUnexpireConflicts_shrinks h unexpired
    exact ⟨fun _ => ⟨pool', hrun⟩, fun p hp => by
      rw [run, hrun] at hp
      exact Except.ok.inj hp ▸ hs.1⟩
  | .removeExpireConflicts expired, _ =>
    ⟨fun hne => absurd rfl (hne expired), fun _ hp => (CNameMemPool.removeExpireConflicts_shrinks h hp).1.1⟩

end Action

theorem Reachable.consistent {pool : CTxMemPool} (hr : Reachable pool) : Consistent pool := by
  induction hr with
  | empty => exact consistent_empty
  | step _ hallowed hrun ih => exact ((Action.run_consistent ih _ hallowed).2 _ hrun)

/-- Two registrations of one name in a pool in step are one entry. -/
theorem Consistent.registration_unique {pool : CTxMemPool} (h : Consistent pool) {e₁ e₂ : CTxMemPoolEntry}
    (he₁ : e₁ ∈ pool.mapTx) (he₂ : e₂ ∈ pool.mapTx) (hk₁ : e₁.isNameRegistration = true)
    (hk₂ : e₂.isNameRegistration = true) (hname : e₁.getName = e₂.getName) : e₁ = e₂ := by
  have h₁ := Iff.mpr (h.regs e₁.getName e₁.tx.GetHash) ⟨e₁, he₁, hk₁, rfl, rfl⟩
  have h₂ := Iff.mpr (h.regs e₁.getName e₂.tx.GetHash) ⟨e₂, he₂, hk₂, hname.symm, rfl⟩
  rw [h₁] at h₂
  exact eq_of_txid_eq h.nodup he₁ he₂ (Option.some.inj h₂)

/-! ## Two pending updates of one name, the second spending the first -/

def updateTx₁ : CTransaction :=
  ⟨1, NAMECOIN_VERSION, [⟨⟨7, 0⟩⟩], [⟨1, CNameScript.buildNameUpdate [] [0x61] []⟩]⟩

def updateTx₂ : CTransaction :=
  ⟨2, NAMECOIN_VERSION, [⟨⟨1, 0⟩⟩], [⟨1, CNameScript.buildNameUpdate [] [0x61] [0x62]⟩]⟩

def updateEntry₁ : CTxMemPoolEntry :=
  ⟨updateTx₁, CNameScript.ofScript (CNameScript.buildNameUpdate [] [0x61] []), by decide⟩

def updateEntry₂ : CTxMemPoolEntry :=
  ⟨updateTx₂, CNameScript.ofScript (CNameScript.buildNameUpdate [] [0x61] [0x62]), by decide⟩

def onePendingUpdate : CTxMemPool := ⟨[updateEntry₁], CNameMemPool.empty.setUpdates [0x61] [1]⟩

def twoPendingUpdates : CTxMemPool :=
  ⟨[updateEntry₁, updateEntry₂], onePendingUpdate.names.setUpdates [0x61] [1, 2]⟩

/-- The node reaches the pool by accepting the two updates in turn. -/
theorem twoPendingUpdates_reachable : Reachable twoPendingUpdates :=
  .step (.step .empty (a := .addNewTransaction updateEntry₁) ⟨rfl, rfl⟩ rfl)
    (a := .addNewTransaction updateEntry₂) ⟨rfl, rfl⟩ rfl

/-! ## The index over every run -/

/-- In every pool the node reaches, the name index describes the pool:
`mapNameRegs` maps each name to the txid of its one pending registration and
has no other keys, `updates` maps each name to the non-empty set of the txids
of its pending updates and has no other keys, every pending `NAME_NEW` has its
hash in `mapNameNews` with its txid, and the structural asserts of `check` hold. -/
theorem name_index_agrees {pool : CTxMemPool} (hr : Reachable pool) :
    Consistent pool ∧
    (∀ e₁ ∈ pool.mapTx, ∀ e₂ ∈ pool.mapTx, e₁.isNameRegistration = true → e₂.isNameRegistration = true →
      e₁.getName = e₂.getName → e₁ = e₂) ∧
    pool.names.check pool.mapTx = .ok () :=
  ⟨hr.consistent, fun _ he₁ _ he₂ hk₁ hk₂ hname => hr.consistent.registration_unique he₁ he₂ hk₁ hk₂ hname,
    hr.consistent.check⟩

theorem name_index_agrees_two_updates :
    Reachable twoPendingUpdates ∧ Consistent twoPendingUpdates ∧
    (∀ e₁ ∈ twoPendingUpdates.mapTx, ∀ e₂ ∈ twoPendingUpdates.mapTx, e₁.isNameRegistration = true →
      e₂.isNameRegistration = true → e₁.getName = e₂.getName → e₁ = e₂) ∧
    twoPendingUpdates.names.check twoPendingUpdates.mapTx = .ok () :=
  ⟨twoPendingUpdates_reachable, name_index_agrees twoPendingUpdates_reachable⟩

/-- From every pool the node reaches, no `assert` fails in adding a transaction
that is new and that `checkTx` accepts, in `removeRecursive`, in
`removeForBlock` with its conflict removals, or in `removeUnexpireConflicts`;
and in `removeExpireConflicts` the loop over a name's updates, when it returns,
leaves the name without pending updates, so the `assert` after it holds. -/
theorem pool_actions_keep_asserts {pool : CTxMemPool} (hr : Reachable pool) :
    (∀ a : Action, a.Allowed pool → (∀ expired, a ≠ .removeExpireConflicts expired) →
      ∃ pool', a.run pool = .ok pool') ∧
    ∀ name txids pool', pool.names.updates.lookup name = some txids →
      CNameMemPool.removeTxids pool txids = .ok pool' → pool'.names.updates.lookup name = none :=
  ⟨fun a ha => (Action.run_consistent hr.consistent a ha).1,
    fun _ _ _ hlook hrun => CNameMemPool.removeTxids_clears hr.consistent hlook hrun⟩

theorem pool_actions_keep_asserts_two_updates :
    Reachable twoPendingUpdates ∧
    (∀ a : Action, a.Allowed twoPendingUpdates → (∀ expired, a ≠ .removeExpireConflicts expired) →
      ∃ pool', a.run twoPendingUpdates = .ok pool') ∧
    ∀ name txids pool', twoPendingUpdates.names.updates.lookup name = some txids →
      CNameMemPool.removeTxids twoPendingUpdates txids = .ok pool' → pool'.names.updates.lookup name = none :=
  ⟨twoPendingUpdates_reachable, pool_actions_keep_asserts twoPendingUpdates_reachable⟩

/-- From every reachable pool, `removeExpireConflicts` fails an `assert` when a
pending update of the first expired name spends from another pending update of
that name that comes before it in the name's set of txids: its `removeRecursive`
takes the spender along, and the loop then does not find it. -/
theorem removeExpireConflicts_fails_on_chain {pool : CTxMemPool} (hr : Reachable pool)
    {name : valtype} {expired : List valtype} {pre post : List uint256} {a : uint256}
    {eb : CTxMemPoolEntry} (hupd : pool.names.updates.lookup name = some (pre ++ a :: post))
    (heb : eb ∈ pool.mapTx) (hb : eb.tx.GetHash ∈ post) (hspend : ∃ txin ∈ eb.tx.vin, txin.prevout.hash = a) :
    CNameMemPool.removeExpireConflicts pool (name :: expired) = .error .assertion := by
  have hfail : CNameMemPool.removeTxids pool (pre ++ a :: post) = .error .assertion :=
    CNameMemPool.removeTxids_spender_fails hr.consistent hb heb (Iff.mpr CTxMemPool.spends_iff hspend)
  unfold CNameMemPool.removeExpireConflicts
  rw [hupd]
  simp only [hfail, error_bind]

theorem removeExpireConflicts_fails_on_two_updates :
    Reachable twoPendingUpdates ∧
      CNameMemPool.removeExpireConflicts twoPendingUpdates [[0x61]] = .error .assertion :=
  ⟨twoPendingUpdates_reachable,
    @removeExpireConflicts_fails_on_chain twoPendingUpdates twoPendingUpdates_reachable [0x61] [] [] [2] 1
      updateEntry₂ (by decide) (List.mem_cons_of_mem _ (List.mem_singleton_self _)) (by decide)
      ⟨_, List.mem_singleton_self _, rfl⟩⟩

/-- From every reachable pool, `removeExpireConflicts` of an expired name
returns exactly when none of the name's pending updates descends, through the
pool's spends, from one that comes before it in the copy of their set. -/
theorem removeExpireConflicts_ok_iff {pool : CTxMemPool} (hr : Reachable pool) {name : valtype}
    {txids : List uint256} (hlook : pool.names.updates.lookup name = some txids) :
    (∃ pool', CNameMemPool.removeExpireConflicts pool [name] = .ok pool') ↔
      txids.Pairwise fun a b => ¬ CTxMemPool.Descends pool.mapTx a b := by
  have h := hr.consistent
  -- every txid of the copy is a pending update in the pool
  have hin : ∀ t ∈ txids, t ∈ pool.mapTx.map (·.tx.GetHash) := by
    intro t ht
    obtain ⟨e, he, -, -, rfl⟩ := Iff.mp (h.updates.1 name t) (by rw [hlook]; exact ht)
    exact List.mem_map_of_mem he
  have hloop := CNameMemPool.removeTxids_ok_iff (l := txids) h
  rw [and_iff_right hin] at hloop
  rw [← hloop]
  unfold CNameMemPool.removeExpireConflicts
  rw [hlook]
  dsimp only
  constructor
  · rintro ⟨pool', hrun⟩
    obtain ⟨p₁, hrun₁, -⟩ := bind_eq_ok.mp hrun
    exact ⟨p₁, hrun₁⟩
  · rintro ⟨p₁, hrun₁⟩
    refine ⟨p₁, ?_⟩
    rw [hrun₁, ok_bind, CNameMemPool.removeTxids_clears h hlook hrun₁]
    rfl

theorem removeExpireConflicts_ok_iff_two_updates :
    Reachable twoPendingUpdates ∧ twoPendingUpdates.names.updates.lookup [0x61] = some [1, 2] ∧
      ((∃ pool', CNameMemPool.removeExpireConflicts twoPendingUpdates [[0x61]] = .ok pool') ↔
        [1, 2].Pairwise fun a b => ¬ CTxMemPool.Descends twoPendingUpdates.mapTx a b) :=
  ⟨twoPendingUpdates_reachable, rfl, removeExpireConflicts_ok_iff twoPendingUpdates_reachable rfl⟩

end Namecoin.Names.MempoolIndex
