import Mathlib
import Namecoin.Names.CoinsCacheSpec
import Namecoin.Names.DisconnectSpec
import Namecoin.Names.MempoolIndex

/-! # What a record of name changes stands for (names/common.cpp, coins.cpp)

A `CNameCache` stands for the changes it records: written into a flat view
(`writeNames`, as `CCoinsViewDB::BatchWrite` does), it gives the view with those
changes made. A record built by its operations keeps its histories and its
expire-index changes sorted by key (`CNameCache.WF`), and then

* each operation on the record is the same operation on the view it stands for
  (`writeNames_set`, `writeNames_remove`, `writeNames_setHistory`,
  `writeNames_setExpire`), so `apply` of a child's record is the child's record
  written after the parent's (`writeNames_apply`);
* writing one record twice is writing it once (`writeNames_idem`): the record
  that `Flush` keeps (`flush_keeps_cacheNames`) changes nothing when the base
  already holds it;
* a cache answers `GetName`, `GetNameHistory` and `GetNamesForHeight` from the
  view its record stands for over its base, the last through the loop of
  `updateNamesForHeight`, which never meets a change below its height
  (`updateNamesForHeight_eq`);
* `SetName` and `DeleteName` of a cache fail where the flat `SetName` and
  `DeleteName` of that view fail, and otherwise leave a record that stands for
  their result (`SetName_agree`, `DeleteName_agree`).

The names of a height are a `std::set`, a sorted list; two sorted lists with
the same elements are one, so the expire index is compared by membership. -/

namespace Namecoin.Names
open Lib.KeyList Lib.AssocMap Lib.ExceptM Namecoin.Script

attribute [ext] CoinsView

/-! ## The order of the expire index -/

theorem expireEntry_lt_iff {a b : ExpireEntry} :
    ExpireEntry.lt a b = true ↔ a.nHeight < b.nHeight ∨ (a.nHeight = b.nHeight ∧ a.name < b.name) := by
  unfold ExpireEntry.lt
  by_cases h : a.nHeight = b.nHeight <;> simp [h]

instance expireLt_strictTotalOrder : IsStrictTotalOrder ExpireEntry (fun a b => ExpireEntry.lt a b = true) where
  trichotomous a b hab hba := by
    rw [expireEntry_lt_iff] at hab hba
    have hh : a.nHeight = b.nHeight := by omega
    have hn : a.name = b.name :=
      List.le_antisymm (List.not_lt.mp fun h => hba (.inr ⟨hh.symm, h⟩))
        (List.not_lt.mp fun h => hab (.inr ⟨hh, h⟩))
    cases a
    cases b
    simp only at hh hn
    rw [hh, hn]
  irrefl a h := by
    rcases expireEntry_lt_iff.mp h with h | ⟨-, h⟩
    · exact Nat.lt_irrefl _ h
    · exact List.lt_irrefl a.name h
  trans a b c hab hbc := by
    rw [expireEntry_lt_iff] at hab hbc ⊢
    rcases hab with hab | ⟨hab, hab'⟩ <;> rcases hbc with hbc | ⟨hbc, hbc'⟩
    · exact .inl (Nat.lt_trans hab hbc)
    · exact .inl (hbc ▸ hab)
    · exact .inl (hab ▸ hbc)
    · exact .inr ⟨hab.trans hbc, List.lt_trans hab' hbc'⟩

/-- The entry `lower_bound` seeks, of a height and the empty name, is below
every entry of that height. -/
theorem expireEntry_lt_seek (e : ExpireEntry) (h : Nat) :
    ExpireEntry.lt e ⟨h, []⟩ = decide (e.nHeight < h) := by
  unfold ExpireEntry.lt
  by_cases hh : e.nHeight = h
  · simp [hh]
  · simp [hh]

/-! ## Records built by their operations -/

namespace CNameCache

/-- The histories and the expire-index changes of the record are maps. -/
structure WF (c : CNameCache) : Prop where
  history : Sorted (· < ·) c.history
  expireIndex : Sorted (fun a b => ExpireEntry.lt a b = true) c.expireIndex

variable {c : CNameCache}

theorem wf_clear : clear.WF := ⟨sorted_nil _, sorted_nil _⟩

theorem WF.set (hc : c.WF) (name : valtype) (data : CNameData) : (c.set name data).WF :=
  ⟨hc.history, hc.expireIndex⟩

theorem WF.remove (hc : c.WF) (name : valtype) : (c.remove name).WF := ⟨hc.history, hc.expireIndex⟩

theorem WF.setHistory (hc : c.WF) (name : valtype) (data : List CNameData) : (c.setHistory name data).WF :=
  ⟨sorted_insertKey _ name data hc.history, hc.expireIndex⟩

theorem WF.setExpire (hc : c.WF) (entry : ExpireEntry) (value : Bool) : (c.setExpire entry value).WF :=
  ⟨hc.history, sorted_insertKey _ entry value hc.expireIndex⟩

/-- A fold of operations that keep the record a record of maps keeps it one. -/
theorem WF.foldl {α : Type} {f : CNameCache → α → CNameCache} (hf : ∀ c a, c.WF → (f c a).WF) :
    ∀ (l : List α) {c : CNameCache}, c.WF → (l.foldl f c).WF
  | [], _, hc => hc
  | a :: l, c, hc => WF.foldl hf l (hf c a hc)

/-- `apply` keeps the parent's record a record of maps, whatever the child's. -/
theorem WF.apply (hc : c.WF) (cache : CNameCache) : (c.apply cache).WF := by
  unfold CNameCache.apply
  refine WF.foldl (fun c e hc => hc.setExpire e.1 e.2) _ ?_
  refine WF.foldl (fun c e hc => hc.setHistory e.1 e.2) _ ?_
  refine WF.foldl (fun c name hc => hc.remove name) _ ?_
  exact WF.foldl (fun c e hc => hc.set e.1 e.2) _ hc

end CNameCache

/-! ## The expire index written change by change -/

/-- One change of the names of a height: `true` adds the name, `false` erases it. -/
def expireChange (value : Bool) (name : valtype) (names : List valtype) : List valtype :=
  if value then Lib.OrdSet.insert name names else Lib.OrdSet.erase name names

/-- The expire-index changes `idx` made one by one to the names of each height. -/
def writeExpire (idx : List (ExpireEntry × Bool)) (f : Nat → List valtype) : Nat → List valtype :=
  idx.foldl (fun f e => Function.update f e.1.nHeight (expireChange e.2 e.1.name (f e.1.nHeight))) f

/-- The expire entries of an index, as a set. -/
def expireSet (f : Nat → List valtype) (e : ExpireEntry) : Bool := (f e.nHeight).contains e.name

/-- The names of one height see only the changes at that height, in order. -/
theorem writeExpire_apply (idx : List (ExpireEntry × Bool)) (f : Nat → List valtype) (h : Nat) :
    writeExpire idx f h =
      (idx.filter fun e => e.1.nHeight = h).foldl (fun names e => expireChange e.2 e.1.name names) (f h) := by
  induction idx generalizing f with
  | nil => rfl
  | cons e idx ih =>
    rw [writeExpire, List.foldl_cons, ← writeExpire, ih, List.filter_cons]
    by_cases he : e.1.nHeight = h
    · subst he
      simp
    · simp [he, Function.update_of_ne (Ne.symm he)]

theorem expireSet_change (f : Nat → List valtype) (e : ExpireEntry) (value : Bool) :
    expireSet (Function.update f e.nHeight (expireChange value e.name (f e.nHeight))) =
      Function.update (expireSet f) e value := by
  funext e'
  by_cases he : e' = e
  · subst he
    cases value <;> simp [expireSet, expireChange]
  · by_cases hh : e'.nHeight = e.nHeight
    · -- another name of the same height
      have hn : e'.name ≠ e.name := fun hn => he (by cases e; cases e'; simp_all)
      cases value <;> simp [expireSet, expireChange, hh, hn, he]
    · simp [expireSet, hh, he]

theorem expireSet_writeExpire (idx : List (ExpireEntry × Bool)) (f : Nat → List valtype) :
    expireSet (writeExpire idx f) = idx.foldl (fun m e => Function.update m e.1 e.2) (expireSet f) :=
  (List.foldl_hom expireSet fun f e => (expireSet_change f e.1 e.2).symm).symm

/-- With one change for each entry, the change of an entry decides whether it
is in the index, and an entry without one is as before. -/
theorem mem_writeExpire {idx : List (ExpireEntry × Bool)} (hidx : KeysNodup idx) (f : Nat → List valtype)
    (h : Nat) (n : valtype) :
    n ∈ writeExpire idx f h ↔
      match idx.lookup ⟨h, n⟩ with
      | some b => b = true
      | none => n ∈ f h := by
  have hset := congrFun (expireSet_writeExpire idx f) ⟨h, n⟩
  rw [foldl_update_eq_lookup (fun b => b) hidx] at hset
  have hmem : n ∈ writeExpire idx f h ↔ expireSet (writeExpire idx f) ⟨h, n⟩ = true := by
    simp [expireSet]
  rw [hmem, hset]
  cases idx.lookup ⟨h, n⟩ with
  | some b => rfl
  | none => simp [expireSet]

theorem pairwise_writeExpire (idx : List (ExpireEntry × Bool)) {f : Nat → List valtype}
    (hf : ∀ h, (f h).Pairwise (· < ·)) (h : Nat) : (writeExpire idx f h).Pairwise (· < ·) := by
  induction idx generalizing f with
  | nil => exact hf h
  | cons e idx ih =>
    refine ih fun k => CoinsView.pairwise_update_expireIndex hf (fun hs => ?_) k
    cases e.2
    · exact Lib.OrdSet.pairwise_erase hs
    · exact Lib.OrdSet.pairwise_insert hs

/-- Indexes of sorted heights with the same names are one. -/
theorem expireIndex_ext {f g : Nat → List valtype} (hf : ∀ h, (f h).Pairwise (· < ·))
    (hg : ∀ h, (g h).Pairwise (· < ·)) (hmem : ∀ h n, n ∈ f h ↔ n ∈ g h) : f = g :=
  funext fun h => List.Pairwise.eq_of_mem_iff (hf h) (hg h) (hmem h)

/-! ## `updateNamesForHeight` -/

/-- The loop, on sorted changes none of which is below its height, makes the
changes of that height and stops at the first above. -/
theorem updateNamesLoop_eq (nHeight : Nat) :
    ∀ {l : List (ExpireEntry × Bool)}, Sorted (fun a b => ExpireEntry.lt a b = true) l →
      (∀ p ∈ l, nHeight ≤ p.1.nHeight) → ∀ names,
        CNameCache.updateNamesLoop nHeight l names =
          .ok ((l.filter fun e => e.1.nHeight = nHeight).foldl (fun names e => expireChange e.2 e.1.name names) names)
  | [], _, _, names => rfl
  | (cur, value) :: rest, hs, hge, names => by
    rw [sorted_cons] at hs
    have hcur : nHeight ≤ cur.nHeight := hge _ List.mem_cons_self
    rw [CNameCache.updateNamesLoop, if_neg (by omega)]
    by_cases hlt : nHeight < cur.nHeight
    · -- every later change is above `cur`, so none is of this height
      have hnone : (rest.filter fun e => e.1.nHeight = nHeight) = [] := by
        refine List.filter_eq_nil_iff.mpr fun p hp => ?_
        have hp' : cur.nHeight < p.1.nHeight ∨ cur.nHeight = p.1.nHeight ∧ _ :=
          expireEntry_lt_iff.mp (hs.1 p hp)
        simp only [decide_eq_true_eq]
        omega
      rw [if_pos hlt, List.filter_cons_of_neg (by simpa using Nat.ne_of_gt hlt), hnone]
      rfl
    · have heq : cur.nHeight = nHeight := by omega
      rw [if_neg hlt, updateNamesLoop_eq nHeight hs.2 (fun p hp => hge p (List.mem_cons_of_mem _ hp)),
        List.filter_cons_of_pos (by simpa using heq), List.foldl_cons]
      rfl

/-- `updateNamesForHeight` on the names of a height in an index makes the
record's changes of that height: it never asserts. -/
theorem updateNamesForHeight_eq {c : CNameCache} (hc : c.WF) (f : Nat → List valtype) (h : Nat) :
    c.updateNamesForHeight h (f h) = .ok (writeExpire c.expireIndex f h) := by
  unfold CNameCache.updateNamesForHeight
  have hsorted := sorted_filter _ (fun p => decide ¬ ExpireEntry.lt p.1 ⟨h, []⟩ = true) hc.expireIndex
  rw [lowerBound_eq_filter _ _ hc.expireIndex, updateNamesLoop_eq h hsorted, writeExpire_apply]
  · -- the changes of the height are among those not below it
    rw [List.filter_filter]
    congr 2
    refine List.filter_congr fun p _ => ?_
    by_cases hp : p.1.nHeight = h <;> simp [hp, expireEntry_lt_seek]
  · intro p hp
    have hp' := (List.mem_filter.mp hp).2
    simp only [expireEntry_lt_seek, decide_eq_true_eq, decide_not, Bool.not_eq_true', decide_eq_false_iff_not] at hp'
    omega

/-! ## What `writeNames` does to each part of a view -/

/-- The names of each height are in order, as in a `std::set`. -/
def CoinsView.SortedIndex (view : CoinsView) : Prop := ∀ h, (view.expireIndex h).Pairwise (· < ·)

theorem writeNames_names (c : CNameCache) (view : CoinsView) (n : valtype) :
    (writeNames c view).names n = if c.isDeleted n then none else (c.get n).or (view.names n) := by
  unfold writeNames
  -- the expire-index changes and the histories keep the names
  rw [foldl_keeps CoinsView.names (fun _ _ => by split <;> rfl), foldl_keeps CoinsView.names (fun _ _ => by rfl),
    ← @List.foldl_hom _ _ _ CoinsView.names _ (fun m name => Function.update m name none) _ _ fun _ _ => by rfl,
    ← @List.foldl_hom _ _ _ CoinsView.names _ (fun m e => Function.update m e.1 (some e.2)) _ _ fun _ _ => by rfl,
    foldl_update_const, foldl_update_eq_lookup some (nodup_keys NameLess c.sorted_entries)]
  unfold CNameCache.isDeleted CNameCache.get
  by_cases hd : n ∈ c.deleted
  · simp [hd]
  · cases c.entries.lookup n <;> simp [hd]

theorem writeNames_history (c : CNameCache) (view : CoinsView) :
    (writeNames c view).history = c.history.foldl (fun m e => Function.update m e.1 e.2) view.history := by
  unfold writeNames
  rw [foldl_keeps CoinsView.history (fun _ _ => by split <;> rfl),
    ← @List.foldl_hom _ _ _ CoinsView.history _ (fun m e => Function.update m e.1 e.2) _ _ fun _ _ => by rfl,
    foldl_keeps CoinsView.history (fun _ _ => by rfl), foldl_keeps CoinsView.history (fun _ _ => by rfl)]

theorem writeNames_history_apply {c : CNameCache} (hc : c.WF) (view : CoinsView) (n : valtype) :
    (writeNames c view).history n = (c.getHistory n).getD (view.history n) := by
  rw [writeNames_history, foldl_update_eq_lookup (fun b => b) (nodup_keys _ hc.history)]
  unfold CNameCache.getHistory
  cases c.history.lookup n <;> rfl

theorem writeNames_expireIndex (c : CNameCache) (view : CoinsView) :
    (writeNames c view).expireIndex = writeExpire c.expireIndex view.expireIndex := by
  unfold writeNames
  rw [← @List.foldl_hom _ _ _ CoinsView.expireIndex _
      (fun f e => Function.update f e.1.nHeight (expireChange e.2 e.1.name (f e.1.nHeight))) _ _
      fun _ e => by rcases e with ⟨e, _ | _⟩ <;> rfl,
    foldl_keeps CoinsView.expireIndex (fun _ _ => by rfl), foldl_keeps CoinsView.expireIndex (fun _ _ => by rfl),
    foldl_keeps CoinsView.expireIndex (fun _ _ => by rfl)]
  rfl

theorem CoinsView.SortedIndex.writeNames {view : CoinsView} (hview : view.SortedIndex) (c : CNameCache) :
    (Names.writeNames c view).SortedIndex := by
  intro h
  rw [writeNames_expireIndex]
  exact pairwise_writeExpire c.expireIndex hview h

/-- A change put into the expire-index changes is the change made last. -/
theorem writeExpire_insertKey {idx : List (ExpireEntry × Bool)}
    (hidx : Sorted (fun a b => ExpireEntry.lt a b = true) idx) {f : Nat → List valtype}
    (hf : ∀ h, (f h).Pairwise (· < ·)) (e : ExpireEntry) (value : Bool) :
    writeExpire (insertKey (fun a b => ExpireEntry.lt a b = true) e value idx) f =
      Function.update (writeExpire idx f) e.nHeight (expireChange value e.name (writeExpire idx f e.nHeight)) := by
  have hidx' := sorted_insertKey _ e value hidx
  refine expireIndex_ext (pairwise_writeExpire _ hf)
    (CoinsView.pairwise_update_expireIndex (pairwise_writeExpire idx hf) (fun hs => ?_)) fun h n => ?_
  · cases value
    · exact Lib.OrdSet.pairwise_erase hs
    · exact Lib.OrdSet.pairwise_insert hs
  · rw [mem_writeExpire (nodup_keys _ hidx'), lookup_insertKey]
    by_cases he : (⟨h, n⟩ : ExpireEntry) = e
    · subst he
      cases value <;> simp [expireChange]
    · rw [if_neg he, ← mem_writeExpire (nodup_keys _ hidx)]
      by_cases hh : h = e.nHeight
      · -- another name of the height of the change
        subst hh
        have hn : n ≠ e.name := fun hn => he (by rw [hn])
        cases value <;> simp [expireChange, hn]
      · rw [Function.update_of_ne hh]

/-! ## Each operation on a record is the same operation on the view -/

section Squares

variable {c : CNameCache} {view : CoinsView}

theorem writeNames_set (c : CNameCache) (name : valtype) (data : CNameData) (view : CoinsView) :
    writeNames (c.set name data) view =
      { writeNames c view with names := Function.update (writeNames c view).names name (some data) } := by
  apply CoinsView.ext
  · exact (writeNames_coins _ view).trans (writeNames_coins c view).symm
  · funext n
    rw [writeNames_names, CNameCache.isDeleted_set, CNameCache.get_set]
    by_cases hn : n = name
    · simp [hn]
    · simp [hn, writeNames_names]
  · rw [writeNames_expireIndex, writeNames_expireIndex]
    rfl
  · rw [writeNames_history, writeNames_history]
    rfl

theorem writeNames_remove (c : CNameCache) (name : valtype) (view : CoinsView) :
    writeNames (c.remove name) view =
      { writeNames c view with names := Function.update (writeNames c view).names name none } := by
  apply CoinsView.ext
  · exact (writeNames_coins _ view).trans (writeNames_coins c view).symm
  · funext n
    rw [writeNames_names, CNameCache.isDeleted_remove, CNameCache.get_remove]
    by_cases hn : n = name
    · simp [hn]
    · simp [hn, writeNames_names]
  · rw [writeNames_expireIndex, writeNames_expireIndex]
    rfl
  · rw [writeNames_history, writeNames_history]
    rfl

theorem writeNames_setHistory (hc : c.WF) (name : valtype) (data : List CNameData) (view : CoinsView) :
    writeNames (c.setHistory name data) view =
      { writeNames c view with history := Function.update (writeNames c view).history name data } := by
  apply CoinsView.ext
  · exact (writeNames_coins _ view).trans (writeNames_coins c view).symm
  · funext n
    rw [writeNames_names, writeNames_names]
    rfl
  · rw [writeNames_expireIndex, writeNames_expireIndex]
    rfl
  · funext n
    rw [writeNames_history_apply (hc.setHistory name data), CNameCache.getHistory_setHistory]
    by_cases hn : n = name
    · simp [hn]
    · simp [hn, writeNames_history_apply hc]

theorem writeNames_setExpire (hc : c.WF) (hview : view.SortedIndex) (entry : ExpireEntry) (value : Bool) :
    writeNames (c.setExpire entry value) view =
      if value then (writeNames c view).addExpireIndex entry.name entry.nHeight
      else (writeNames c view).removeExpireIndex entry.name entry.nHeight := by
  have hidx : (writeNames (c.setExpire entry value) view).expireIndex =
      Function.update (writeNames c view).expireIndex entry.nHeight
        (expireChange value entry.name ((writeNames c view).expireIndex entry.nHeight)) := by
    rw [writeNames_expireIndex, writeNames_expireIndex]
    exact writeExpire_insertKey hc.expireIndex hview entry value
  apply CoinsView.ext
  · rw [writeNames_coins]
    cases value <;> exact (writeNames_coins c view).symm
  · funext n
    rw [writeNames_names]
    cases value <;> exact (writeNames_names c view n).symm
  · rw [hidx]
    cases value <;> rfl
  · rw [writeNames_history]
    cases value <;> exact (writeNames_history c view).symm

theorem writeNames_addExpireIndex (hc : c.WF) (hview : view.SortedIndex) (name : valtype) (h : Nat) :
    writeNames (c.addExpireIndex name h) view = (writeNames c view).addExpireIndex name h :=
  writeNames_setExpire hc hview ⟨h, name⟩ true

theorem writeNames_removeExpireIndex (hc : c.WF) (hview : view.SortedIndex) (name : valtype) (h : Nat) :
    writeNames (c.removeExpireIndex name h) view = (writeNames c view).removeExpireIndex name h :=
  writeNames_setExpire hc hview ⟨h, name⟩ false

/-- Writing a fold of record operations is the fold of their writes. -/
theorem writeNames_foldl {α : Type} {g : CNameCache → α → CNameCache} (step : CoinsView → α → CoinsView)
    (hg : ∀ c a, c.WF → (g c a).WF) (hstep : ∀ c a, c.WF → writeNames (g c a) view = step (writeNames c view) a) :
    ∀ (l : List α) {c : CNameCache}, c.WF → writeNames (l.foldl g c) view = l.foldl step (writeNames c view)
  | [], _, _ => rfl
  | a :: l, c, hc => by
    rw [List.foldl_cons, writeNames_foldl step hg hstep l (hg c a hc), hstep c a hc, List.foldl_cons]

/-- `apply (cache)` of a parent's record stands for the child's record written
over what the parent's stands for. -/
theorem writeNames_apply (hc : c.WF) (hview : view.SortedIndex) (cache : CNameCache) :
    writeNames (c.apply cache) view = writeNames cache (writeNames c view) := by
  unfold CNameCache.apply
  have h₁ := CNameCache.WF.foldl (fun c e hc => hc.set e.1 e.2) cache.entries hc
  have h₂ := CNameCache.WF.foldl (fun c name hc => hc.remove name) cache.deleted h₁
  have h₃ := CNameCache.WF.foldl (fun c e hc => hc.setHistory e.1 e.2) cache.history h₂
  rw [writeNames_foldl (fun view e =>
        if e.2 then view.addExpireIndex e.1.name e.1.nHeight else view.removeExpireIndex e.1.name e.1.nHeight)
      (fun c e hc => hc.setExpire e.1 e.2) (fun c e hc => writeNames_setExpire hc hview e.1 e.2) _ h₃,
    writeNames_foldl (fun view e => { view with history := Function.update view.history e.1 e.2 })
      (fun c e hc => hc.setHistory e.1 e.2) (fun c e hc => writeNames_setHistory hc e.1 e.2 view) _ h₂,
    writeNames_foldl (fun view name => { view with names := Function.update view.names name none })
      (fun c name hc => hc.remove name) (fun c name _ => writeNames_remove c name view) _ h₁,
    writeNames_foldl (fun view e => { view with names := Function.update view.names e.1 (some e.2) })
      (fun c e hc => hc.set e.1 e.2) (fun c e _ => writeNames_set c e.1 e.2 view) _ hc]
  rfl

/-- Writing a record twice is writing it once. -/
theorem writeNames_idem (hc : c.WF) (hview : view.SortedIndex) :
    writeNames c (writeNames c view) = writeNames c view := by
  apply CoinsView.ext
  · rw [writeNames_coins]
  · funext n
    rw [writeNames_names, writeNames_names]
    by_cases hd : c.isDeleted n
    · simp [hd]
    · cases c.get n <;> simp [hd]
  · rw [writeNames_expireIndex, writeNames_expireIndex]
    refine expireIndex_ext (pairwise_writeExpire _ (pairwise_writeExpire _ hview))
      (pairwise_writeExpire _ hview) fun h n => ?_
    have hidx := nodup_keys _ hc.expireIndex
    rw [mem_writeExpire hidx, mem_writeExpire hidx]
    cases c.expireIndex.lookup ⟨h, n⟩ <;> rfl
  · funext n
    rw [writeNames_history_apply hc, writeNames_history_apply hc]
    cases c.getHistory n <;> rfl

end Squares

/-! ## A cache answers from the view its record stands for -/

namespace CCoinsViewCache

variable {σ : Type} {v : CCoinsViewCache σ} {view : CoinsView}

theorem GetName_eq (B : ViewBase σ) (hn : B.GetName v.base = view.names) :
    GetName B v = (writeNames v.cacheNames view).names := by
  funext name
  rw [writeNames_names, GetName, hn]

theorem GetNameHistory_eq (B : ViewBase σ) (hc : v.cacheNames.WF) (hh : B.GetNameHistory v.base = view.history) :
    GetNameHistory B v = (writeNames v.cacheNames view).history := by
  funext name
  rw [writeNames_history_apply hc, GetNameHistory, hh]

theorem GetNamesForHeight_eq (B : CoinsBase σ) (hc : v.cacheNames.WF)
    (hf : ∀ h, B.GetNamesForHeight v.base h = .ok (view.expireIndex h)) (h : Nat) :
    GetNamesForHeight B v h = .ok ((writeNames v.cacheNames view).expireIndex h) := by
  rw [GetNamesForHeight, hf, ok_bind, writeNames_expireIndex]
  exact updateNamesForHeight_eq hc view.expireIndex h

/-- `SetName` of a cache fails where the flat `SetName` of the view its record
stands for fails, and otherwise changes only the record, to one that stands for
the flat result. -/
theorem SetName_agree (B : ViewBase σ) (fNameHistory : Bool) (hc : v.cacheNames.WF) (hview : view.SortedIndex)
    (hn : B.GetName v.base = view.names) (hh : B.GetNameHistory v.base = view.history)
    (name : valtype) (data : CNameData) (undo : Bool) :
    Agree (fun v' view' => v'.base = v.base ∧ v'.cacheCoins = v.cacheCoins ∧ v'.m_block_hash = v.m_block_hash ∧
        v'.cacheNames.WF ∧ writeNames v'.cacheNames view = view')
      (SetName B fNameHistory v name data undo)
      ((writeNames v.cacheNames view).SetName fNameHistory name data undo) := by
  unfold SetName recordOld CoinsView.SetName
  rw [GetName_eq B hn, GetNameHistory_eq B hc hh]
  cases hold : (writeNames v.cacheNames view).names name with
  | none =>
    dsimp only
    cases undo with
    | true => exact agree_of_error rfl rfl
    | false =>
      refine agree_of_ok rfl rfl ⟨rfl, rfl, rfl, (hc.set name data).setExpire _ _, ?_⟩
      rw [writeNames_addExpireIndex (hc.set name data) hview, writeNames_set]
  | some old =>
    dsimp only
    simp only [CoinsView.removeExpireIndex_history]
    -- the record of an existing name drops its old expire-index entry first
    have hrem := writeNames_removeExpireIndex hc hview name old.nHeight
    have hwf : (v.cacheNames.removeExpireIndex name old.nHeight).WF := hc.setExpire _ _
    -- with `-namehistory`, the new history is the old one popped or pushed
    have hhist : ∀ history, writeNames
        ((((v.cacheNames.removeExpireIndex name old.nHeight).setHistory name history).set name data).addExpireIndex
          name data.nHeight) view =
        ({ (writeNames v.cacheNames view).removeExpireIndex name old.nHeight with
            history := Function.update (writeNames v.cacheNames view).history name history,
            names := Function.update (writeNames v.cacheNames view).names name (some data) } : CoinsView).addExpireIndex
          name data.nHeight := by
      intro history
      rw [writeNames_addExpireIndex ((hwf.setHistory name history).set name data) hview, writeNames_set,
        writeNames_setHistory hwf, hrem]
      rfl
    cases fNameHistory with
    | false =>
      refine agree_of_ok rfl rfl ⟨rfl, rfl, rfl, (hwf.set name data).setExpire _ _, ?_⟩
      dsimp only
      rw [writeNames_addExpireIndex (hwf.set name data) hview, writeNames_set, hrem]
    | true =>
      cases undo with
      | true =>
        cases hpop : CoinsView.historyPop ((writeNames v.cacheNames view).history name) data with
        | error e => exact agree_of_error rfl rfl
        | ok history =>
          exact agree_of_ok rfl rfl ⟨rfl, rfl, rfl, ((hwf.setHistory name history).set name data).setExpire _ _,
            hhist history⟩
      | false =>
        cases hpush : CoinsView.historyPush ((writeNames v.cacheNames view).history name) old with
        | error e => exact agree_of_error rfl rfl
        | ok history =>
          exact agree_of_ok rfl rfl ⟨rfl, rfl, rfl, ((hwf.setHistory name history).set name data).setExpire _ _,
            hhist history⟩

/-- `DeleteName` of a cache fails where the flat `DeleteName` of the view its
record stands for fails, and otherwise changes only the record, to one that
stands for the flat result. -/
theorem DeleteName_agree (B : ViewBase σ) (fNameHistory : Bool) (hc : v.cacheNames.WF)
    (hview : view.SortedIndex) (hn : B.GetName v.base = view.names) (hh : B.GetNameHistory v.base = view.history)
    (name : valtype) :
    Agree (fun v' view' => v'.base = v.base ∧ v'.cacheCoins = v.cacheCoins ∧ v'.m_block_hash = v.m_block_hash ∧
        v'.cacheNames.WF ∧ writeNames v'.cacheNames view = view')
      (DeleteName B fNameHistory v name) ((writeNames v.cacheNames view).DeleteName fNameHistory name) := by
  unfold DeleteName CoinsView.DeleteName
  rw [GetName_eq B hn, GetNameHistory_eq B hc hh]
  cases hold : (writeNames v.cacheNames view).names name with
  | none => exact agree_of_error rfl rfl
  | some old =>
    dsimp only
    -- the flat view checks the history after dropping the expire-index entry, which keeps it
    by_cases hd : (fNameHistory && !((writeNames v.cacheNames view).history name).isEmpty) = true
    · simp only [CoinsView.removeExpireIndex_history, hd, ↓reduceIte]
      exact agree_of_error rfl rfl
    · simp only [CoinsView.removeExpireIndex_history, hd, Bool.false_eq_true, ↓reduceIte]
      have hwf : (v.cacheNames.removeExpireIndex name old.nHeight).WF := hc.setExpire _ _
      refine agree_of_ok rfl rfl ⟨rfl, rfl, rfl, hwf.remove name, ?_⟩
      dsimp only
      rw [writeNames_remove, writeNames_removeExpireIndex hc hview]
      rfl

end CCoinsViewCache

end Namecoin.Names
