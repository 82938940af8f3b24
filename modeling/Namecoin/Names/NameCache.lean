import Namecoin.Names.View
import Namecoin.Lib.KeyList

/-! # The record of name changes a coins cache keeps (names/common.cpp)

A `CCoinsViewCache` does not cache name queries: its `CNameCache` records only
the changes made through it. These are the new or updated entries, kept in a
`std::map` ordered by `NameComparator` (by length, then by bytes, as the
database orders its keys), the deleted names, the new history stacks and the
changes to the expire index.

`NameComparator` is a strict total order (`nameLess_strictTotalOrder`), so the
entries are a sorted association list (`Lib.KeyList`), and `set` and `remove`
keep them sorted. `set` gives a name an entry and drops its deletion mark,
`remove` the other way round (`get_set`, `isDeleted_set`, `get_remove`,
`isDeleted_remove`), so a record that has changed a name is never `empty`
again until it is cleared (`touches_set`, `touches_remove`, `empty_of_touches`).
`apply`, which pushes a child's record into its parent, replays the child's
changes on the parent. -/

namespace Namecoin.Names
open Lib.KeyList Namecoin.Script

/-- `CNameCache::NameComparator`: a shorter name first, names of one length by
their bytes. -/
def NameComparator (a b : valtype) : Bool :=
  if a.length ≠ b.length then a.length < b.length else decide (a < b)

/-- `NameComparator` as a relation. -/
def NameLess (a b : valtype) : Prop := NameComparator a b = true

instance : DecidableRel NameLess := fun a b =>
  inferInstanceAs (Decidable (NameComparator a b = true))

theorem nameLess_iff {a b : valtype} :
    NameLess a b ↔ a.length < b.length ∨ (a.length = b.length ∧ a < b) := by
  unfold NameLess NameComparator
  by_cases h : a.length = b.length
  · simp [h]
  · simp only [ne_eq, h, not_false_eq_true, if_true, decide_eq_true_eq, false_and, or_false]

instance nameLess_strictTotalOrder : IsStrictTotalOrder valtype NameLess where
  trichotomous a b hab hba := by
    rw [nameLess_iff] at hab hba
    have hlen : a.length = b.length := by omega
    exact List.le_antisymm (List.not_lt.mp fun h => hba (.inr ⟨hlen.symm, h⟩))
      (List.not_lt.mp fun h => hab (.inr ⟨hlen, h⟩))
  irrefl a h := by
    rcases nameLess_iff.mp h with h | ⟨-, h⟩
    · exact Nat.lt_irrefl _ h
    · exact List.lt_irrefl a h
  trans a b c hab hbc := by
    rw [nameLess_iff] at hab hbc ⊢
    rcases hab with hab | ⟨hab, hab'⟩ <;> rcases hbc with hbc | ⟨hbc, hbc'⟩
    · exact .inl (Nat.lt_trans hab hbc)
    · exact .inl (hbc ▸ hab)
    · exact .inl (hab ▸ hbc)
    · exact .inr ⟨hab.trans hbc, List.lt_trans hab' hbc'⟩

/-- `CNameCache::ExpireEntry`: an update height and a name. -/
structure ExpireEntry where
  nHeight : Nat
  name : valtype
  deriving DecidableEq, Repr

/-- `operator<` of `ExpireEntry`: by height, then by name. -/
def ExpireEntry.lt (a b : ExpireEntry) : Bool :=
  if a.nHeight ≠ b.nHeight then a.nHeight < b.nHeight else decide (a.name < b.name)

structure CNameCache where
  /-- `entries`, in the order of `NameComparator` -/
  entries : List (valtype × CNameData)
  sorted_entries : Sorted NameLess entries
  /-- `deleted` -/
  deleted : List valtype
  /-- `history`, by name -/
  history : List (valtype × List CNameData)
  /-- `expireIndex`: `true` adds the entry, `false` deletes it -/
  expireIndex : List (ExpireEntry × Bool)

namespace CNameCache

/-- `CNameCache ()`, and what `clear ()` leaves. -/
def clear : CNameCache := ⟨[], sorted_nil NameLess, [], [], []⟩

/-- `empty ()`: no entries and no deletions, where history and expire-index
changes must then be absent too. -/
def empty (c : CNameCache) : Except Failure Bool :=
  if c.entries.isEmpty && c.deleted.isEmpty then
    if c.history.isEmpty && c.expireIndex.isEmpty then .ok true else .error .assertion
  else .ok false

def isDeleted (c : CNameCache) (name : valtype) : Bool := decide (name ∈ c.deleted)

/-- `get (name, data)`: only the entries, whatever is deleted. -/
def get (c : CNameCache) (name : valtype) : Option CNameData := c.entries.lookup name

/-- `set (name, data)`: the deletion mark goes, the entry is assigned. -/
def set (c : CNameCache) (name : valtype) (data : CNameData) : CNameCache :=
  { c with
    deleted := Lib.OrdSet.erase name c.deleted
    entries := insertKey NameLess name data c.entries
    sorted_entries := sorted_insertKey NameLess name data c.sorted_entries }

/-- `remove (name)`: the entry goes, the name is marked deleted. -/
def remove (c : CNameCache) (name : valtype) : CNameCache :=
  { c with
    entries := eraseKey name c.entries
    sorted_entries := sorted_eraseKey NameLess name c.sorted_entries
    deleted := Lib.OrdSet.insert name c.deleted }

/-- `getHistory (name, res)` (whose callers have checked `fNameHistory`). -/
def getHistory (c : CNameCache) (name : valtype) : Option (List CNameData) :=
  c.history.lookup name

/-- `setHistory (name, data)`. -/
def setHistory (c : CNameCache) (name : valtype) (data : List CNameData) : CNameCache :=
  { c with history := insertKey (· < ·) name data c.history }

/-- `expireIndex[entry] = value`. -/
def setExpire (c : CNameCache) (entry : ExpireEntry) (value : Bool) : CNameCache :=
  { c with
    expireIndex := insertKey (fun a b => ExpireEntry.lt a b = true) entry value c.expireIndex }

def addExpireIndex (c : CNameCache) (name : valtype) (height : Nat) : CNameCache :=
  c.setExpire ⟨height, name⟩ true

def removeExpireIndex (c : CNameCache) (name : valtype) (height : Nat) : CNameCache :=
  c.setExpire ⟨height, name⟩ false

/-- `apply (cache)`: the entries of `cache` set, then its deletions, its
histories and its expire-index changes, each in map order. -/
def apply (c cache : CNameCache) : CNameCache :=
  let c := cache.entries.foldl (fun c e => c.set e.1 e.2) c
  let c := cache.deleted.foldl (fun c name => c.remove name) c
  let c := cache.history.foldl (fun c e => c.setHistory e.1 e.2) c
  cache.expireIndex.foldl (fun c e => c.setExpire e.1 e.2) c

/-- The loop of `updateNamesForHeight` over the expire-index changes from the
first one not below height `nHeight`: a change at that height adds its name to
`names` or erases it, and the first change above ends the loop. -/
def updateNamesLoop (nHeight : Nat) :
    List (ExpireEntry × Bool) → List valtype → Except Failure (List valtype)
  | [], names => .ok names
  | (cur, value) :: rest, names =>
    if cur.nHeight < nHeight then .error .assertion
    else if nHeight < cur.nHeight then .ok names
    else
      updateNamesLoop nHeight rest
        (if value then Lib.OrdSet.insert cur.name names else Lib.OrdSet.erase cur.name names)

/-- `updateNamesForHeight (nHeight, names)`: the record's changes to the names
whose data has height `nHeight`, from `lower_bound` of the height and the empty
name on. -/
def updateNamesForHeight (c : CNameCache) (nHeight : Nat) (names : List valtype) :
    Except Failure (List valtype) :=
  updateNamesLoop nHeight (lowerBound (fun a b => ExpireEntry.lt a b = true) ⟨nHeight, []⟩ c.expireIndex) names

/-! ## Lookups after each change -/

theorem isDeleted_set (c : CNameCache) (name n : valtype) (data : CNameData) :
    (c.set name data).isDeleted n = (c.isDeleted n && n ≠ name) := by
  simp [set, isDeleted]

theorem isDeleted_remove (c : CNameCache) (name n : valtype) :
    (c.remove name).isDeleted n = (n = name || c.isDeleted n) := by
  simp [remove, isDeleted]

theorem get_set (c : CNameCache) (name n : valtype) (data : CNameData) :
    (c.set name data).get n = if n = name then some data else c.get n :=
  lookup_insertKey NameLess name data n c.entries

theorem get_remove (c : CNameCache) (name n : valtype) :
    (c.remove name).get n = if n = name then none else c.get n :=
  lookup_eraseKey name n c.entries

@[simp] theorem set_history (c : CNameCache) (name : valtype) (data : CNameData) :
    (c.set name data).history = c.history := rfl

@[simp] theorem set_expireIndex (c : CNameCache) (name : valtype) (data : CNameData) :
    (c.set name data).expireIndex = c.expireIndex := rfl

@[simp] theorem remove_history (c : CNameCache) (name : valtype) :
    (c.remove name).history = c.history := rfl

@[simp] theorem remove_expireIndex (c : CNameCache) (name : valtype) :
    (c.remove name).expireIndex = c.expireIndex := rfl

@[simp] theorem setHistory_entries (c : CNameCache) (name : valtype) (data : List CNameData) :
    (c.setHistory name data).entries = c.entries := rfl

@[simp] theorem setHistory_deleted (c : CNameCache) (name : valtype) (data : List CNameData) :
    (c.setHistory name data).deleted = c.deleted := rfl

@[simp] theorem setExpire_entries (c : CNameCache) (entry : ExpireEntry) (value : Bool) :
    (c.setExpire entry value).entries = c.entries := rfl

@[simp] theorem setExpire_deleted (c : CNameCache) (entry : ExpireEntry) (value : Bool) :
    (c.setExpire entry value).deleted = c.deleted := rfl

@[simp] theorem setExpire_history (c : CNameCache) (entry : ExpireEntry) (value : Bool) :
    (c.setExpire entry value).history = c.history := rfl

theorem getHistory_setHistory (c : CNameCache) (name n : valtype) (data : List CNameData) :
    (c.setHistory name data).getHistory n = if n = name then some data else c.getHistory n :=
  lookup_insertKey _ name data n c.history

/-! ## The names a record changes -/

/-- The record changes `name`: it has an entry for it, or marks it deleted. -/
def touches (c : CNameCache) (name : valtype) : Bool := (c.get name).isSome || c.isDeleted name

theorem touches_set (c : CNameCache) (name n : valtype) (data : CNameData) :
    (c.set name data).touches n = true ↔ n = name ∨ c.touches n = true := by
  unfold touches
  rw [get_set, isDeleted_set]
  by_cases hn : n = name <;> simp [hn]

theorem touches_remove (c : CNameCache) (name n : valtype) :
    (c.remove name).touches n = true ↔ n = name ∨ c.touches n = true := by
  unfold touches
  rw [get_remove, isDeleted_remove]
  by_cases hn : n = name <;> simp [hn]

@[simp] theorem touches_setHistory (c : CNameCache) (name : valtype) (data : List CNameData) :
    (c.setHistory name data).touches = c.touches := rfl

@[simp] theorem touches_addExpireIndex (c : CNameCache) (name : valtype) (h : Nat) :
    (c.addExpireIndex name h).touches = c.touches := rfl

@[simp] theorem touches_removeExpireIndex (c : CNameCache) (name : valtype) (h : Nat) :
    (c.removeExpireIndex name h).touches = c.touches := rfl

/-- A record that changes a name is not `empty`. -/
theorem empty_of_touches {c : CNameCache} {name : valtype} (h : c.touches name = true) :
    c.empty = .ok false := by
  have hne : ¬ (c.entries.isEmpty && c.deleted.isEmpty) = true := by
    intro hnil
    simp only [Bool.and_eq_true, List.isEmpty_iff] at hnil
    simp [touches, get, isDeleted, hnil.1, hnil.2] at h
  simp [empty, hne]

end CNameCache

end Namecoin.Names
