import Mathlib
import Namecoin.Lib.KeyList

/-! # Unordered maps as association lists

An `std::unordered_map` is, in whatever order it is iterated, a list of entries
whose keys are distinct (`KeysNodup`). Its `find` is `List.lookup`, its `erase`
`Lib.KeyList.eraseKey`, and an assignment drops the old entry of its key and
puts the new one first (`assign`); where an entry sits does not matter to any
lookup. A map that keeps the keys of its entries (`mapVals`) and a filter keep
the keys distinct and act on each lookup.

With distinct keys, writing the entries of a list one by one into a function
leaves each key with the value of its own entry (`foldl_update_apply`): the
order of the writes does not matter. Writing one value at a list of keys
leaves it at each of them (`foldl_update_const`). -/

namespace Lib.AssocMap
open Lib.KeyList

variable {κ β γ : Type} [DecidableEq κ]

/-- The keys of the entries are distinct. -/
def KeysNodup (l : List (κ × β)) : Prop := (l.map Prod.fst).Nodup

/-- Insert or assign: `k` maps to `b`, every other key as before. -/
def assign (k : κ) (b : β) (l : List (κ × β)) : List (κ × β) := (k, b) :: eraseKey k l

/-- Each value rewritten, or the entry dropped, by a function of its key. -/
def mapVals (f : κ → β → Option γ) (l : List (κ × β)) : List (κ × γ) :=
  l.filterMap fun e => (f e.1 e.2).map (e.1, ·)

@[simp] theorem lookup_assign [BEq κ] [LawfulBEq κ] (k k' : κ) (b : β) (l : List (κ × β)) :
    (assign k b l).lookup k' = if k' = k then some b else l.lookup k' := by
  rw [assign, lookup_cons_eq, lookup_eraseKey]
  by_cases hk : k' = k <;> simp [hk]

omit [DecidableEq κ] in
@[simp] theorem keysNodup_nil : KeysNodup ([] : List (κ × β)) := List.nodup_nil

theorem keysNodup_cons [BEq κ] [LawfulBEq κ] {k : κ} {b : β} {l : List (κ × β)} :
    KeysNodup ((k, b) :: l) ↔ l.lookup k = none ∧ KeysNodup l := by
  rw [KeysNodup, List.map_cons, List.nodup_cons, mem_keys_iff, Option.not_isSome_iff_eq_none]
  rfl

omit [DecidableEq κ] in
theorem KeysNodup.sublist {l l' : List (κ × β)} (h : KeysNodup l) (hs : l'.Sublist l) : KeysNodup l' :=
  List.Nodup.sublist (hs.map Prod.fst) h

theorem KeysNodup.eraseKey {l : List (κ × β)} (h : KeysNodup l) (k : κ) :
    KeysNodup (Lib.KeyList.eraseKey k l) :=
  h.sublist List.filter_sublist

omit [DecidableEq κ] in
theorem mapVals_cons (f : κ → β → Option γ) (k : κ) (b : β) (l : List (κ × β)) :
    mapVals f ((k, b) :: l) = ((f k b).map fun c => [(k, c)]).getD [] ++ mapVals f l := by
  cases hf : f k b <;> simp [mapVals, hf]

theorem lookup_mapVals [BEq κ] [LawfulBEq κ] {l : List (κ × β)} (h : KeysNodup l) (f : κ → β → Option γ) (k : κ) :
    (mapVals f l).lookup k = (l.lookup k).bind (f k) := by
  induction l with
  | nil => rfl
  | cons p l ih =>
    obtain ⟨k', b⟩ := p
    obtain ⟨hk', hl⟩ := Iff.mp keysNodup_cons h
    rw [mapVals_cons, lookup_cons_eq]
    by_cases hk : k = k'
    · -- the rest has no entry for `k`, whatever the function keeps
      subst hk
      have hrest : (mapVals f l).lookup k = none := by rw [ih hl, hk']; rfl
      cases hf : f k b <;> simp [hrest, hf]
    · cases hf : f k' b <;> simp [hk, ih hl]

theorem KeysNodup.mapVals {l : List (κ × β)} (h : KeysNodup l) (f : κ → β → Option γ) :
    KeysNodup (mapVals f l) := by
  induction l with
  | nil => exact List.nodup_nil
  | cons p l ih =>
    obtain ⟨k, b⟩ := p
    obtain ⟨hk, hl⟩ := Iff.mp keysNodup_cons h
    rw [mapVals_cons]
    cases hf : f k b with
    | none => simpa using ih hl
    | some c =>
      simp only [Option.map_some, Option.getD_some, List.singleton_append]
      refine Iff.mpr keysNodup_cons ⟨?_, ih hl⟩
      rw [lookup_mapVals hl, hk]
      rfl

/-- Writing the entries one by one, the first first, into a function: with
distinct keys each key ends with the value of its entry, where `write` takes
it, and with its old value elsewhere. -/
theorem foldl_update_apply [BEq κ] [LawfulBEq κ] (write : β → Bool) (get : β → γ) :
    ∀ {l : List (κ × β)}, KeysNodup l → ∀ (m : κ → γ) (k : κ),
      l.foldl (fun m e => if write e.2 then Function.update m e.1 (get e.2) else m) m k =
        match l.lookup k with
        | some b => if write b then get b else m k
        | none => m k
  | [], _, m, k => rfl
  | (k', b) :: l, h, m, k => by
    obtain ⟨hk', hl⟩ := Iff.mp keysNodup_cons h
    rw [List.foldl_cons, foldl_update_apply write get hl, lookup_cons_eq]
    by_cases hk : k = k'
    · -- the rest has no entry for `k`: the first write is the last
      subst hk
      rw [hk']
      by_cases hw : write b <;> simp [hw]
    · by_cases hw : write b <;> simp [hw, hk]

/-- Writing every entry: each key ends with the value of its entry. -/
theorem foldl_update_eq_lookup [BEq κ] [LawfulBEq κ] (get : β → γ) {l : List (κ × β)} (h : KeysNodup l) (m : κ → γ) (k : κ) :
    l.foldl (fun m e => Function.update m e.1 (get e.2)) m k =
      match l.lookup k with
      | some b => get b
      | none => m k := by
  have hall := foldl_update_apply (fun _ => true) get h m k
  simp only [if_true] at hall
  rw [hall]

theorem foldl_update_const (c : γ) (l : List κ) (m : κ → γ) (k : κ) :
    l.foldl (fun m k' => Function.update m k' c) m k = if k ∈ l then c else m k := by
  induction l generalizing m with
  | nil => simp
  | cons k' l ih =>
    rw [List.foldl_cons, ih]
    by_cases hk : k = k' <;> by_cases hl : k ∈ l <;> simp [hk, hl]

end Lib.AssocMap
