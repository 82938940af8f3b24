import Mathlib.Order.Defs.Unbundled
import Mathlib.Tactic.SplitIfs

/-! # Association lists sorted by key

A `std::map` under a comparator `lt` is, in iteration order, a list of entries
whose keys increase strictly under `lt` (`Sorted`). Its `find` is `List.lookup`,
its insert-or-assign `insertKey`, its `erase` `eraseKey` and its `lower_bound`
the `dropWhile` of the keys below the bound (`lowerBound_eq_filter`).

`mergeOver base top` is the ordered merge of two sorted maps in which an entry of
`top` wins over the entry of `base` with the same key: it looks up what `top`
has, and otherwise what `base` has (`lookup_mergeOver`), and it is sorted
(`sorted_mergeOver`). A sorted list is determined by its lookups
(`mem_iff_lookup`). -/

namespace Lib.KeyList

variable {κ β : Type} (lt : κ → κ → Prop)

/-- The keys increase strictly along the list. -/
def Sorted (l : List (κ × β)) : Prop := l.Pairwise fun a b => lt a.1 b.1

theorem sorted_nil : Sorted lt ([] : List (κ × β)) := List.Pairwise.nil

theorem sorted_cons {p : κ × β} {l : List (κ × β)} :
    Sorted lt (p :: l) ↔ (∀ q ∈ l, lt p.1 q.1) ∧ Sorted lt l := List.pairwise_cons

theorem sorted_filter {l : List (κ × β)} (f : κ × β → Bool) (h : Sorted lt l) :
    Sorted lt (l.filter f) := List.Pairwise.filter f h

section Lookup

variable [DecidableEq κ]

omit lt in
@[simp] theorem lookup_cons_eq [BEq κ] [LawfulBEq κ] (k : κ) (p : κ × β) (l : List (κ × β)) :
    (p :: l).lookup k = if k = p.1 then some p.2 else l.lookup k := by
  obtain ⟨k', v⟩ := p
  rw [List.lookup_cons]
  by_cases hk : k = k'
  · simp [hk]
  · have hb : (k == k') = false := by simp [hk]
    simp [hb, hk]

omit lt in
theorem lookup_eq_none_of_forall [BEq κ] [LawfulBEq κ] {k : κ} :
    ∀ {l : List (κ × β)}, (∀ q ∈ l, q.1 ≠ k) → l.lookup k = none
  | [], _ => rfl
  | p :: l, h => by
    have hp : k ≠ p.1 := fun hk => h p List.mem_cons_self hk.symm
    rw [lookup_cons_eq, if_neg hp]
    exact lookup_eq_none_of_forall fun q hq => h q (List.mem_cons_of_mem p hq)

omit lt in
/-- Filtering the entries by their keys filters the lookups. -/
theorem lookup_filter [BEq κ] [LawfulBEq κ] (f : κ → Bool) (k : κ) :
    ∀ l : List (κ × β), (l.filter fun p => f p.1).lookup k = if f k then l.lookup k else none
  | [] => by simp
  | p :: l => by
    have ih := lookup_filter f k l
    by_cases hk : k = p.1
    · subst hk
      by_cases hf : f p.1 <;> simp [hf, ih]
    · by_cases hf : f p.1 <;> simp [hf, hk, ih]

omit lt in
/-- A key is among the keys of a list exactly when it looks something up. -/
theorem mem_keys_iff [BEq κ] [LawfulBEq κ] {k : κ} :
    ∀ {l : List (κ × β)}, k ∈ l.map Prod.fst ↔ (l.lookup k).isSome
  | [] => by simp
  | p :: l => by
    rw [List.map_cons, List.mem_cons, lookup_cons_eq, mem_keys_iff]
    by_cases hk : k = p.1 <;> simp [hk]

end Lookup

variable [DecidableRel lt]

/-- `std::map::lower_bound (s)` and the end: the entries from the first key not
below `s` on. -/
def lowerBound (s : κ) (l : List (κ × β)) : List (κ × β) := l.dropWhile fun p => lt p.1 s

variable [DecidableEq κ]

/-- `m[k] = v`: the value of `k` replaced, or a new entry in its place. -/
def insertKey (k : κ) (v : β) : List (κ × β) → List (κ × β)
  | [] => [(k, v)]
  | p :: l =>
    if k = p.1 then (k, v) :: l
    else if lt k p.1 then (k, v) :: p :: l
    else p :: insertKey k v l

/-- `m.erase (k)`. -/
def eraseKey (k : κ) (l : List (κ × β)) : List (κ × β) := l.filter fun p => p.1 ≠ k

/-- The ordered merge of `base` with `top`, whose entries win on equal keys. -/
def mergeOver : List (κ × β) → List (κ × β) → List (κ × β)
  | [], top => top
  | b :: base, [] => b :: base
  | b :: base, o :: top =>
    if b.1 = o.1 then o :: mergeOver base top
    else if lt b.1 o.1 then b :: mergeOver base (o :: top)
    else o :: mergeOver (b :: base) top
termination_by base top => base.length + top.length

theorem insertKey_nil (k : κ) (v : β) : insertKey lt k v [] = [(k, v)] := rfl

theorem insertKey_cons (k : κ) (v : β) (p : κ × β) (l : List (κ × β)) :
    insertKey lt k v (p :: l) =
      if k = p.1 then (k, v) :: l
      else if lt k p.1 then (k, v) :: p :: l
      else p :: insertKey lt k v l := rfl

theorem mergeOver_nil_left (top : List (κ × β)) : mergeOver lt [] top = top := by
  rw [mergeOver]

theorem mergeOver_nil_right (base : List (κ × β)) : mergeOver lt base [] = base := by
  cases base with
  | nil => rw [mergeOver]
  | cons b base => rw [mergeOver]

theorem mergeOver_cons_cons (b o : κ × β) (base top : List (κ × β)) :
    mergeOver lt (b :: base) (o :: top) =
      if b.1 = o.1 then o :: mergeOver lt base top
      else if lt b.1 o.1 then b :: mergeOver lt base (o :: top)
      else o :: mergeOver lt (b :: base) top := by
  rw [mergeOver]

theorem lookup_insertKey [BEq κ] [LawfulBEq κ] (k : κ) (v : β) (k' : κ) :
    ∀ l : List (κ × β), (insertKey lt k v l).lookup k' = if k' = k then some v else l.lookup k'
  | [] => by simp [insertKey_nil]
  | p :: l => by
    have ih := lookup_insertKey k v k' l
    rw [insertKey_cons]
    by_cases hk : k' = k
    · subst hk
      rw [if_pos rfl] at ih ⊢
      split_ifs with hp <;> simp [hp, ih]
    · split_ifs with hp hlt
      · have hk' : k' ≠ p.1 := hp ▸ hk
        simp [hk, hk']
      · simp [hk]
      · simp [hk, ih]

theorem mem_insertKey {k : κ} {v : β} {q : κ × β} :
    ∀ {l : List (κ × β)}, q ∈ insertKey lt k v l → q = (k, v) ∨ q ∈ l
  | [], h => by simpa [insertKey_nil] using h
  | p :: l, h => by
    rw [insertKey_cons] at h
    split_ifs at h
    · rcases List.mem_cons.mp h with hq | hq
      · exact .inl hq
      · exact .inr (List.mem_cons_of_mem p hq)
    · exact List.mem_cons.mp h
    · rcases List.mem_cons.mp h with hq | hq
      · exact .inr (hq ▸ List.mem_cons_self)
      · rcases mem_insertKey hq with hq | hq
        · exact .inl hq
        · exact .inr (List.mem_cons_of_mem p hq)

theorem lookup_eraseKey [BEq κ] [LawfulBEq κ] (k k' : κ) (l : List (κ × β)) :
    (eraseKey k l).lookup k' = if k' = k then none else l.lookup k' := by
  refine (lookup_filter (fun x => decide (x ≠ k)) k' l).trans ?_
  by_cases hk : k' = k <;> simp [hk]

omit [DecidableRel lt] in
theorem sorted_eraseKey (k : κ) {l : List (κ × β)} (h : Sorted lt l) :
    Sorted lt (eraseKey k l) := sorted_filter lt _ h

/-- Everything `mergeOver` yields comes from one of its two lists. -/
theorem mem_mergeOver {q : κ × β} :
    ∀ {base top : List (κ × β)}, q ∈ mergeOver lt base top → q ∈ base ∨ q ∈ top
  | [], top, h => by
    rw [mergeOver_nil_left] at h
    exact .inr h
  | b :: base, [], h => by
    rw [mergeOver_nil_right] at h
    exact .inl h
  | b :: base, o :: top, h => by
    rw [mergeOver_cons_cons] at h
    split_ifs at h
    · rcases List.mem_cons.mp h with rfl | h
      · exact .inr List.mem_cons_self
      · rcases mem_mergeOver h with h | h
        · exact .inl (List.mem_cons_of_mem b h)
        · exact .inr (List.mem_cons_of_mem o h)
    · rcases List.mem_cons.mp h with rfl | h
      · exact .inl List.mem_cons_self
      · rcases mem_mergeOver h with h | h
        · exact .inl (List.mem_cons_of_mem _ h)
        · exact .inr h
    · rcases List.mem_cons.mp h with rfl | h
      · exact .inr List.mem_cons_self
      · rcases mem_mergeOver h with h | h
        · exact .inl h
        · exact .inr (List.mem_cons_of_mem _ h)
termination_by base top => base.length + top.length

section Order

variable [IsStrictTotalOrder κ lt]

omit [DecidableRel lt] [DecidableEq κ] in
theorem ne_of_lt {a b : κ} (h : lt a b) : a ≠ b := by
  rintro rfl
  exact irrefl_of lt a h

omit [DecidableRel lt] in
/-- Nothing below the first key of a sorted list is in it. -/
theorem lookup_eq_none_of_lt [BEq κ] [LawfulBEq κ] {p : κ × β} {l : List (κ × β)}
    (h : Sorted lt (p :: l)) {k : κ} (hk : lt k p.1) : (p :: l).lookup k = none := by
  rw [sorted_cons] at h
  refine lookup_eq_none_of_forall fun q hq => ?_
  rcases List.mem_cons.mp hq with rfl | hq
  · exact (ne_of_lt lt hk).symm
  · exact (ne_of_lt lt (trans_of lt hk (h.1 q hq))).symm

omit [DecidableEq κ] in
/-- In a sorted list the keys below a bound come first. -/
theorem lowerBound_eq_filter (s : κ) :
    ∀ {l : List (κ × β)}, Sorted lt l → lowerBound lt s l = l.filter fun p => ¬ lt p.1 s
  | [], _ => rfl
  | p :: l, h => by
    rw [sorted_cons] at h
    have ih := lowerBound_eq_filter s h.2
    unfold lowerBound at ih ⊢
    rw [List.dropWhile_cons, List.filter_cons]
    by_cases hp : lt p.1 s
    · rw [if_pos (decide_eq_true hp), if_neg (by simpa using hp), ih]
    · -- every later key is above `p.1`, so none is below `s`
      have hkeep : l.filter (fun p => ¬ lt p.1 s) = l :=
        List.filter_eq_self.mpr fun q hq => by
          simpa using fun hq' => hp (trans_of lt (h.1 q hq) hq')
      rw [if_neg (by simpa using hp), if_pos (by simpa using hp), hkeep]

theorem sorted_insertKey (k : κ) (v : β) :
    ∀ {l : List (κ × β)}, Sorted lt l → Sorted lt (insertKey lt k v l)
  | [], _ => List.pairwise_singleton _ _
  | p :: l, h => by
    rw [sorted_cons] at h
    rw [insertKey_cons]
    split_ifs with hp hlt
    · subst hp
      exact (sorted_cons lt).mpr h
    · refine (sorted_cons lt).mpr ⟨fun q hq => ?_, (sorted_cons lt).mpr h⟩
      rcases List.mem_cons.mp hq with rfl | hq
      · exact hlt
      · exact trans_of lt hlt (h.1 q hq)
    · -- `k` goes after `p`
      have hpk : lt p.1 k := by
        rcases trichotomous_of lt k p.1 with hkp | hkp | hkp
        · exact absurd hkp hlt
        · exact absurd hkp hp
        · exact hkp
      refine (sorted_cons lt).mpr ⟨fun q hq => ?_, sorted_insertKey k v h.2⟩
      rcases mem_insertKey lt hq with rfl | hq
      · exact hpk
      · exact h.1 q hq

/-- On sorted lists the merge looks up the overlay first, then the base. -/
theorem lookup_mergeOver [BEq κ] [LawfulBEq κ] (k : κ) :
    ∀ {base top : List (κ × β)}, Sorted lt base → Sorted lt top →
      (mergeOver lt base top).lookup k = (top.lookup k).or (base.lookup k)
  | [], top, _, _ => by simp [mergeOver_nil_left]
  | b :: base, [], _, _ => by simp [mergeOver_nil_right]
  | b :: base, o :: top, hb, ho => by
    rw [mergeOver_cons_cons]
    have hb' := ((sorted_cons lt).mp hb).2
    have ho' := ((sorted_cons lt).mp ho).2
    split_ifs with heq hlt
    · -- the overlay's entry replaces the base's
      have ih := lookup_mergeOver k hb' ho'
      by_cases hk : k = o.1
      · simp [hk]
      · have hk' : k ≠ b.1 := heq ▸ hk
        simp [hk, hk', ih]
    · -- the base's entry comes first, and the overlay has nothing at its key
      have ih := lookup_mergeOver k hb' ho
      by_cases hk : k = b.1
      · subst hk
        simp [lookup_eq_none_of_lt lt ho hlt]
      · simp [hk, ih]
    · have ih := lookup_mergeOver k hb ho'
      by_cases hk : k = o.1 <;> simp [hk, ih]
termination_by base top => base.length + top.length

theorem sorted_mergeOver :
    ∀ {base top : List (κ × β)}, Sorted lt base → Sorted lt top →
      Sorted lt (mergeOver lt base top)
  | [], top, _, ho => by rwa [mergeOver_nil_left]
  | b :: base, [], hb, _ => by rwa [mergeOver_nil_right]
  | b :: base, o :: top, hb, ho => by
    rw [mergeOver_cons_cons]
    have hb' := (sorted_cons lt).mp hb
    have ho' := (sorted_cons lt).mp ho
    split_ifs with heq hlt
    · refine (sorted_cons lt).mpr ⟨fun q hq => ?_, sorted_mergeOver hb'.2 ho'.2⟩
      rcases mem_mergeOver lt hq with hq | hq
      · exact heq ▸ hb'.1 q hq
      · exact ho'.1 q hq
    · refine (sorted_cons lt).mpr ⟨fun q hq => ?_, sorted_mergeOver hb'.2 ho⟩
      rcases mem_mergeOver lt hq with hq | hq
      · exact hb'.1 q hq
      · rcases List.mem_cons.mp hq with rfl | hq
        · exact hlt
        · exact trans_of lt hlt (ho'.1 q hq)
    · -- the overlay's key comes first
      have hob : lt o.1 b.1 := by
        rcases trichotomous_of lt b.1 o.1 with h | h | h
        · exact absurd h hlt
        · exact absurd h heq
        · exact h
      refine (sorted_cons lt).mpr ⟨fun q hq => ?_, sorted_mergeOver hb ho'.2⟩
      rcases mem_mergeOver lt hq with hq | hq
      · rcases List.mem_cons.mp hq with rfl | hq
        · exact hob
        · exact trans_of lt hob (hb'.1 q hq)
      · exact ho'.1 q hq
termination_by base top => base.length + top.length

omit [DecidableRel lt] in
/-- An entry is in a sorted list exactly when its key looks its value up. -/
theorem mem_iff_lookup [BEq κ] [LawfulBEq κ] (k : κ) (v : β) :
    ∀ {l : List (κ × β)}, Sorted lt l → ((k, v) ∈ l ↔ l.lookup k = some v)
  | [], _ => by simp
  | p :: l, h => by
    rw [sorted_cons] at h
    rw [List.mem_cons, lookup_cons_eq, mem_iff_lookup k v h.2]
    by_cases hk : k = p.1
    · subst hk
      have hnone : l.lookup p.1 = none :=
        lookup_eq_none_of_forall fun q hq => (ne_of_lt lt (h.1 q hq)).symm
      obtain ⟨k, v'⟩ := p
      simp [hnone, eq_comm]
    · have hne : (k, v) ≠ p := fun hp => hk (hp ▸ rfl)
      simp [hk, hne]

omit [DecidableRel lt] [DecidableEq κ] in
/-- The keys of a sorted list are distinct. -/
theorem nodup_keys {l : List (κ × β)} (h : Sorted lt l) : (l.map Prod.fst).Nodup :=
  (List.pairwise_map.mpr h).imp (ne_of_lt lt)

end Order

end Lib.KeyList
