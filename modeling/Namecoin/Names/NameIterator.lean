import Namecoin.Names.NameCache

/-! # Iterating names through a cache (CCacheNameIterator)

`CCoinsViewCache::IterateNames` merges the iterator of its base view with the
entries of its `CNameCache`. The base is given by what it yields after a
`seek`: the entries of a map `B` from the bound on, in `NameComparator`
order. `advanceBaseIterator` skips the names the cache has deleted, and `next`
takes the smaller name of the two sides, the cache's entry when both have the
name.

Under the invariant `Inv` (both sides sorted, the base's current entry not
deleted) one `next` is one step of the list `rest`: the ordered merge of what
is left of the base, without its deleted names, under what is left of the
cache (`next_step`). So from a `seek` the iterator yields exactly that merge,
with no assertion failing, and then returns `false` (`yields_rest`): every name
of the overlay of the cache on `B` from the bound on, once, in order, with the
cache's data where both have the name (`seek_yields_overlay`). -/

namespace Namecoin.Names
open Lib.KeyList Namecoin.Script

/-- The state of a `CCacheNameIterator` over a fixed cache: what its base
iterator will still yield, `baseHasMore` with `baseName` and `baseData`, and the
cache entries from `cacheIter` to the end. -/
structure CCacheNameIterator where
  base : List (valtype × CNameData)
  baseNext : Option (valtype × CNameData)
  cacheIter : List (valtype × CNameData)

namespace CCacheNameIterator

variable (cache : CNameCache)

/-- The loop of `advanceBaseIterator`: `base->next ()` until it fails or gives a
name that is not deleted. -/
def skipDeleted : List (valtype × CNameData) → Option (valtype × CNameData) × List (valtype × CNameData)
  | [] => (none, [])
  | e :: rest => if cache.isDeleted e.1 then skipDeleted rest else (some e, rest)

def advanceBaseIterator (it : CCacheNameIterator) : CCacheNameIterator :=
  { it with baseNext := (skipDeleted cache it.base).1, base := (skipDeleted cache it.base).2 }

/-- `seek (start)`: the cache from `entries.lower_bound (start)`, the base
sought to `start` (`baseSeek start` is what it then yields), and advanced. -/
def seek (baseSeek : valtype → List (valtype × CNameData)) (start : valtype) :
    CCacheNameIterator :=
  advanceBaseIterator cache ⟨baseSeek start, none, lowerBound NameLess start cache.entries⟩

/-- `next (name, data)`: `none` for `false`, else the entry and the iterator
after it. -/
def next (it : CCacheNameIterator) :
    Except Failure (Option ((valtype × CNameData) × CCacheNameIterator)) :=
  match it.baseNext, it.cacheIter with
  | none, [] => .ok none
  | none, c :: cs => .ok (some (c, { it with cacheIter := cs }))
  | some b, [] => .ok (some (b, advanceBaseIterator cache it))
  | some b, c :: cs =>
    -- on equal names the cache's entry is used, and the base moves past it
    let it := if b.1 = c.1 then advanceBaseIterator cache it else it
    match it.baseNext with
    | none => .ok (some (c, { it with cacheIter := cs }))
    | some b =>
      if b.1 = c.1 then .error .assertion
      else if NameComparator b.1 c.1 then .ok (some (b, advanceBaseIterator cache it))
      else .ok (some (c, { it with cacheIter := cs }))

/-- The iterator yields `L`, one entry per `next`, and then returns `false`. -/
inductive Yields : CCacheNameIterator → List (valtype × CNameData) → Prop
  | done {it : CCacheNameIterator} : next cache it = .ok none → Yields it []
  | step {it it' : CCacheNameIterator} {e : valtype × CNameData} {L : List (valtype × CNameData)} :
      next cache it = .ok (some (e, it')) → Yields it' L → Yields it (e :: L)

/-- The entries the base will still give that are not deleted. -/
def live (l : List (valtype × CNameData)) : List (valtype × CNameData) :=
  l.filter fun e => !cache.isDeleted e.1

/-- What is left to yield: the base's current entry and its live rest, merged
under the rest of the cache. -/
def rest (it : CCacheNameIterator) : List (valtype × CNameData) :=
  mergeOver NameLess (it.baseNext.toList ++ live cache it.base) it.cacheIter

/-- Both sides sorted, the base's current entry live, and the base done once
`baseHasMore` is false. -/
structure Inv (it : CCacheNameIterator) : Prop where
  sorted_base : Sorted NameLess (it.baseNext.toList ++ it.base)
  sorted_cache : Sorted NameLess it.cacheIter
  live_next : ∀ b ∈ it.baseNext, cache.isDeleted b.1 = false
  base_done : it.baseNext = none → it.base = []

/-- The entries left on both sides. -/
def size (it : CCacheNameIterator) : Nat :=
  it.baseNext.toList.length + it.base.length + it.cacheIter.length

/-! ## The base loop -/

/-- `skipDeleted` drops deleted entries up to the first live one. -/
theorem skipDeleted_spec :
    ∀ l : List (valtype × CNameData),
      (∀ b ∈ (skipDeleted cache l).1, cache.isDeleted b.1 = false) ∧
      ((skipDeleted cache l).1 = none → (skipDeleted cache l).2 = []) ∧
      ∃ pre, (∀ e ∈ pre, cache.isDeleted e.1 = true) ∧
        l = pre ++ ((skipDeleted cache l).1.toList ++ (skipDeleted cache l).2)
  | [] => ⟨by simp [skipDeleted], fun _ => rfl, [], by simp, rfl⟩
  | e :: l => by
    by_cases he : cache.isDeleted e.1
    · obtain ⟨hlive, hdone, pre, hpre, hl⟩ := skipDeleted_spec l
      simp only [skipDeleted, he, if_true]
      refine ⟨hlive, hdone, e :: pre, ?_, by rw [List.cons_append]; exact congrArg (e :: ·) hl⟩
      intro x hx
      rcases List.mem_cons.mp hx with rfl | hx
      · exact he
      · exact hpre x hx
    · simp only [skipDeleted, he, Bool.false_eq_true, if_false]
      exact ⟨by simpa using he, fun h => absurd h (by simp), [], by simp, rfl⟩

theorem live_skipDeleted (l : List (valtype × CNameData)) :
    (skipDeleted cache l).1.toList ++ live cache (skipDeleted cache l).2 = live cache l := by
  obtain ⟨hlive, -, pre, hpre, hl⟩ := skipDeleted_spec cache l
  have hpre' : live cache pre = [] := List.filter_eq_nil_iff.mpr fun e he => by simp [hpre e he]
  have hnext : live cache (skipDeleted cache l).1.toList = (skipDeleted cache l).1.toList :=
    List.filter_eq_self.mpr fun b hb => by simp [hlive b (Option.mem_toList.mp hb)]
  conv_rhs => rw [hl]
  simp only [live, List.filter_append] at hpre' hnext ⊢
  rw [hpre', hnext, List.nil_append]

theorem length_skipDeleted (l : List (valtype × CNameData)) :
    (skipDeleted cache l).1.toList.length + (skipDeleted cache l).2.length ≤ l.length := by
  obtain ⟨-, -, pre, -, hl⟩ := skipDeleted_spec cache l
  conv_rhs => rw [hl]
  simp only [List.length_append]
  omega

/-- Advancing keeps the base sorted and its current entry live. -/
theorem inv_advanceBaseIterator {it : CCacheNameIterator} (hbase : Sorted NameLess it.base)
    (hcache : Sorted NameLess it.cacheIter) : Inv cache (advanceBaseIterator cache it) := by
  obtain ⟨hlive, hdone, pre, -, hl⟩ := skipDeleted_spec cache it.base
  refine ⟨?_, hcache, hlive, hdone⟩
  rw [hl] at hbase
  exact (List.pairwise_append.mp hbase).2.1

/-! ## One step -/

theorem sorted_tail {it : CCacheNameIterator} (h : Inv cache it) :
    Sorted NameLess it.base := by
  have h := h.sorted_base
  cases hb : it.baseNext with
  | none => simpa [hb] using h
  | some b =>
    rw [hb] at h
    exact ((sorted_cons NameLess).mp h).2

/-- Under `Inv`, `next` yields the head of `rest` and leaves its tail, keeping
`Inv` and using up an entry, or returns `false` when `rest` is empty. -/
theorem next_step {it : CCacheNameIterator} (h : Inv cache it) :
    (next cache it = .ok none ∧ rest cache it = []) ∨
      ∃ e it', next cache it = .ok (some (e, it')) ∧ rest cache it = e :: rest cache it' ∧
        Inv cache it' ∧ size it' < size it := by
  have htail := sorted_tail cache h
  have hadv := inv_advanceBaseIterator cache htail h.sorted_cache
  have hlen := length_skipDeleted cache it.base
  have hskip := live_skipDeleted cache it.base
  obtain ⟨base, baseNext, cacheIter⟩ := it
  cases baseNext with
  | none =>
    have hbase : base = [] := h.base_done rfl
    subst hbase
    cases cacheIter with
    | nil => exact .inl ⟨rfl, by simp [rest, live, mergeOver_nil_left]⟩
    | cons c cs =>
      refine .inr ⟨c, ⟨[], none, cs⟩, rfl, by simp [rest, live, mergeOver_nil_left], ?_, ?_⟩
      · exact ⟨sorted_nil NameLess, ((sorted_cons NameLess).mp h.sorted_cache).2, by simp,
          fun _ => rfl⟩
      · simp [size]
  | some b =>
    cases cacheIter with
    | nil =>
      refine .inr ⟨b, _, rfl, ?_, hadv, ?_⟩
      · simp only [rest, Option.toList_some, List.singleton_append, mergeOver_nil_right,
          advanceBaseIterator]
        rw [hskip]
      · simp only [size, advanceBaseIterator] at hlen ⊢
        simp only [Option.toList_some, List.length_singleton]
        omega
    | cons c cs =>
      have hb : Sorted NameLess (b :: base) := by simpa using h.sorted_base
      have hcs := ((sorted_cons NameLess).mp h.sorted_cache).2
      have hsize : size ⟨base, some b, cs⟩ < size ⟨base, some b, c :: cs⟩ := by simp [size]
      by_cases heq : b.1 = c.1
      · -- the base moves past the name the cache has, and the cache's entry is used
        have hnext : ∀ b' ∈ (skipDeleted cache base).1, NameLess c.1 b'.1 := by
          intro b' hb'
          obtain ⟨-, -, pre, -, hl⟩ := skipDeleted_spec cache base
          have hmem : b' ∈ base := by
            rw [hl]
            simp [Option.mem_def.mp hb']
          exact heq ▸ ((sorted_cons NameLess).mp hb).1 b' hmem
        have hstep : next cache ⟨base, some b, c :: cs⟩ =
            .ok (some (c, ⟨(skipDeleted cache base).2, (skipDeleted cache base).1, cs⟩)) := by
          cases hs : (skipDeleted cache base).1 with
          | none => simp [next, advanceBaseIterator, heq, hs]
          | some b' =>
            have hlt := hnext b' hs
            have hne : b'.1 ≠ c.1 := (ne_of_lt NameLess hlt).symm
            have hnc : NameComparator b'.1 c.1 = false :=
              Bool.eq_false_iff.mpr fun h' => irrefl_of NameLess _ (trans_of NameLess h' hlt)
            simp [next, advanceBaseIterator, heq, hs, hne, hnc]
        refine .inr ⟨c, _, hstep, ?_, ⟨hadv.sorted_base, hcs, hadv.live_next, hadv.base_done⟩, ?_⟩
        · simp only [rest, Option.toList_some, List.singleton_append]
          rw [mergeOver_cons_cons, if_pos heq]
          exact congrArg (c :: ·) (congrArg (mergeOver NameLess · cs) hskip.symm)
        · simp only [size] at hlen ⊢
          simp only [Option.toList_some, List.length_cons]
          omega
      · by_cases hlt : NameLess b.1 c.1
        · -- the base's entry comes first
          have hstep : next cache ⟨base, some b, c :: cs⟩ =
              .ok (some (b, advanceBaseIterator cache ⟨base, some b, c :: cs⟩)) := by
            have hlt' : NameComparator b.1 c.1 = true := hlt
            simp [next, heq, hlt']
          refine .inr ⟨b, _, hstep, ?_, hadv, ?_⟩
          · simp only [rest, Option.toList_some, List.singleton_append, advanceBaseIterator]
            rw [mergeOver_cons_cons, if_neg heq, if_pos hlt, hskip]
          · simp only [size, advanceBaseIterator] at hlen ⊢
            simp only [Option.toList_some, List.length_singleton]
            omega
        · -- the cache's entry comes first
          have hstep : next cache ⟨base, some b, c :: cs⟩ = .ok (some (c, ⟨base, some b, cs⟩)) := by
            have hlt' : NameComparator b.1 c.1 = false := Bool.eq_false_iff.mpr hlt
            simp [next, heq, hlt']
          refine .inr ⟨c, _, hstep, ?_, ⟨h.sorted_base, hcs, h.live_next, h.base_done⟩, hsize⟩
          simp only [rest, Option.toList_some, List.singleton_append]
          rw [mergeOver_cons_cons, if_neg heq, if_neg hlt]

/-! ## Whole runs -/

theorem yields_rest_of_size : ∀ (n : Nat) (it : CCacheNameIterator), size it < n →
    Inv cache it → Yields cache it (rest cache it)
  | 0, _, hn, _ => absurd hn (Nat.not_lt_zero _)
  | n + 1, it, hn, h => by
    rcases next_step cache h with ⟨hnone, hrest⟩ | ⟨e, it', hnext, hrest, h', hsize⟩
    · rw [hrest]
      exact .done hnone
    · rw [hrest]
      exact .step hnext (yields_rest_of_size n it' (by omega) h')

/-- From every state of the invariant the iterator yields `rest`. -/
theorem yields_rest {it : CCacheNameIterator} (h : Inv cache it) :
    Yields cache it (rest cache it) :=
  yields_rest_of_size cache (size it + 1) it (Nat.lt_succ_self _) h

theorem sorted_lowerBound (start : valtype) :
    Sorted NameLess (lowerBound NameLess start cache.entries) := by
  rw [lowerBound_eq_filter NameLess start cache.sorted_entries]
  exact sorted_filter NameLess _ cache.sorted_entries

theorem inv_seek (baseSeek : valtype → List (valtype × CNameData)) (start : valtype)
    (hbase : Sorted NameLess (baseSeek start)) : Inv cache (seek cache baseSeek start) :=
  inv_advanceBaseIterator cache hbase (sorted_lowerBound cache start)

theorem rest_seek (baseSeek : valtype → List (valtype × CNameData)) (start : valtype) :
    rest cache (seek cache baseSeek start) =
      mergeOver NameLess (live cache (baseSeek start)) (lowerBound NameLess start cache.entries) := by
  simp only [rest, seek, advanceBaseIterator]
  rw [live_skipDeleted]

theorem lookup_live (l : List (valtype × CNameData)) (name : valtype) :
    (live cache l).lookup name = if cache.isDeleted name then none else l.lookup name := by
  refine (lookup_filter (fun n => !cache.isDeleted n) name l).trans ?_
  cases cache.isDeleted name <;> rfl

/-- **`CCacheNameIterator` is the ordered merge of the overlay.** For a base that
after `seek (s)` yields the entries of a sorted map `B` from `s` on, the cache
iterator after `seek (s)` yields, with no assertion failing and then `false`,
a list sorted by `NameComparator` that holds exactly the names from `s` on of
`B` without the deleted names and under the cache's entries. -/
theorem seek_yields_overlay (B : List (valtype × CNameData)) (hB : Sorted NameLess B)
    (baseSeek : valtype → List (valtype × CNameData))
    (hseek : ∀ s, baseSeek s = B.filter fun e => ¬ NameLess e.1 s) (s : valtype) :
    ∃ L, Yields cache (seek cache baseSeek s) L ∧ Sorted NameLess L ∧
      ∀ name data, (name, data) ∈ L ↔ ¬ NameLess name s ∧
        (cache.get name).or (if cache.isDeleted name then none else B.lookup name) = some data := by
  have hbs : Sorted NameLess (baseSeek s) := by
    rw [hseek s]
    exact sorted_filter NameLess _ hB
  have hlive : Sorted NameLess (live cache (baseSeek s)) := sorted_filter NameLess _ hbs
  have hmerge := sorted_mergeOver NameLess hlive (sorted_lowerBound cache s)
  refine ⟨_, yields_rest cache (inv_seek cache baseSeek s hbs), ?_, fun name data => ?_⟩
  · rwa [rest_seek]
  rw [rest_seek]
  have hB' := lookup_filter (fun n => decide (¬ NameLess n s)) name B
  have hE := lookup_filter (fun n => decide (¬ NameLess n s)) name cache.entries
  rw [mem_iff_lookup NameLess name data hmerge,
    lookup_mergeOver NameLess name hlive (sorted_lowerBound cache s), lookup_live, hseek s,
    lowerBound_eq_filter NameLess s cache.sorted_entries, hB', hE]
  by_cases hs : NameLess name s
  · simp [hs]
  · by_cases hd : cache.isDeleted name <;> simp [hs, hd, CNameCache.get]

/-- A base `a`, `b`, `aa`, in `NameComparator` order. -/
def sampleBase : List (valtype × CNameData) :=
  [([0x61], ⟨[], 1, ⟨1, 0⟩, []⟩), ([0x62], ⟨[], 1, ⟨1, 1⟩, []⟩), ([0x61, 0x61], ⟨[], 1, ⟨1, 2⟩, []⟩)]

/-- A cache that updates `b` and deletes `a`. -/
def sampleCache : CNameCache := (CNameCache.clear.set [0x62] ⟨[0x78], 2, ⟨2, 0⟩, []⟩).remove [0x61]

theorem seek_yields_overlay_sample :
    Sorted NameLess sampleBase ∧
      ∃ L, Yields sampleCache (seek sampleCache (fun s => sampleBase.filter fun e => ¬ NameLess e.1 s) [])
        L ∧ Sorted NameLess L := by
  have hB : Sorted NameLess sampleBase := by
    unfold Sorted sampleBase
    decide
  obtain ⟨L, hL, hsorted, -⟩ := seek_yields_overlay sampleCache sampleBase hB
    (fun s => sampleBase.filter fun e => ¬ NameLess e.1 s) (fun _ => rfl) []
  exact ⟨hB, L, hL, hsorted⟩

end CCacheNameIterator

end Namecoin.Names
