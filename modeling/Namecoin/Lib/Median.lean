import Mathlib

/-! # Medians of lists

The median of a list is the element at position `length / 2` once the list is
sorted: the middle one, or the upper of the two middle ones. A lower bound of the
median is a count: `m` is at most the median exactly when at least
`length - length / 2` of the elements are at least `m` (`le_median_iff`).

From the count follows the fact that the median-time rule of a chain rests on:
dropping the oldest element of a full window and adding one that is not below the
median does not lower the median (`median_le_median_cons_take`). -/

namespace Lib.Median

variable {α : Type} [LinearOrder α]

/-- The list in increasing order. Every sort gives this list; insertion sort
is structural, so medians of fixed lists evaluate. -/
def sort (l : List α) : List α := l.insertionSort (· ≤ ·)

/-- The element at position `length / 2` of the sorted list, `d` for the empty list. -/
def median (d : α) (l : List α) : α := (sort l).getD (l.length / 2) d

theorem sort_perm (l : List α) : (sort l).Perm l := List.perm_insertionSort _ _

theorem sort_pairwise (l : List α) : (sort l).Pairwise (· ≤ ·) := List.pairwise_insertionSort _ _

/-- In a sorted list, everything from position `i` on is at least the element there. -/
theorem le_of_sorted {s : List α} (hs : s.Pairwise (· ≤ ·)) {i : Nat} (hi : i < s.length)
    {x : α} (hx : x ∈ s.drop i) : s[i] ≤ x := by
  rw [List.drop_eq_getElem_cons hi] at hx
  rcases List.mem_cons.mp hx with rfl | hx
  · exact le_rfl
  · have hd : (s.drop i).Pairwise (· ≤ ·) := hs.sublist (List.drop_sublist i s)
    rw [List.drop_eq_getElem_cons hi] at hd
    exact List.rel_of_pairwise_cons hd hx

/-- ... and everything up to position `i` at most. -/
theorem ge_of_sorted {s : List α} (hs : s.Pairwise (· ≤ ·)) {i : Nat} (hi : i < s.length)
    {x : α} (hx : x ∈ s.take (i + 1)) : x ≤ s[i] := by
  obtain ⟨j, hj, rfl⟩ := List.getElem_of_mem hx
  rw [List.length_take] at hj
  rw [List.getElem_take]
  rcases Nat.lt_or_ge j i with hji | hji
  · exact List.pairwise_iff_getElem.mp hs j i (by omega) hi hji
  · have hji' : j = i := by omega
    subst hji'
    exact le_rfl

/-- A bound below the element at position `i` of a sorted list bounds the count from
below, and a bound above it bounds the count from above. -/
theorem countP_of_le_getElem {s : List α} (hs : s.Pairwise (· ≤ ·)) {i : Nat}
    (hi : i < s.length) {m : α} (hm : m ≤ s[i]) :
    s.length - i ≤ s.countP fun x => decide (m ≤ x) := by
  have hdrop : (s.drop i).countP (fun x => decide (m ≤ x)) = (s.drop i).length :=
    List.countP_eq_length.mpr fun x hx => decide_eq_true (le_trans hm (le_of_sorted hs hi hx))
  have hsplit : (s.take i ++ s.drop i).countP (fun x => decide (m ≤ x)) =
      (s.take i).countP (fun x => decide (m ≤ x)) + (s.drop i).countP (fun x => decide (m ≤ x)) :=
    List.countP_append
  rw [List.take_append_drop] at hsplit
  rw [hsplit, hdrop, List.length_drop]
  exact Nat.le_add_left _ _

theorem countP_of_getElem_lt {s : List α} (hs : s.Pairwise (· ≤ ·)) {i : Nat}
    (hi : i < s.length) {m : α} (hm : s[i] < m) :
    s.countP (fun x => decide (m ≤ x)) ≤ s.length - (i + 1) := by
  have htake : (s.take (i + 1)).countP (fun x => decide (m ≤ x)) = 0 :=
    List.countP_eq_zero.mpr fun x hx => by
      simpa using lt_of_le_of_lt (ge_of_sorted hs hi hx) hm
  have hsplit : (s.take (i + 1) ++ s.drop (i + 1)).countP (fun x => decide (m ≤ x)) =
      (s.take (i + 1)).countP (fun x => decide (m ≤ x)) +
        (s.drop (i + 1)).countP (fun x => decide (m ≤ x)) :=
    List.countP_append
  rw [List.take_append_drop] at hsplit
  rw [hsplit, htake, Nat.zero_add, ← List.length_drop]
  exact List.countP_le_length

/-- A lower bound of the median is a count of the elements above it. -/
theorem le_median_iff (d : α) {l : List α} (hl : l ≠ []) (m : α) :
    m ≤ median d l ↔ l.length - l.length / 2 ≤ l.countP fun x => decide (m ≤ x) := by
  have hlen : (sort l).length = l.length := (sort_perm l).length_eq
  have hpos : 0 < l.length := List.length_pos_iff.mpr hl
  have hi : l.length / 2 < (sort l).length := by
    rw [hlen]
    exact Nat.div_lt_self hpos Nat.one_lt_two
  have hmed : median d l = (sort l)[l.length / 2] := by
    rw [median, List.getD_eq_getElem?_getD, List.getElem?_eq_getElem hi, Option.getD_some]
  have hcount := (sort_perm l).countP_eq fun x => decide (m ≤ x)
  rw [hmed, ← hcount]
  constructor
  · intro hm
    have hle := countP_of_le_getElem (sort_pairwise l) hi hm
    rw [hlen] at hle
    exact hle
  · -- below the median fewer elements are left than half
    intro hc
    by_contra hlt
    have hle := countP_of_getElem_lt (sort_pairwise l) hi (lt_of_not_ge hlt)
    rw [hlen] at hle
    omega

/-- A window of at most `N` values slides by one: the oldest drops out once the
window is full, and a value not below the median comes in. The median does not drop. -/
theorem median_le_median_cons_take (d : α) (N : Nat) {l : List α} (hl : l ≠ [])
    (hlen : l.length ≤ N) {x : α} (hx : median d l ≤ x) :
    median d l ≤ median d (x :: l.take (N - 1)) := by
  have hcount := (le_median_iff d hl (median d l)).mp le_rfl
  have hcons : (x :: l.take (N - 1)).countP (fun y => decide (median d l ≤ y)) =
      (l.take (N - 1)).countP (fun y => decide (median d l ≤ y)) + 1 :=
    List.countP_cons_of_pos (decide_eq_true hx)
  rw [le_median_iff d (List.cons_ne_nil x _), hcons, List.length_cons, List.length_take]
  -- the count of the values kept, against those dropped
  have hsplit : (l.take (N - 1) ++ l.drop (N - 1)).countP (fun y => decide (median d l ≤ y)) =
      (l.take (N - 1)).countP (fun y => decide (median d l ≤ y)) +
        (l.drop (N - 1)).countP (fun y => decide (median d l ≤ y)) :=
    List.countP_append
  rw [List.take_append_drop] at hsplit
  have hdrop : (l.drop (N - 1)).countP (fun y => decide (median d l ≤ y)) ≤ l.length - (N - 1) :=
    List.length_drop ▸ List.countP_le_length
  omega

end Lib.Median
