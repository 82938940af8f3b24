import Mathlib.Data.List.Pairwise
import Mathlib.Data.List.Infix

/-! # A common element of two sorted lists

The merge walk that tests two sorted lists for a common element: each value
`v` in turn passes over the queries below it (`scan`), stops with a match on
a query equal to `v`, stops without one when the queries run out, and
otherwise keeps the queries from the first one above `v` for the next value.
On sorted lists the walk answers whether they share an element
(`mergeAny_iff`). -/

namespace Lib.SortedMerge

/-- Where a scan for one value stops. -/
inductive Scan (α : Type) where
  | found
  | exhausted
  | next (rest : List α)
  deriving DecidableEq, Repr

variable {α : Type} [LE α] [LT α] [DecidableEq α] [DecidableLT α] [Std.IsLinearOrder α]
  [Std.LawfulOrderLT α]

/-- Pass over the queries below `v`. -/
def scan (v : α) : List α → Scan α
  | [] => .exhausted
  | h :: hs => if h = v then .found else if h > v then .next (h :: hs) else scan v hs

/-- The merge walk of the values `vs` against the queries `hs`. -/
def mergeAny : List α → List α → Bool
  | [], _ => false
  | v :: vs, hs =>
    match scan v hs with
    | .found => true
    | .exhausted => false
    | .next hs => mergeAny vs hs

/-- What a scan leaves: a match, no query at or above `v`, or the queries from
the first one above `v` on, with only queries below `v` passed over. -/
theorem scan_cases (v : α) {hs : List α} (hsort : hs.Pairwise (· ≤ ·)) :
    (scan v hs = .found ∧ v ∈ hs) ∨ (scan v hs = .exhausted ∧ ∀ h ∈ hs, h < v) ∨
      ∃ rest, scan v hs = .next rest ∧ rest <:+ hs ∧ (∀ h ∈ hs, h ∉ rest → h < v) ∧
        ∀ h ∈ rest, v < h := by
  induction hs with
  | nil => exact Or.inr (Or.inl ⟨rfl, by simp⟩)
  | cons h hs ih =>
    have hle : ∀ h' ∈ hs, h ≤ h' := (List.pairwise_cons.mp hsort).1
    by_cases heq : h = v
    · exact Or.inl ⟨by simp [scan, heq], by simp [heq]⟩
    by_cases hgt : h > v
    · -- the queries from `h` on stay for the next value
      refine Or.inr (Or.inr ⟨h :: hs, by simp [scan, heq, hgt], List.suffix_refl _, ?_, ?_⟩)
      · intro h' hh' hn
        exact absurd hh' hn
      · intro h' hh'
        rcases List.mem_cons.mp hh' with rfl | hh'
        · exact hgt
        · exact Std.lt_of_lt_of_le hgt (hle h' hh')
    have hlt : h < v := Std.lt_of_le_of_ne (Std.not_lt.mp hgt) heq
    have hscan : scan v (h :: hs) = scan v hs := by simp [scan, heq, hgt]
    rcases ih (List.pairwise_cons.mp hsort).2 with ⟨hf, hmem⟩ | ⟨he, hall⟩ | ⟨rest, hn, hsuf, hbelow, habove⟩
    · exact Or.inl ⟨hscan.trans hf, List.mem_cons_of_mem _ hmem⟩
    · refine Or.inr (Or.inl ⟨hscan.trans he, ?_⟩)
      intro h' hh'
      rcases List.mem_cons.mp hh' with rfl | hh'
      · exact hlt
      · exact hall h' hh'
    · refine Or.inr (Or.inr ⟨rest, hscan.trans hn, hsuf.trans (List.suffix_cons _ _), ?_, habove⟩)
      intro h' hh' hn'
      rcases List.mem_cons.mp hh' with rfl | hh'
      · exact hlt
      · exact hbelow h' hh' hn'

/-- On sorted lists, the walk finds a common element exactly when there is one. -/
theorem mergeAny_iff {vs hs : List α} (hv : vs.Pairwise (· ≤ ·)) (hh : hs.Pairwise (· ≤ ·)) :
    mergeAny vs hs = true ↔ ∃ h ∈ hs, h ∈ vs := by
  -- on the values, with the queries that are left
  induction vs generalizing hs with
  | nil => simp [mergeAny]
  | cons v vs ih =>
    have hge : ∀ v' ∈ vs, v ≤ v' := (List.pairwise_cons.mp hv).1
    rcases scan_cases v hh with ⟨hf, hmem⟩ | ⟨he, hall⟩ | ⟨rest, hn, hsuf, hbelow, habove⟩
    · simp only [mergeAny, hf, true_iff]
      exact ⟨v, hmem, List.mem_cons_self⟩
    · -- every query is below every value
      simp only [mergeAny, he, Bool.false_eq_true, false_iff, not_exists, not_and]
      intro h hh' hmem
      rcases List.mem_cons.mp hmem with rfl | hmem
      · exact Std.lt_irrefl (hall h hh')
      · exact absurd (hge h hmem) (Std.not_le.mpr (hall h hh'))
    · simp only [mergeAny, hn]
      rw [ih (List.pairwise_cons.mp hv).2 (hh.sublist hsuf.sublist)]
      constructor
      · rintro ⟨h, hh', hmem⟩
        exact ⟨h, hsuf.subset hh', List.mem_cons_of_mem _ hmem⟩
      · -- a common element is not one of the queries passed over, which are below `v`
        rintro ⟨h, hh', hmem⟩
        by_cases hr : h ∈ rest
        · rcases List.mem_cons.mp hmem with rfl | hmem
          · exact absurd (habove h hr) Std.lt_irrefl
          · exact ⟨h, hr, hmem⟩
        · have hlt := hbelow h hh' hr
          rcases List.mem_cons.mp hmem with rfl | hmem
          · exact absurd hlt Std.lt_irrefl
          · exact absurd (hge h hmem) (Std.not_le.mpr hlt)

theorem mergeAny_eq_decide {vs hs : List α} (hv : vs.Pairwise (· ≤ ·)) (hh : hs.Pairwise (· ≤ ·)) :
    mergeAny vs hs = decide (∃ h ∈ hs, h ∈ vs) :=
  Bool.eq_iff_iff.mpr (by rw [decide_eq_true_iff]; exact mergeAny_iff hv hh)

end Lib.SortedMerge
