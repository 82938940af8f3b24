import Mathlib.Data.List.Sort

/-! # Ordered sets as sorted lists

`std::set` keeps its elements sorted and once each. Here a set is a list:
`insert` leaves a present element alone and otherwise puts it before the first
larger one, so iteration is the list order. What membership and duplicates do
does not depend on the order, which only fixes where an element goes. -/

namespace Lib.OrdSet

variable {α : Type} [DecidableEq α]

/-- `std::set::erase`. -/
def erase (a : α) (l : List α) : List α := l.filter (· ≠ a)

@[simp] theorem mem_erase {a x : α} {l : List α} : x ∈ erase a l ↔ x ∈ l ∧ x ≠ a := by
  simp [erase]

theorem pairwise_erase {r : α → α → Prop} {a : α} {l : List α} (h : l.Pairwise r) :
    (erase a l).Pairwise r :=
  h.filter _

variable [LT α] [DecidableRel (α := α) (· < ·)]

/-- `std::set::insert`. -/
def insert (a : α) (l : List α) : List α :=
  if a ∈ l then l else l.orderedInsert (· < ·) a

/-- `s.insert (t.begin (), t.end ())`. -/
def union (s t : List α) : List α := t.foldl (fun acc a => insert a acc) s

@[simp] theorem mem_insert {a x : α} {l : List α} : x ∈ insert a l ↔ x = a ∨ x ∈ l := by
  unfold insert
  split
  · rename_i ha
    constructor
    · exact Or.inr
    · rintro (rfl | h)
      · exact ha
      · exact h
  · exact List.mem_orderedInsert _

@[simp] theorem mem_union {x : α} {s t : List α} : x ∈ union s t ↔ x ∈ s ∨ x ∈ t := by
  induction t generalizing s with
  | nil => simp [union]
  | cons a t ih =>
    simp only [union, List.foldl_cons] at ih ⊢
    rw [ih, mem_insert, List.mem_cons]
    tauto

theorem nodup_insert {a : α} {l : List α} (h : l.Nodup) : (insert a l).Nodup := by
  unfold insert
  split
  · exact h
  · rename_i ha
    exact (List.perm_orderedInsert _ a l).nodup_iff.mpr (List.nodup_cons.mpr ⟨ha, h⟩)

theorem nodup_union {s t : List α} (h : s.Nodup) : (union s t).Nodup := by
  induction t generalizing s with
  | nil => exact h
  | cons a t ih => exact ih (nodup_insert h)

/-- The union of the sets `f b` for the `b` of a list, added to `acc`. -/
theorem mem_foldl_union {β : Type} {f : β → List α} {x : α} :
    ∀ {bs : List β} {acc : List α},
      x ∈ bs.foldl (fun s b => union s (f b)) acc ↔ x ∈ acc ∨ ∃ b ∈ bs, x ∈ f b
  | [], acc => by simp
  | b :: bs, acc => by
    rw [List.foldl_cons, mem_foldl_union, mem_union]
    simp only [List.mem_cons, exists_eq_or_imp]
    tauto

theorem nodup_foldl_union {β : Type} {f : β → List α} :
    ∀ {bs : List β} {acc : List α}, acc.Nodup → (bs.foldl (fun s b => union s (f b)) acc).Nodup
  | [], _, h => h
  | _ :: _, _, h => by
    rw [List.foldl_cons]
    exact nodup_foldl_union (nodup_union h)

/-! ## Sorted sets

The order is strict and total: `std::set` keeps its elements strictly
sorted, and two such lists with the same elements are the same list
(`List.Pairwise.eq_of_mem_iff`), so that an operation is undone once the
elements are back. -/

section Sorted

variable [Std.Trichotomous (α := α) (· < ·)] [IsTrans α (· < ·)]

omit [DecidableEq α] in
/-- A new element goes after the smaller ones and before the larger. -/
theorem pairwise_orderedInsert {a : α} :
    ∀ {l : List α}, a ∉ l → l.Pairwise (· < ·) → (l.orderedInsert (· < ·) a).Pairwise (· < ·)
  | [], _, _ => List.pairwise_singleton _ a
  | b :: l, ha, h => by
    rw [List.mem_cons, not_or] at ha
    rw [List.pairwise_cons] at h
    by_cases hab : a < b
    · rw [List.orderedInsert_cons, if_pos hab]
      refine List.pairwise_cons.mpr ⟨fun x hx => ?_, List.pairwise_cons.mpr h⟩
      rcases List.mem_cons.mp hx with rfl | hx
      · exact hab
      · exact IsTrans.trans _ _ _ hab (h.1 x hx)
    · -- `b` is smaller, since it is not `a`
      have hba : b < a := by
        by_contra hba
        exact ha.1 (Std.Trichotomous.trichotomous a b hab hba)
      rw [List.orderedInsert_cons, if_neg hab]
      refine List.pairwise_cons.mpr ⟨fun x hx => ?_, pairwise_orderedInsert ha.2 h.2⟩
      rcases (List.mem_orderedInsert _).mp hx with rfl | hx
      · exact hba
      · exact h.1 x hx

theorem pairwise_insert {a : α} {l : List α} (h : l.Pairwise (· < ·)) :
    (insert a l).Pairwise (· < ·) := by
  unfold insert
  split
  · exact h
  · rename_i ha
    exact pairwise_orderedInsert ha h

theorem pairwise_union {s t : List α} (h : s.Pairwise (· < ·)) : (union s t).Pairwise (· < ·) := by
  induction t generalizing s with
  | nil => exact h
  | cons a t ih => exact ih (pairwise_insert h)

theorem pairwise_foldl_union {β : Type} {f : β → List α} :
    ∀ {bs : List β} {acc : List α}, acc.Pairwise (· < ·) →
      (bs.foldl (fun s b => union s (f b)) acc).Pairwise (· < ·)
  | [], _, h => h
  | _ :: _, _, h => by
    rw [List.foldl_cons]
    exact pairwise_foldl_union (pairwise_union h)

end Sorted

end Lib.OrdSet
