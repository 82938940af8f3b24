import Mathlib.Order.Bounds.Basic

/-! # Rounding down onto a set

`f` rounds down onto `R` when `f x` is the greatest element of `R` at or
below `x`. Whatever the set, such a rounding is monotone: `f x` is in `R` and
below `y` when `x ≤ y`, so it is at most `f y`. -/

namespace Lib.RoundDown

variable {α : Type} [Preorder α]

/-- `f x` is the greatest element of `R` at or below `x`. -/
def IsRoundDown (R : Set α) (f : α → α) : Prop :=
  ∀ x, IsGreatest {r | r ∈ R ∧ r ≤ x} (f x)

variable {R : Set α} {f : α → α}

theorem IsRoundDown.of_forall (hmem : ∀ x, f x ∈ R) (hle : ∀ x, f x ≤ x)
    (hgreatest : ∀ x r, r ∈ R → r ≤ x → r ≤ f x) : IsRoundDown R f :=
  fun x => ⟨⟨hmem x, hle x⟩, fun r ⟨hr, hrx⟩ => hgreatest x r hr hrx⟩

theorem IsRoundDown.le (h : IsRoundDown R f) (x : α) : f x ≤ x := (h x).1.2

theorem IsRoundDown.monotone (h : IsRoundDown R f) : Monotone f := by
  intro x y hxy
  exact (h y).2 ⟨(h x).1.1, (h.le x).trans hxy⟩

/-- Rounding down fixes the elements of `R`, so it is idempotent. -/
theorem IsRoundDown.apply_of_mem {α : Type} [PartialOrder α] {R : Set α} {f : α → α}
    (h : IsRoundDown R f) {r : α} (hr : r ∈ R) : f r = r :=
  le_antisymm (h.le r) ((h r).2 ⟨hr, le_rfl⟩)

end Lib.RoundDown
