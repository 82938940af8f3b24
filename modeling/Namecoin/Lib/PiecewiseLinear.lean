import Mathlib.Algebra.Order.Field.Basic
import Mathlib.Order.Interval.Set.Basic
import Mathlib.Tactic.Linarith
import Mathlib.Tactic.Ring

/-! # Affine functions on an interval

An affine function takes its extreme values on an interval at the ends, so it
is positive somewhere on `[p, q]` exactly when it is positive at `p` or at `q`
(`exists_pos_Icc_iff`). Two piecewise-linear functions with no breakpoint
inside `(p, q)` differ by an affine function there: comparing them at the
breakpoints decides how they compare everywhere, and a walk over the
breakpoints can extend what it knows from `[0, p]` to `[0, q]`
(`exists_lt_Icc_extend`). Past the last breakpoint both are constant, and
what holds up to it holds everywhere (`exists_lt_Icc_iff_of_const`). -/

namespace Lib.PiecewiseLinear

/-- A witness on `[a, c]` lies on `[a, b]` or on `[b, c]`. -/
theorem exists_Icc_split {L : Type} [LinearOrder L] {P : L → Prop} {a b c : L} (hab : a ≤ b)
    (hbc : b ≤ c) :
    (∃ x ∈ Set.Icc a c, P x) ↔ (∃ x ∈ Set.Icc a b, P x) ∨ ∃ x ∈ Set.Icc b c, P x := by
  rw [← Set.Icc_union_Icc_eq_Icc hab hbc]
  constructor
  · rintro ⟨x, hx | hx, h⟩
    · exact .inl ⟨x, hx, h⟩
    · exact .inr ⟨x, hx, h⟩
  · rintro (⟨x, hx, h⟩ | ⟨x, hx, h⟩)
    · exact ⟨x, .inl hx, h⟩
    · exact ⟨x, .inr hx, h⟩

/-- Two functions that are constant from `F` on: one is below the other
somewhere on `[a, F]` iff somewhere from `a` on. -/
theorem exists_lt_Icc_iff_of_const {L β : Type} [LinearOrder L] [LT β] {f g : L → β} {a F : L}
    (haF : a ≤ F) (hf : ∀ x, F ≤ x → f x = f F) (hg : ∀ x, F ≤ x → g x = g F) :
    (∃ x ∈ Set.Icc a F, g x < f x) ↔ ∃ x, a ≤ x ∧ g x < f x := by
  constructor
  · rintro ⟨x, hx, h⟩
    exact ⟨x, hx.1, h⟩
  · rintro ⟨x, hax, h⟩
    rcases le_total x F with hxF | hFx
    · exact ⟨x, ⟨hax, hxF⟩, h⟩
    · -- past `F` both are flat, so `F` is a witness too
      refine ⟨F, ⟨haF, le_rfl⟩, ?_⟩
      rwa [← hf x hFx, ← hg x hFx]

variable {K : Type} [Field K] [LinearOrder K] [IsStrictOrderedRing K]

/-- `a + (x - p) * s` is positive somewhere on `[p, q]` iff it is at one of the
ends. -/
theorem exists_pos_Icc_iff {p q : K} (hpq : p ≤ q) (a s : K) :
    (∃ x ∈ Set.Icc p q, 0 < a + (x - p) * s) ↔ 0 < a ∨ 0 < a + (q - p) * s := by
  constructor
  · rintro ⟨x, ⟨hpx, hxq⟩, hx⟩
    by_contra h
    obtain ⟨ha, hb⟩ : a ≤ 0 ∧ a + (q - p) * s ≤ 0 := by simpa only [not_or, not_lt] using h
    rcases le_or_gt 0 s with hs | hs
    · -- rising: the value at `x` is at most the one at `q`
      have : (x - p) * s ≤ (q - p) * s := mul_le_mul_of_nonneg_right (by linarith) hs
      linarith
    · -- falling: the value at `x` is at most the one at `p`
      have : (x - p) * s ≤ 0 := mul_nonpos_of_nonneg_of_nonpos (by linarith) hs.le
      linarith
  · rintro (h | h)
    · exact ⟨p, ⟨le_rfl, hpq⟩, by simpa using h⟩
    · exact ⟨q, ⟨hpq, le_rfl⟩, h⟩

/-- A point `(v, a + u)` lies above the segment from `(0, a)` with slope
`w / d` iff the slope `u / v` to it is greater: `w * v < u * d`. -/
theorem segment_lt_iff {a u v w d : K} (hd : 0 < d) : a + v * (w / d) < a + u ↔ w * v < u * d := by
  rw [add_lt_add_iff_left, show v * (w / d) = w * v / d by ring, div_lt_iff₀ hd]

/-- A point `(v, a + u)` lies below the segment from `(0, a)` with slope
`w / d` iff the slope `u / v` to it is smaller: `u * d < w * v`. -/
theorem lt_segment_iff {a u v w d : K} (hd : 0 < d) : a + u < a + v * (w / d) ↔ u * d < w * v := by
  rw [add_lt_add_iff_left, show v * (w / d) = w * v / d by ring, lt_div_iff₀ hd]

/-- Two functions that are affine on `[p, q]`: the second is below the first
somewhere on `[a, q]` iff somewhere on `[a, p]` or at `q`. -/
theorem exists_lt_Icc_extend {f g : K → K} {a p q : K} (hap : a ≤ p) (hpq : p ≤ q) {sf sg : K}
    (hf : ∀ x ∈ Set.Icc p q, f x = f p + (x - p) * sf)
    (hg : ∀ x ∈ Set.Icc p q, g x = g p + (x - p) * sg) :
    (∃ x ∈ Set.Icc a q, g x < f x) ↔ (∃ x ∈ Set.Icc a p, g x < f x) ∨ g q < f q := by
  -- on `[p, q]` the difference is affine, so it is positive at an end
  have hdiff : ∀ x ∈ Set.Icc p q, f x - g x = (f p - g p) + (x - p) * (sf - sg) := by
    intro x hx
    rw [hf x hx, hg x hx]
    ring
  have hseg : (∃ x ∈ Set.Icc p q, g x < f x) ↔ g p < f p ∨ g q < f q := by
    have hq := hdiff q ⟨hpq, le_rfl⟩
    constructor
    · rintro ⟨x, hx, hlt⟩
      rcases (exists_pos_Icc_iff hpq (f p - g p) (sf - sg)).1
          ⟨x, hx, by rw [← hdiff x hx]; linarith⟩ with h | h
      · exact .inl (by linarith)
      · exact .inr (by linarith)
    · rintro (h | h)
      · exact ⟨p, ⟨le_rfl, hpq⟩, h⟩
      · exact ⟨q, ⟨hpq, le_rfl⟩, h⟩
  rw [exists_Icc_split hap hpq, hseg]
  constructor
  · rintro (h | h | h)
    · exact .inl h
    · exact .inl ⟨p, ⟨hap, le_rfl⟩, h⟩
    · exact .inr h
  · rintro (h | h)
    · exact .inl h
    · exact .inr (.inr h)

end Lib.PiecewiseLinear
