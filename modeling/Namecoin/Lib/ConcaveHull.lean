import Mathlib

/-! # Least concave majorants

The upper concave hull of a set of points is the least concave function on an
interval that lies on or above all of them (`IsLeastConcaveMajorant`). A function
that has a supporting line at every point is concave (`concaveOn_of_supporting`),
and a concave function that bounds a line at both ends of an interval bounds it in
between (`affine_le_of_concaveOn`). So a function that is affine between points of
the set and has supporting lines is below every concave function above the set.

Merging two runs of points averages their slopes: the mediant `(a + c) / (b + d)`
lies between `a / b` and `c / d` (`div_le_add_div_add`, `add_div_add_le_div`). A
point of `[0, total]` lies in the piece of one element of a list of widths
(`exists_piece`), and a prefix of `s ++ t` is a prefix of `s` or `s` followed by a
prefix of `t` (`prefix_append_cases`). -/

namespace Lib.ConcaveHull

section Field

variable {K : Type} [Field K] [LinearOrder K] [IsStrictOrderedRing K]

/-- `g` is the least concave function on `s` that lies on or above every point of `P`. -/
structure IsLeastConcaveMajorant (s : Set K) (P : Set (K × K)) (g : K → K) : Prop where
  concave : ConcaveOn K s g
  above : ∀ pt ∈ P, pt.2 ≤ g pt.1
  least : ∀ f : K → K, ConcaveOn K s f → (∀ pt ∈ P, pt.2 ≤ f pt.1) → ∀ x ∈ s, g x ≤ f x

/-- A function with a supporting line at every point of a convex set, through its value
there and on or above it on the whole set, is concave there. -/
theorem concaveOn_of_supporting {s : Set K} (hs : Convex K s) {g : K → K}
    (h : ∀ z ∈ s, ∃ p a m : K, g z = a + (z - p) * m ∧ ∀ x ∈ s, g x ≤ a + (x - p) * m) :
    ConcaveOn K s g := by
  refine ⟨hs, fun x hx y hy u v hu hv huv => ?_⟩
  obtain ⟨p, a, m, hz, hle⟩ := h (u • x + v • y) (hs hx hy hu hv huv)
  rw [hz]
  -- a line takes the weighted mean of its values at the weighted mean
  calc u • g x + v • g y ≤ u • (a + (x - p) * m) + v • (a + (y - p) * m) :=
        add_le_add (smul_le_smul_of_nonneg_left (hle x hx) hu)
          (smul_le_smul_of_nonneg_left (hle y hy) hv)
    _ = a + (u • x + v • y - p) * m := by
        simp only [smul_eq_mul]
        linear_combination (a - p * m) * huv

/-- A concave function on or above a line at both ends of `[p, q]` is on or above it in
between. -/
theorem affine_le_of_concaveOn {s : Set K} {f : K → K} (hf : ConcaveOn K s f) {p q : K}
    (hp : p ∈ s) (hq : q ∈ s) {a m : K} (hap : a ≤ f p) (haq : a + (q - p) * m ≤ f q) {x : K}
    (hx : x ∈ Set.Icc p q) : a + (x - p) * m ≤ f x := by
  obtain ⟨hpx, hxq⟩ := hx
  rcases eq_or_lt_of_le (hpx.trans hxq) with hpq | hpq
  · -- `[p, q]` is the single point `p`
    have hxp : x = p := le_antisymm (hpq ▸ hxq) hpx
    rw [hxp, sub_self, zero_mul, add_zero]
    exact hap
  · -- `x` is the mean of `p` and `q` with weights `u` and `v`
    have hd : 0 < q - p := sub_pos.2 hpq
    have hne : q - p ≠ 0 := hd.ne'
    have hu : 0 ≤ (q - x) / (q - p) := div_nonneg (by linarith) hd.le
    have hv : 0 ≤ (x - p) / (q - p) := div_nonneg (by linarith) hd.le
    have huv : (q - x) / (q - p) + (x - p) / (q - p) = 1 := by
      field_simp
      ring
    have hmean : (q - x) / (q - p) * p + (x - p) / (q - p) * q = x := by
      field_simp
      ring
    have hconc := hf.2 hp hq hu hv huv
    simp only [smul_eq_mul] at hconc
    rw [hmean] at hconc
    calc a + (x - p) * m = (q - x) / (q - p) * a + (x - p) / (q - p) * (a + (q - p) * m) := by
          field_simp
          ring
      _ ≤ (q - x) / (q - p) * f p + (x - p) / (q - p) * f q :=
          add_le_add (mul_le_mul_of_nonneg_left hap hu) (mul_le_mul_of_nonneg_left haq hv)
      _ ≤ f x := hconc

/-- The mediant is at least the smaller ratio. -/
theorem div_le_add_div_add {a b c d : K} (hb : 0 < b) (hd : 0 < d) (h : a / b ≤ c / d) :
    a / b ≤ (a + c) / (b + d) := by
  rw [div_le_div_iff₀ hb hd] at h
  rw [div_le_div_iff₀ hb (add_pos hb hd)]
  linear_combination h

/-- The mediant is at most the larger ratio. -/
theorem add_div_add_le_div {a b c d : K} (hb : 0 < b) (hd : 0 < d) (h : a / b ≤ c / d) :
    (a + c) / (b + d) ≤ c / d := by
  rw [div_le_div_iff₀ hb hd] at h
  rw [div_le_div_iff₀ (add_pos hb hd) hd]
  linear_combination h

/-- A point of `[0, total]` of a non-empty list of widths lies in the piece of one
element: past the widths before it, and not past its own. -/
theorem exists_piece {α : Type} (w : α → K) :
    ∀ {l : List α}, l ≠ [] → ∀ {x : K}, 0 ≤ x → x ≤ (l.map w).sum →
      ∃ l₁ a l₂, l = l₁ ++ a :: l₂ ∧ (l₁.map w).sum ≤ x ∧ x ≤ (l₁.map w).sum + w a
  | [], hl, _, _, _ => absurd rfl hl
  | a :: l, _, x, hx0, hx => by
    by_cases hxa : x ≤ w a
    · exact ⟨[], a, l, rfl, by simpa using hx0, by simpa using hxa⟩
    · -- past the first piece: the rest is not empty, and `x - w a` lies in it
      have hl : l ≠ [] := by
        rintro rfl
        simp only [List.map_cons, List.map_nil, List.sum_cons, List.sum_nil, add_zero] at hx
        exact hxa hx
      rw [List.map_cons, List.sum_cons] at hx
      obtain ⟨l₁, b, l₂, rfl, h1, h2⟩ :=
        exists_piece w hl (x := x - w a) (by linarith [not_le.1 hxa]) (by linarith)
      refine ⟨a :: l₁, b, l₂, rfl, ?_, ?_⟩
      · rw [List.map_cons, List.sum_cons]
        linarith
      · rw [List.map_cons, List.sum_cons]
        linarith

end Field

/-- A prefix of `s ++ t` is a prefix of `s`, or `s` followed by a prefix of `t`. -/
theorem prefix_append_cases {α : Type} {p s t : List α} (h : p <+: s ++ t) :
    p <+: s ∨ ∃ q, p = s ++ q ∧ q <+: t := by
  obtain ⟨u, hu⟩ := h
  rcases List.append_eq_append_iff.1 hu with ⟨a, rfl, rfl⟩ | ⟨c, rfl, rfl⟩
  · exact .inl ⟨a, rfl⟩
  · exact .inr ⟨c, rfl, ⟨u, rfl⟩⟩

end Lib.ConcaveHull
