import Namecoin.Util.CompareChunks
import Mathlib.Data.Rat.Floor

/-! # The portable products and quotients of `FeeFrac` (util/feefrac.h)

Without `__int128`, `MulFallback` writes the 96-bit product of an `int64_t` and an
`int32_t` as a high `int64_t` and a low `uint32_t` part, `first * 2^32 + second`
(`MulFallback_spec`), so the pairs compare as the products (`MulFallback_lt_iff`).
`DivFallback` divides such a pair by a positive `int32_t` in two steps: the high
part, and the remainder shifted up with the low part. Both it and the `__int128`
`Div` round towards zero and then correct the quotient by the sign of the
remainder, which gives the floor or the ceiling of the rational quotient
(`roundDiv_tdiv`), whenever that fits an `int64_t` (`DivFallback_eq_roundDiv`,
`Div_eq_roundDiv`). The fast path of `EvaluateFee`, in `uint64_t`, gives the same
(`EvaluateFee_eq_roundDiv`).

The intermediate values stay in range, so no `wrapInt` changes one: this is what
each bound below is for. -/

namespace Namecoin.Util
namespace FeeFrac

/-- The values of `int64_t`. -/
def IsInt64 (x : Int) : Prop := -2 ^ 63 ≤ x ∧ x < 2 ^ 63

/-- The values of `int32_t`. -/
def IsInt32 (x : Int) : Prop := -2 ^ 31 ≤ x ∧ x < 2 ^ 31

instance (x : Int) : Decidable (IsInt64 x) := inferInstanceAs (Decidable (_ ∧ _))

instance (x : Int) : Decidable (IsInt32 x) := inferInstanceAs (Decidable (_ ∧ _))

/-- `x / d` rounded down if `round_down`, up otherwise. -/
def roundDiv (x d : Int) (round_down : Bool) : Int :=
  if round_down then ⌊(x : ℚ) / d⌋ else ⌈(x : ℚ) / d⌉

/-! ## Rounded quotients as integer bounds -/

section Round

variable {x d z : Int}

theorem floor_div_eq_iff (hd : 0 < d) : ⌊(x : ℚ) / d⌋ = z ↔ d * z ≤ x ∧ x < d * z + d := by
  have hd' : (0 : ℚ) < d := by exact_mod_cast hd
  rw [Int.floor_eq_iff, le_div_iff₀ hd', div_lt_iff₀ hd']
  norm_cast
  constructor <;> rintro ⟨h1, h2⟩ <;> constructor <;> linarith

theorem ceil_div_eq_iff (hd : 0 < d) : ⌈(x : ℚ) / d⌉ = z ↔ d * z - d < x ∧ x ≤ d * z := by
  have hd' : (0 : ℚ) < d := by exact_mod_cast hd
  rw [Int.ceil_eq_iff, lt_div_iff₀ hd', div_le_iff₀ hd']
  norm_cast
  constructor <;> rintro ⟨h1, h2⟩ <;> constructor <;> linarith

/-- The quotient rounded towards zero and the remainder, which has the sign of `x`. -/
theorem tdiv_spec (hd : 0 < d) (x : Int) :
    x = d * x.tdiv d + x.tmod d ∧ -d < x.tmod d ∧ x.tmod d < d ∧
      (0 ≤ x → 0 ≤ x.tdiv d ∧ 0 ≤ x.tmod d) ∧ (x < 0 → x.tdiv d ≤ 0 ∧ x.tmod d ≤ 0) := by
  have hdef := Int.tmod_def x d
  refine ⟨by omega, Int.lt_tmod_of_pos x hd, Int.tmod_lt_of_pos x hd,
    fun hx => ⟨Int.tdiv_nonneg hx hd.le, Int.tmod_nonneg d hx⟩, fun hx => ?_⟩
  have hneg := Int.tdiv_nonneg (show 0 ≤ -x by omega) hd.le
  have hneg' := Int.tmod_nonneg d (show 0 ≤ -x by omega)
  rw [Int.neg_tdiv] at hneg
  rw [Int.neg_tmod] at hneg'
  omega

/-- The floor is the quotient rounded towards zero, less one for a negative remainder. -/
theorem floor_div_eq_tdiv (hd : 0 < d) (x : Int) :
    ⌊(x : ℚ) / d⌋ = x.tdiv d - (if x.tmod d < 0 then 1 else 0) := by
  obtain ⟨hx, hlo, hhi, -, -⟩ := tdiv_spec hd x
  rw [floor_div_eq_iff hd]
  split_ifs with hm
  · rw [Int.mul_sub, Int.mul_one]
    omega
  · rw [Int.sub_zero]
    omega

/-- The ceiling is the quotient rounded towards zero, plus one for a positive
remainder. -/
theorem ceil_div_eq_tdiv (hd : 0 < d) (x : Int) :
    ⌈(x : ℚ) / d⌉ = x.tdiv d + (if x.tmod d > 0 then 1 else 0) := by
  obtain ⟨hx, hlo, hhi, -, -⟩ := tdiv_spec hd x
  rw [ceil_div_eq_iff hd]
  split_ifs with hm
  · rw [Int.mul_add, Int.mul_one]
    omega
  · rw [Int.add_zero]
    omega

/-- On unsigned values `/` is the floor. -/
theorem floor_div_eq_ediv (hd : 0 < d) (x : Int) : ⌊(x : ℚ) / d⌋ = x / d := by
  have hx := Int.emod_add_mul_ediv x d
  have h0 := Int.emod_nonneg x hd.ne'
  have h1 := Int.emod_lt_of_pos x hd
  rw [floor_div_eq_iff hd]
  omega

/-- `CeilDiv`: the quotient, plus one for a remainder. -/
theorem ceil_div_eq_ediv (hd : 0 < d) (x : Int) :
    ⌈(x : ℚ) / d⌉ = x / d + (if x % d ≠ 0 then 1 else 0) := by
  have hx := Int.emod_add_mul_ediv x d
  have h0 := Int.emod_nonneg x hd.ne'
  have h1 := Int.emod_lt_of_pos x hd
  rw [ceil_div_eq_iff hd]
  split_ifs with hm
  · rw [Int.mul_add, Int.mul_one]
    omega
  · rw [Int.add_zero]
    omega

/-- The correction of `Div` and `DivFallback`: a quotient rounded towards zero is one too
high where rounding down a negative remainder, and one too low where rounding up a
positive one. -/
theorem roundDiv_tdiv (hd : 0 < d) (x : Int) (round_down : Bool) :
    roundDiv x d round_down = x.tdiv d +
      ((if x.tmod d > 0 then 1 else 0) - (if x.tmod d ≠ 0 ∧ round_down = true then 1 else 0)) := by
  cases round_down
  · rw [roundDiv, if_neg Bool.false_ne_true, ceil_div_eq_tdiv hd]
    simp only [Bool.false_eq_true, and_false, if_false, Int.sub_zero]
  · rw [roundDiv, if_pos rfl, floor_div_eq_tdiv hd]
    simp only [and_true]
    split_ifs <;> omega

/-- Bounds on `x` in multiples of `d` bound its rounded quotient. -/
theorem roundDiv_bounds (hd : 0 < d) (L U : Int) (hL : d * L ≤ x) (hU : x ≤ d * U)
    (round_down : Bool) : L ≤ roundDiv x d round_down ∧ roundDiv x d round_down ≤ U := by
  cases round_down
  · have h := Iff.mp (ceil_div_eq_iff hd) (rfl : ⌈(x : ℚ) / d⌉ = _)
    rw [roundDiv, if_neg Bool.false_ne_true]
    generalize ⌈(x : ℚ) / d⌉ = z at h ⊢
    obtain ⟨h1, h2⟩ := h
    constructor <;> nlinarith
  · have h := Iff.mp (floor_div_eq_iff hd) (rfl : ⌊(x : ℚ) / d⌋ = _)
    rw [roundDiv, if_pos rfl]
    generalize ⌊(x : ℚ) / d⌋ = z at h ⊢
    obtain ⟨h1, h2⟩ := h
    constructor <;> nlinarith

/-- A fee taken at a part `s` of the size `d` lies between `0` and the fee, so its
rounded quotient is an `int64_t` with the fee. -/
theorem roundDiv_isInt64 {fee s : Int} (hfee : IsInt64 fee) (hd : 0 < d) (hs : 0 ≤ s)
    (hsd : s ≤ d) (round_down : Bool) : IsInt64 (roundDiv (fee * s) d round_down) := by
  obtain ⟨h1, h2⟩ := hfee
  by_cases hf : 0 ≤ fee
  · obtain ⟨hL, hU⟩ := roundDiv_bounds hd 0 fee (show d * 0 ≤ fee * s by nlinarith)
      (by nlinarith) round_down
    constructor <;> omega
  · obtain ⟨hL, hU⟩ := roundDiv_bounds hd fee 0 (show d * fee ≤ fee * s by nlinarith)
      (by nlinarith) round_down
    constructor <;> omega

/-- Whole multiples of `d` come out of the rounded quotient whole. -/
theorem roundDiv_mul_add (hd : 0 < d) (k y : Int) (round_down : Bool) :
    roundDiv (d * k + y) d round_down = k + roundDiv y d round_down := by
  cases round_down
  · have h := Iff.mp (ceil_div_eq_iff hd) (rfl : ⌈(y : ℚ) / d⌉ = _)
    rw [roundDiv, roundDiv, if_neg Bool.false_ne_true, if_neg Bool.false_ne_true]
    generalize ⌈(y : ℚ) / d⌉ = z at h ⊢
    rw [ceil_div_eq_iff hd, Int.mul_add]
    omega
  · have h := Iff.mp (floor_div_eq_iff hd) (rfl : ⌊(y : ℚ) / d⌋ = _)
    rw [roundDiv, roundDiv, if_pos rfl, if_pos rfl]
    generalize ⌊(y : ℚ) / d⌋ = z at h ⊢
    rw [floor_div_eq_iff hd, Int.mul_add]
    omega

/-- The quotient rounded towards zero lies between the floor and the ceiling, so it is
an `int64_t` when the rounded one is. -/
theorem tdiv_isInt64 (hd : 0 < d) {round_down : Bool} (hR : IsInt64 (roundDiv x d round_down)) :
    IsInt64 (x.tdiv d) := by
  obtain ⟨-, -, -, hpos, hneg⟩ := tdiv_spec hd x
  have hround := roundDiv_tdiv hd x round_down
  obtain ⟨h1, h2⟩ := hR
  constructor
  · by_cases hx : 0 ≤ x
    · have := (hpos hx).1
      omega
    · have := hneg (by omega)
      split_ifs at hround <;> omega
  · by_cases hx : 0 ≤ x
    · have := hpos hx
      split_ifs at hround <;> omega
    · have := (hneg (by omega)).1
      omega

end Round

/-! ## The products -/

/-- `MulFallback` splits the product at `2^32` without overflowing: the low part is
at most `2^32` times `2^31` in size, the high part `2^31` times `2^31`. -/
theorem MulFallback_eq (a b : Int) : MulFallback a b =
    (wrapInt 64 (wrapInt 64 (a / 2 ^ 32 * b) + wrapInt 64 (a % 2 ^ 32 * b) / 2 ^ 32),
      wrapInt 64 (a % 2 ^ 32 * b) % 2 ^ 32) := rfl

theorem MulFallback_spec {a b : Int} (ha : IsInt64 a) (hb : IsInt32 b) :
    a * b = (MulFallback a b).1 * 2 ^ 32 + (MulFallback a b).2 ∧
      0 ≤ (MulFallback a b).2 ∧ (MulFallback a b).2 < 2 ^ 32 ∧
      -2 ^ 62 - 2 ^ 31 ≤ (MulFallback a b).1 ∧ (MulFallback a b).1 ≤ 2 ^ 62 + 2 ^ 31 := by
  obtain ⟨ha1, ha2⟩ := ha
  obtain ⟨hb1, hb2⟩ := hb
  have hsplit : a = a / 2 ^ 32 * 2 ^ 32 + a % 2 ^ 32 := by omega
  have hr0 : 0 ≤ a % 2 ^ 32 := by omega
  have hr1 : a % 2 ^ 32 < 2 ^ 32 := by omega
  have hq0 : -2 ^ 31 ≤ a / 2 ^ 32 := by omega
  have hq1 : a / 2 ^ 32 < 2 ^ 31 := by omega
  -- the two partial products are `int64_t` values
  have hlow : wrapInt 64 (a % 2 ^ 32 * b) = a % 2 ^ 32 * b :=
    wrapInt_64 (by nlinarith) (by nlinarith)
  have hhigh1 : -2 ^ 62 ≤ a / 2 ^ 32 * b := by nlinarith
  have hhigh2 : a / 2 ^ 32 * b ≤ 2 ^ 62 := by nlinarith
  have hhigh : wrapInt 64 (a / 2 ^ 32 * b) = a / 2 ^ 32 * b := wrapInt_64 (by omega) (by omega)
  have hcarry0 : -2 ^ 31 ≤ a % 2 ^ 32 * b / 2 ^ 32 := by
    have : -2 ^ 63 ≤ a % 2 ^ 32 * b := by nlinarith
    omega
  have hcarry1 : a % 2 ^ 32 * b / 2 ^ 32 < 2 ^ 31 := by
    have : a % 2 ^ 32 * b < 2 ^ 63 := by nlinarith
    omega
  have hfirst : wrapInt 64 (a / 2 ^ 32 * b + a % 2 ^ 32 * b / 2 ^ 32) =
      a / 2 ^ 32 * b + a % 2 ^ 32 * b / 2 ^ 32 := wrapInt_64 (by omega) (by omega)
  rw [MulFallback_eq, hlow, hhigh, hfirst]
  have hprod : a * b = a / 2 ^ 32 * b * 2 ^ 32 + a % 2 ^ 32 * b := by
    conv_lhs => rw [hsplit]
    ring
  refine ⟨by omega, by omega, by omega, by omega, by omega⟩

/-- `std::pair`'s `operator<` on the results of `MulFallback` is the order of the
products. -/
theorem MulFallback_lt_iff {a b c d : Int} (ha : IsInt64 a) (hb : IsInt32 b) (hc : IsInt64 c)
    (hd : IsInt32 d) :
    ((MulFallback a b).1 < (MulFallback c d).1 ∨
        ((MulFallback a b).1 = (MulFallback c d).1 ∧ (MulFallback a b).2 < (MulFallback c d).2)) ↔
      a * b < c * d := by
  obtain ⟨hab, hab0, hab1, -, -⟩ := MulFallback_spec ha hb
  obtain ⟨hcd, hcd0, hcd1, -, -⟩ := MulFallback_spec hc hd
  rw [hab, hcd]
  omega

/-! ## The quotients -/

theorem Div_eq (n d : Int) (round_down : Bool) : Div n d round_down =
    wrapInt 64 (wrapInt 64 (n.tdiv d) + ((if wrapInt 32 (n.tmod d) > 0 then 1 else 0) -
      (if wrapInt 32 (n.tmod d) ≠ 0 ∧ round_down = true then 1 else 0))) := rfl

theorem DivFallback_eq (n : Int × Int) (d : Int) (round_down : Bool) :
    DivFallback n d round_down =
      let n_low := wrapInt 64 (wrapInt 64 (n.1.tmod d * 2 ^ 32) + n.2)
      let mod_low := wrapInt 32 (n_low.tmod d)
      wrapInt 64 (wrapInt 64 (n.1.tdiv d * 2 ^ 32) + wrapInt 64 (n_low.tdiv d +
        ((if mod_low > 0 then 1 else 0) - (if mod_low ≠ 0 ∧ round_down = true then 1 else 0)))) :=
  rfl

section Quotients

variable {d : Int} (hd : 0 < d) (hd' : d < 2 ^ 31)
include hd hd'

/-- The `__int128` division: the quotient rounded towards zero is an `int64_t` and the
remainder an `int32_t`, and the correction rounds it. -/
theorem Div_eq_roundDiv {n : Int} {round_down : Bool} (hR : IsInt64 (roundDiv n d round_down)) :
    Div n d round_down = roundDiv n d round_down := by
  obtain ⟨-, hlo, hhi, -, -⟩ := tdiv_spec hd n
  have hq := tdiv_isInt64 hd hR
  have hmod : wrapInt 32 (n.tmod d) = n.tmod d := wrapInt_32 (by omega) (by omega)
  rw [Div_eq, wrapInt_64 hq.1 hq.2, hmod, ← roundDiv_tdiv hd]
  exact wrapInt_64 hR.1 hR.2

/-- The two-step division of a pair `(first, second)` with `second` a `uint32_t`: the
high part leaves a remainder below `d`, which shifted up with the low part stays an
`int64_t`, and its rounded quotient is below `2^32` in size; the high quotient times
`2^32` is an `int64_t` when the result is. -/
theorem DivFallback_eq_roundDiv {n : Int × Int} (hn2 : 0 ≤ n.2)
    (hn2' : n.2 < 2 ^ 32) {round_down : Bool}
    (hR : IsInt64 (roundDiv (n.1 * 2 ^ 32 + n.2) d round_down)) :
    DivFallback n d round_down = roundDiv (n.1 * 2 ^ 32 + n.2) d round_down := by
  obtain ⟨hx, hlo, hhi, hpos, hneg⟩ := tdiv_spec hd n.1
  -- the remainder shifted up, with the low part
  have hshift : wrapInt 64 (n.1.tmod d * 2 ^ 32) = n.1.tmod d * 2 ^ 32 :=
    wrapInt_64 (by omega) (by omega)
  have hlow : wrapInt 64 (n.1.tmod d * 2 ^ 32 + n.2) = n.1.tmod d * 2 ^ 32 + n.2 :=
    wrapInt_64 (by omega) (by omega)
  generalize hm : n.1.tmod d = m at hx hlo hhi hpos hneg hshift hlow
  generalize ht : n.1.tdiv d = t at hx hpos hneg
  have hq := roundDiv_bounds hd (-2 ^ 32) (2 ^ 32)
    (show d * -2 ^ 32 ≤ m * 2 ^ 32 + n.2 by nlinarith) (by nlinarith) round_down
  have hsum : n.1 * 2 ^ 32 + n.2 = d * (t * 2 ^ 32) + (m * 2 ^ 32 + n.2) := by
    rw [hx]
    ring
  rw [hsum, roundDiv_mul_add hd] at hR ⊢
  have hlow_round : (if wrapInt 32 ((m * 2 ^ 32 + n.2).tmod d) > 0 then 1 else 0) -
      (if wrapInt 32 ((m * 2 ^ 32 + n.2).tmod d) ≠ 0 ∧ round_down = true then 1 else 0) +
      (m * 2 ^ 32 + n.2).tdiv d = roundDiv (m * 2 ^ 32 + n.2) d round_down := by
    obtain ⟨-, hlo', hhi', -, -⟩ := tdiv_spec hd (m * 2 ^ 32 + n.2)
    rw [wrapInt_32 (by omega) (by omega), roundDiv_tdiv hd]
    omega
  -- the sign of the high part bounds the low quotient on the other side
  have hhigh : IsInt64 (t * 2 ^ 32) := by
    obtain ⟨hR1, hR2⟩ := hR
    by_cases h0 : 0 ≤ n.1
    · obtain ⟨ht0, hm0⟩ := hpos h0
      have hq0 := (roundDiv_bounds hd 0 (2 ^ 32)
        (show d * 0 ≤ m * 2 ^ 32 + n.2 by nlinarith) (by nlinarith) round_down).1
      constructor <;> omega
    · obtain ⟨ht0, hm0⟩ := hneg (by omega)
      have hqle := (roundDiv_bounds hd (-2 ^ 32) (2 ^ 32 - 1)
        (show d * -2 ^ 32 ≤ m * 2 ^ 32 + n.2 by nlinarith) (by nlinarith) round_down).2
      constructor <;> omega
  have hquot : wrapInt 64 (roundDiv (m * 2 ^ 32 + n.2) d round_down) =
      roundDiv (m * 2 ^ 32 + n.2) d round_down := wrapInt_64 (by omega) (by omega)
  rw [DivFallback_eq]
  dsimp only
  rw [hm, ht, hshift, hlow, wrapInt_64 hhigh.1 hhigh.2, Int.add_comm _ (_ - _), hlow_round,
    hquot]
  exact wrapInt_64 hR.1 hR.2

/-- `EvaluateFee` at a part of the size: the fast path in `uint64_t` takes the floor
or `CeilDiv` of the exact product, the slow one `Div` of `Mul`, and both round the
rational fee. -/
theorem EvaluateFee_eq_roundDiv {f : FeeFrac} (hfee : IsInt64 f.fee) (hsize : f.size = d)
    {at_size : Int} (h0 : 0 ≤ at_size) (hle : at_size ≤ f.size) (RoundDown : Bool) :
    EvaluateFee f RoundDown at_size = roundDiv (f.fee * at_size) f.size RoundDown := by
  subst hsize
  have hR := roundDiv_isInt64 hfee hd h0 hle RoundDown
  rw [EvaluateFee]
  by_cases hfast : f.fee ≥ 0 ∧ f.fee < 0x200000000
  · -- in `uint64_t` nothing wraps: the fee is below `2^33` and `at_size` below `2^31`
    rw [if_pos hfast]
    obtain ⟨hf0, hf1⟩ := hfast
    have hprod : f.fee * (at_size % 2 ^ 64) % 2 ^ 64 = f.fee * at_size := by
      rw [Int.emod_eq_of_lt h0 (by omega)]
      exact Int.emod_eq_of_lt (by nlinarith) (by nlinarith)
    have hdiv : f.size % 2 ^ 32 = f.size := Int.emod_eq_of_lt hd.le (by omega)
    simp only [hprod, hdiv]
    cases RoundDown
    · rw [roundDiv, if_neg Bool.false_ne_true, ceil_div_eq_ediv hd] at *
      rw [if_neg Bool.false_ne_true]
      exact wrapInt_64 hR.1 hR.2
    · rw [roundDiv, if_pos rfl, floor_div_eq_ediv hd] at *
      rw [if_pos rfl]
      exact wrapInt_64 hR.1 hR.2
  · rw [if_neg hfast]
    exact Div_eq_roundDiv hd hd' hR

end Quotients

/-- Without `__int128` the arithmetic is exact: `MulFallback` represents the product and
orders as it, `DivFallback` of it and `Div` of `Mul` both give the floor or the ceiling
of the quotient by a positive `int32_t` whenever that fits an `int64_t`, and the fast
path of `EvaluateFee` agrees with `Div (Mul ..)` at a part of the size. -/
theorem feeFrac_fallback_exact :
    (∀ a b c d : Int, IsInt64 a → IsInt32 b → IsInt64 c → IsInt32 d →
      a * b = (MulFallback a b).1 * 2 ^ 32 + (MulFallback a b).2 ∧
      (((MulFallback a b).1 < (MulFallback c d).1 ∨
          ((MulFallback a b).1 = (MulFallback c d).1 ∧ (MulFallback a b).2 < (MulFallback c d).2)) ↔
        a * b < c * d)) ∧
    (∀ a b d : Int, IsInt64 a → IsInt32 b → 0 < d → d < 2 ^ 31 → ∀ round_down : Bool,
      IsInt64 (roundDiv (a * b) d round_down) →
      DivFallback (MulFallback a b) d round_down = roundDiv (a * b) d round_down ∧
      Div (Mul a b) d round_down = roundDiv (a * b) d round_down) ∧
    (∀ (f : FeeFrac) (RoundDown : Bool) (at_size : Int), IsInt64 f.fee → 0 < f.size →
      f.size < 2 ^ 31 → 0 ≤ at_size → at_size ≤ f.size →
      EvaluateFee f RoundDown at_size = Div (Mul f.fee at_size) f.size RoundDown ∧
      EvaluateFee f RoundDown at_size = roundDiv (f.fee * at_size) f.size RoundDown) := by
  refine ⟨fun a b c d ha hb hc hd => ⟨(MulFallback_spec ha hb).1, MulFallback_lt_iff ha hb hc hd⟩,
    fun a b d ha hb hd hd' round_down hR => ?_, fun f RoundDown at_size hfee hd hd' h0 hle => ?_⟩
  · -- the pair's value is the product, and its low part a `uint32_t`
    obtain ⟨hab, hlo, hhi, -, -⟩ := MulFallback_spec ha hb
    have hexact := Div_eq_roundDiv hd hd' hR
    rw [hab] at hR
    have hfall := DivFallback_eq_roundDiv hd hd' hlo hhi hR
    rw [← hab] at hfall
    exact ⟨hfall, hexact⟩
  · have heval := EvaluateFee_eq_roundDiv hd hd' hfee rfl h0 hle RoundDown
    have hR := roundDiv_isInt64 hfee hd h0 hle RoundDown
    exact ⟨heval.trans (Div_eq_roundDiv hd hd' hR).symm, heval⟩

theorem feeFrac_fallback_exact_at :
    DivFallback (MulFallback (-7) 3) 2 true = Div (Mul (-7) 3) 2 true ∧
      EvaluateFee ⟨5, 3⟩ false 2 = Div (Mul 5 2) 3 false ∧
      EvaluateFee ⟨-5, 3⟩ false 2 = Div (Mul (-5) 2) 3 false := by
  have hR : roundDiv (-7 * 3) 2 true = -11 := Iff.mpr (floor_div_eq_iff (by decide)) (by decide)
  have hdiv := (And.left (And.right feeFrac_fallback_exact)) (-7) 3 2 (by decide) (by decide)
    (by decide) (by decide) true (by rw [hR]; decide)
  have hfast := (And.right (And.right feeFrac_fallback_exact)) ⟨5, 3⟩ false 2 (by decide)
    (by decide) (by decide) (by decide) (by decide)
  have hslow := (And.right (And.right feeFrac_fallback_exact)) ⟨-5, 3⟩ false 2 (by decide)
    (by decide) (by decide) (by decide) (by decide)
  exact ⟨hdiv.1.trans hdiv.2.symm, hfast.1, hslow.1⟩

end FeeFrac
end Namecoin.Util
