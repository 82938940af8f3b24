import Mathlib.Data.Nat.Bitwise

/-! # Numbers written in limbs

`segment w d s n` is the number whose digits in base `2 ^ w` are `d s, …, d (s + n - 1)`,
the lowest first. With every digit below `2 ^ w` it is below `2 ^ (w * n)`
(`segment_lt`), digit `i` is read back by `/ 2 ^ (w * i) % 2 ^ w` (`segment_div_mod`),
and the digits of a number write it modulo `2 ^ (w * n)` (`segment_digits`). Two such numbers compare by their
highest digit first (`segment_succ_lt_iff`). -/

namespace Lib.Limbs

/-- The digits `d s, …, d (s + n - 1)` in base `2 ^ w`, the lowest first. -/
def segment (w : Nat) (d : Nat → Nat) (s : Nat) : Nat → Nat
  | 0 => 0
  | n + 1 => d s + 2 ^ w * segment w d (s + 1) n

variable {w : Nat} {d e : Nat → Nat} {s n : Nat}

@[simp] theorem segment_zero : segment w d s 0 = 0 := rfl

theorem segment_succ : segment w d s (n + 1) = d s + 2 ^ w * segment w d (s + 1) n := rfl

theorem segment_add (m n : Nat) :
    segment w d s (m + n) = segment w d s m + 2 ^ (w * m) * segment w d (s + m) n := by
  induction m generalizing s with
  | zero => simp
  | succ m ih =>
    rw [Nat.add_right_comm, segment_succ, ih, segment_succ, Nat.add_assoc, Nat.mul_add,
      ← Nat.mul_assoc, ← Nat.pow_add, Nat.mul_succ, Nat.add_comm w, Nat.add_comm 1 m]
    omega

theorem segment_succ_back : segment w d s (n + 1) = segment w d s n + 2 ^ (w * n) * d (s + n) := by
  rw [segment_add, segment_succ, segment_zero, Nat.mul_zero, Nat.add_zero]

/-- Digits add digit by digit, without carries. -/
theorem segment_add_digits :
    segment w (fun i => d i + e i) s n = segment w d s n + segment w e s n := by
  induction n generalizing s with
  | zero => rfl
  | succ n ih =>
    rw [segment_succ, segment_succ, segment_succ, ih, Nat.mul_add]
    omega

/-- All digits at their largest give the largest number of `n` digits. -/
theorem segment_max : segment w (fun _ => 2 ^ w - 1) s n = 2 ^ (w * n) - 1 := by
  induction n generalizing s with
  | zero => rfl
  | succ n ih =>
    have hp : 1 ≤ 2 ^ w := Nat.one_le_two_pow
    have hq : 1 ≤ 2 ^ (w * n) := Nat.one_le_two_pow
    have hpq : 2 ^ w ≤ 2 ^ w * 2 ^ (w * n) := Nat.le_mul_of_pos_right _ hq
    rw [segment_succ, ih, Nat.mul_sub_one, Nat.mul_succ, Nat.pow_add, Nat.mul_comm (2 ^ (w * n))]
    omega

/-- Digits that agree give one number. -/
theorem segment_congr (h : ∀ i, i < n → d (s + i) = e (s + i)) :
    segment w d s n = segment w e s n := by
  induction n generalizing s with
  | zero => rfl
  | succ n ih =>
    have h0 := h 0 (Nat.succ_pos n)
    rw [Nat.add_zero] at h0
    rw [segment_succ, segment_succ, h0, ih fun i hi => by
      rw [Nat.add_right_comm, Nat.add_assoc]
      exact h (i + 1) (by omega)]

section Digits

variable (hd : ∀ i, d i < 2 ^ w)
include hd

theorem segment_lt : segment w d s n < 2 ^ (w * n) := by
  induction n generalizing s with
  | zero => simp
  | succ n ih =>
    have h1 := hd s
    have h2 := @ih (s + 1)
    rw [segment_succ, Nat.mul_succ, Nat.pow_add, Nat.mul_comm (2 ^ (w * n))]
    calc d s + 2 ^ w * segment w d (s + 1) n < 2 ^ w + 2 ^ w * segment w d (s + 1) n := by omega
      _ = 2 ^ w * (segment w d (s + 1) n + 1) := by rw [Nat.mul_add, Nat.mul_one, Nat.add_comm]
      _ ≤ 2 ^ w * 2 ^ (w * n) := Nat.mul_le_mul_left _ h2

/-- The number modulo `2 ^ (w * m)` is its lowest `m` digits. -/
theorem segment_mod {m : Nat} (hm : m ≤ n) : segment w d s n % 2 ^ (w * m) = segment w d s m := by
  obtain ⟨k, rfl⟩ := Nat.exists_eq_add_of_le hm
  rw [segment_add, Nat.add_mul_mod_self_left, Nat.mod_eq_of_lt (segment_lt hd)]

/-- The number divided by `2 ^ (w * m)` is its digits from `m` on. -/
theorem segment_div {m : Nat} (hm : m ≤ n) :
    segment w d s n / 2 ^ (w * m) = segment w d (s + m) (n - m) := by
  obtain ⟨k, rfl⟩ := Nat.exists_eq_add_of_le hm
  rw [segment_add, Nat.add_mul_div_left _ _ (Nat.two_pow_pos _), Nat.div_eq_of_lt (segment_lt hd),
    Nat.zero_add, Nat.add_sub_cancel_left]

/-- Digit `i` is read back by dividing and taking the remainder. -/
theorem segment_div_mod {i : Nat} (hi : i < n) : segment w d s n / 2 ^ (w * i) % 2 ^ w = d (s + i) := by
  rw [segment_div hd hi.le, show n - i = (n - i - 1) + 1 by omega, segment_succ,
    Nat.add_mul_mod_self_left, Nat.mod_eq_of_lt (hd _)]

end Digits

/-- A low part below `2 ^ k` is kept whole by a reduction modulo `2 ^ (k + m)`, which
reduces the high part modulo `2 ^ m`: the step of every carry loop. -/
theorem add_mul_mod_two_pow {k m L : Nat} (Y : Nat) (hL : L < 2 ^ k) :
    (L + 2 ^ k * Y) % 2 ^ (k + m) = L + 2 ^ k * (Y % 2 ^ m) := by
  have hpos : 0 < 2 ^ k := Nat.two_pow_pos k
  rw [Nat.pow_add, Nat.mod_mul, Nat.add_mul_mod_self_left, Nat.mod_eq_of_lt hL,
    Nat.add_mul_div_left _ _ hpos, Nat.div_eq_of_lt hL, Nat.zero_add]

/-- `add_mul_mod_two_pow` for one digit below `n` more. -/
theorem add_mul_mod_two_pow_succ {L : Nat} (Y n : Nat) (hL : L < 2 ^ w) :
    (L + 2 ^ w * Y) % 2 ^ (w * (n + 1)) = L + 2 ^ w * (Y % 2 ^ (w * n)) := by
  rw [Nat.mul_succ, Nat.add_comm (w * n), add_mul_mod_two_pow Y hL]

/-- A nonzero high digit above a low part fixes the bit length. -/
theorem log2_add_mul_two_pow {k L x : Nat} (hL : L < 2 ^ k) (hx : x ≠ 0) :
    (L + 2 ^ k * x).log2 = k + x.log2 := by
  have hlo := Nat.log2_self_le hx
  have hhi := Nat.lt_log2_self (n := x)
  have hpos : 0 < 2 ^ k * x := Nat.mul_pos (Nat.two_pow_pos k) (Nat.pos_of_ne_zero hx)
  rw [Nat.log2_eq_iff (by omega)]
  constructor
  · calc 2 ^ (k + x.log2) = 2 ^ k * 2 ^ x.log2 := Nat.pow_add _ _ _
      _ ≤ 2 ^ k * x := Nat.mul_le_mul_left _ hlo
      _ ≤ L + 2 ^ k * x := Nat.le_add_left _ _
  · calc L + 2 ^ k * x < 2 ^ k * (x + 1) := by rw [Nat.mul_succ]; omega
      _ ≤ 2 ^ k * 2 ^ (x.log2 + 1) := Nat.mul_le_mul_left _ hhi
      _ = 2 ^ (k + x.log2 + 1) := by rw [← Nat.pow_add, Nat.add_assoc]

/-- The digits of `x` write it modulo `2 ^ (w * n)`. -/
theorem segment_digits (x : Nat) :
    segment w (fun i => x / 2 ^ (w * i) % 2 ^ w) 0 n = x % 2 ^ (w * n) := by
  induction n with
  | zero => simp [Nat.mod_one]
  | succ n ih =>
    rw [segment_succ_back, ih, Nat.zero_add, Nat.mul_succ, Nat.pow_add, Nat.mod_mul]

/-- Numbers with digits below `2 ^ w` compare by their highest digit first. -/
theorem segment_succ_lt_iff (hd : ∀ i, d i < 2 ^ w) (he : ∀ i, e i < 2 ^ w) :
    segment w d s (n + 1) < segment w e s (n + 1) ↔
      d (s + n) < e (s + n) ∨ d (s + n) = e (s + n) ∧ segment w d s n < segment w e s n := by
  have hd' := segment_lt hd (s := s) (n := n)
  have he' := segment_lt he (s := s) (n := n)
  rw [segment_succ_back, segment_succ_back]
  generalize segment w d s n = a at hd' ⊢
  generalize segment w e s n = b at he' ⊢
  generalize 2 ^ (w * n) = p at hd' he' ⊢
  constructor
  · intro h
    rcases Nat.lt_trichotomy (d (s + n)) (e (s + n)) with hlt | heq | hgt
    · exact .inl hlt
    · rw [heq] at h
      exact .inr ⟨heq, by omega⟩
    · have : p * e (s + n) + p ≤ p * d (s + n) := by
        rw [← Nat.mul_succ]
        exact Nat.mul_le_mul_left _ hgt
      omega
  · rintro (hlt | ⟨heq, hab⟩)
    · have : p * d (s + n) + p ≤ p * e (s + n) := by
        rw [← Nat.mul_succ]
        exact Nat.mul_le_mul_left _ hlt
      omega
    · rw [heq]
      omega

end Lib.Limbs
