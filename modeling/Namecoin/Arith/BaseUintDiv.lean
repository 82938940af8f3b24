import Namecoin.Arith.BaseUintArith
import Namecoin.Arith.BaseUintBits

/-! # Long division of `base_uint`

`operator/=` shifts the divisor `b` up by the difference `shift` of the bit lengths and
then, from bit `shift` down to bit zero, subtracts it from the numerator whenever it fits
and sets that bit of the quotient. The loop keeps three facts (`toNat_divLoop`): the
divisor is `b * 2 ^ j` at bit `j`, what is left of the numerator is below `b * 2 ^ (j + 1)`,
and the quotient has no bit at or below `j` yet. Each round then adds `2 ^ j` times the
next quotient bit, and the quotient ends as the floor of the numerator over `b`. -/

namespace Namecoin.Arith.base_uint

variable {WIDTH : Nat}

/-- `pn[shift / 32] |= 1U << (shift & 31)` sets bit `shift` of the value. -/
theorem toNat_setBit (q : base_uint WIDTH) {j : Nat} (hj : j < 32 * WIDTH) :
    (q.set (j / 32) (q.limb (j / 32) ||| 1 <<< (j % 32).toUInt32)).toNat = q.toNat ||| 2 ^ j := by
  apply Nat.eq_of_testBit_eq
  intro p
  obtain ⟨m, t, ht, rfl⟩ := exists_limb_bit p
  rw [testBit_toNat _ m ht, Nat.testBit_or, testBit_toNat q m ht, Nat.testBit_two_pow]
  by_cases hm : m = j / 32
  · -- the limb holding bit `j`
    subst hm
    rw [limb_set_self _ (by omega), UInt32.toNat_or, Nat.testBit_or,
      toNat_one_shiftLeft (Nat.mod_lt _ (by decide)), Nat.testBit_two_pow]
    congr 1
    simp only [decide_eq_decide]
    omega
  · have hne : decide (j = 32 * m + t) = false := decide_eq_false (by omega)
    rw [limb_set_ne _ hm, hne, Bool.or_false]

/-- A bit above the bits a number has is added by setting it. -/
theorem or_two_pow_of_mod_eq_zero {q j : Nat} (hq : q % 2 ^ (j + 1) = 0) : q ||| 2 ^ j = q + 2 ^ j := by
  have hq' : q = 2 ^ (j + 1) * (q / 2 ^ (j + 1)) := by
    have h := Nat.mod_add_div q (2 ^ (j + 1))
    rw [hq, Nat.zero_add] at h
    exact h.symm
  rw [hq', Nat.two_pow_add_eq_or_of_lt (Nat.pow_lt_pow_right (by decide) (Nat.lt_succ_self j))]

section Step

variable {num div quot : base_uint WIDTH} {j : Nat}

theorem toNat_divStep_fst :
    (divStep num div quot j).1.toNat = if div.toNat ≤ num.toNat then num.toNat - div.toNat else num.toNat := by
  unfold divStep
  rw [ge_eq]
  by_cases h : div.toNat ≤ num.toNat
  · rw [if_pos (decide_eq_true h), if_pos h, toNat_sub_of_le h]
  · rw [if_neg (by simpa using h), if_neg h]

theorem toNat_divStep_snd (hj : j < 32 * WIDTH) (hq : quot.toNat % 2 ^ (j + 1) = 0) :
    (divStep num div quot j).2.toNat = if div.toNat ≤ num.toNat then quot.toNat + 2 ^ j else quot.toNat := by
  unfold divStep
  rw [ge_eq]
  by_cases h : div.toNat ≤ num.toNat
  · rw [if_pos (decide_eq_true h), if_pos h, toNat_setBit quot hj, or_two_pow_of_mod_eq_zero hq]
  · rw [if_neg (by simpa using h), if_neg h]

end Step

/-- The long-division loop from bit `j` down adds the numerator over `B` to the quotient,
when the divisor is `B * 2 ^ j`, the numerator is below `B * 2 ^ (j + 1)` and the quotient
has no bit up to `j`. -/
theorem toNat_divLoop {num div quot : base_uint WIDTH} {B j : Nat} (hB : 0 < B) (hj : j < 32 * WIDTH)
    (hdiv : div.toNat = B * 2 ^ j) (hnum : num.toNat < B * 2 ^ (j + 1))
    (hq : quot.toNat % 2 ^ (j + 1) = 0) :
    (divLoop num div quot j).toNat = quot.toNat + num.toNat / B := by
  induction j generalizing num div quot with
  | zero =>
    rw [divLoop, toNat_divStep_snd hj hq, hdiv]
    simp only [Nat.pow_zero, Nat.mul_one, Nat.zero_add, Nat.pow_one] at hnum ⊢
    by_cases h : B ≤ num.toNat
    · rw [if_pos h, Nat.div_eq_of_lt_le (k := 1) (by omega) (by omega)]
    · rw [if_neg h, Nat.div_eq_of_lt (by omega), Nat.add_zero]
  | succ j ih =>
    -- the divisor moves down one bit for the next round
    have hdiv' : (div >>> 1).toNat = B * 2 ^ j := by
      rw [toNat_shiftRight, hdiv, Nat.pow_one, Nat.pow_succ, ← Nat.mul_assoc, Nat.mul_div_cancel _ (by decide)]
    have hq2 : quot.toNat % 2 ^ (j + 1) = 0 :=
      Nat.mod_eq_zero_of_dvd (Nat.dvd_trans (Nat.pow_dvd_pow 2 (Nat.le_succ _)) (Nat.dvd_of_mod_eq_zero hq))
    have hnum2 : num.toNat < 2 * (B * 2 ^ (j + 1)) := by
      rw [Nat.pow_succ] at hnum
      rw [Nat.mul_comm 2, Nat.mul_assoc]
      exact hnum
    rw [divLoop]
    by_cases h : div.toNat ≤ num.toNat
    · -- the divisor fits: subtract it and set bit `j + 1`
      have hfst : (divStep num div quot (j + 1)).1.toNat = num.toNat - B * 2 ^ (j + 1) := by
        rw [toNat_divStep_fst, if_pos h, hdiv]
      have hsnd : (divStep num div quot (j + 1)).2.toNat = quot.toNat + 2 ^ (j + 1) := by
        rw [toNat_divStep_snd hj hq, if_pos h]
      rw [hdiv] at h
      have hle : 2 ^ (j + 1) ≤ num.toNat / B :=
        (Nat.le_div_iff_mul_le hB).mpr (by rw [Nat.mul_comm]; exact h)
      rw [ih (by omega) hdiv' (by rw [hfst]; omega) (by rw [hsnd, Nat.add_mod_right, hq2]), hfst, hsnd,
        Nat.sub_mul_div]
      omega
    · -- it does not: the round leaves both
      have hfst : (divStep num div quot (j + 1)).1.toNat = num.toNat := by
        rw [toNat_divStep_fst, if_neg h]
      have hsnd : (divStep num div quot (j + 1)).2.toNat = quot.toNat := by
        rw [toNat_divStep_snd hj hq, if_neg h]
      rw [hdiv] at h
      rw [ih (by omega) hdiv' (by rw [hfst]; omega) (by rw [hsnd, hq2]), hfst, hsnd]

/-- A number with fewer bits than a nonzero number is below it. -/
theorem lt_of_bits_lt {x y : Nat} (hy : y ≠ 0) (h : (if x = 0 then 0 else x.log2 + 1) < y.log2 + 1) :
    x < y := by
  have hy' := Nat.log2_self_le hy
  by_cases hx : x = 0
  · omega
  · rw [if_neg hx] at h
    have hx' := Nat.lt_log2_self (n := x)
    have hpow : 2 ^ (x.log2 + 1) ≤ 2 ^ y.log2 := Nat.pow_le_pow_right (by decide) (by omega)
    omega

/-- The divisor moved up to the numerator's top bit stays inside `n` bits, and the
numerator is below twice it: the bounds the long division starts from. -/
theorem shift_bounds {x y n : Nat} (hx : x ≠ 0) (hy : y ≠ 0) (hxn : x < 2 ^ n) (hle : y.log2 ≤ x.log2) :
    y * 2 ^ (x.log2 - y.log2) < 2 ^ n ∧ x < y * 2 ^ (x.log2 - y.log2 + 1) := by
  have hlog : x.log2 < n := (Nat.log2_lt hx).mpr hxn
  constructor
  · calc y * 2 ^ (x.log2 - y.log2) < 2 ^ (y.log2 + 1) * 2 ^ (x.log2 - y.log2) :=
          Nat.mul_lt_mul_of_pos_right Nat.lt_log2_self (Nat.two_pow_pos _)
      _ = 2 ^ (x.log2 + 1) := by rw [← Nat.pow_add]; congr 1; omega
      _ ≤ 2 ^ n := Nat.pow_le_pow_right (by decide) hlog
  · calc x < 2 ^ (x.log2 + 1) := Nat.lt_log2_self
      _ = 2 ^ y.log2 * 2 ^ (x.log2 - y.log2 + 1) := by rw [← Nat.pow_add]; congr 1; omega
      _ ≤ y * 2 ^ (x.log2 - y.log2 + 1) := Nat.mul_le_mul_right _ (Nat.log2_self_le hy)

/-- `operator/=`: the floor of the quotient, and `uint_error ("Division by zero")` for a
zero divisor. -/
theorem div_eq (a b : base_uint WIDTH) :
    a.div b = if b.toNat = 0 then .error "Division by zero" else .ok (ofNat (a.toNat / b.toNat)) := by
  have hA := a.toNat_lt
  unfold div
  rw [bits_eq, bits_eq]
  by_cases hb0 : b.toNat = 0
  · simp [hb0]
  simp only [hb0, if_false, Nat.add_one_ne_zero]
  by_cases hlen : (if a.toNat = 0 then 0 else a.toNat.log2 + 1) < b.toNat.log2 + 1
  · -- fewer bits than the divisor: the quotient is zero
    rw [if_pos hlen, Nat.div_eq_of_lt (lt_of_bits_lt hb0 hlen)]
    congr 1
    apply ext_toNat
    rw [toNat_zero, toNat_ofNat, Nat.zero_mod]
  have ha0 : a.toNat ≠ 0 := by
    intro h
    rw [if_pos h] at hlen
    omega
  rw [if_neg ha0] at hlen ⊢
  rw [if_neg hlen, Nat.add_sub_add_right]
  obtain ⟨hdiv, hnum⟩ := shift_bounds ha0 hb0 hA (by omega)
  have hq : (divLoop a (b <<< (a.toNat.log2 - b.toNat.log2)) 0 (a.toNat.log2 - b.toNat.log2)).toNat =
      (0 : base_uint WIDTH).toNat + a.toNat / b.toNat :=
    toNat_divLoop (Nat.pos_of_ne_zero hb0) (Nat.lt_of_le_of_lt (Nat.sub_le _ _) ((Nat.log2_lt ha0).mpr hA))
      (by rw [toNat_shiftLeft, Nat.mod_eq_of_lt hdiv]) hnum (by rw [toNat_zero, Nat.zero_mod])
  congr 1
  apply ext_toNat
  rw [hq, toNat_zero, Nat.zero_add, toNat_ofNat, Nat.mod_eq_of_lt (Nat.lt_of_le_of_lt (Nat.div_le_self _ _) hA)]

end Namecoin.Arith.base_uint
