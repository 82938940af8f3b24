import Namecoin.Arith.BaseUint

/-! # Shifts, comparison and bit length of `base_uint`

The shifts start from zero and OR each limb of the old value into one or two limbs of the
new one. Bit `t` of a limb at the end is therefore set exactly when some step ORs a set
bit into it (`testBit_limb_foldl`); for `<<=` and `>>=` the step that does so is pinned by
`shift / 32` and `shift % 32`, and the bit it brings is bit `j - shift`, or `j + shift`,
of the value (`testBit_toNat_shiftLeft`, `testBit_toNat_shiftRight`). `CompareTo` and
`bits ()` scan from the top limb, so they are proved by induction on the limbs below. -/

namespace Namecoin.Arith.base_uint

open Lib.Limbs

variable {WIDTH : Nat}

@[simp] theorem limb_zero (i : Nat) : (0 : base_uint WIDTH).limb i = 0 := by
  simp only [limb]
  split <;> rfl

/-- Bit `x` of limb `i` is bit `32 * i + x` of the value, and clear from `x = 32` on. -/
theorem testBit_limb (a : base_uint WIDTH) (i x : Nat) :
    (a.limb i).toNat.testBit x = (decide (x < 32) && a.toNat.testBit (32 * i + x)) := by
  by_cases hx : x < 32
  · rw [testBit_toNat a i hx]
    simp [hx]
  · have hle : 2 ^ 32 ≤ 2 ^ x := Nat.pow_le_pow_right (by decide) (by omega)
    rw [Nat.testBit_lt_two_pow (Nat.lt_of_lt_of_le (toNat_limb_lt a i) hle)]
    simp [hx]

theorem toNat_toUInt32_mod (n : Nat) : n.toUInt32.toNat % 32 = n % 32 := by
  rw [Nat.toUInt32_eq, UInt32.toNat_ofNat', Nat.mod_mod_of_dvd _ (by decide)]

theorem testBit_limb_shiftRight (x : UInt32) (n t : Nat) :
    (x >>> n.toUInt32).toNat.testBit t = x.toNat.testBit (n % 32 + t) := by
  rw [UInt32.toNat_shiftRight, Nat.testBit_shiftRight, toNat_toUInt32_mod]

theorem testBit_limb_shiftLeft (x : UInt32) (n t : Nat) :
    (x <<< n.toUInt32).toNat.testBit t =
      (decide (t < 32) && (decide (n % 32 ≤ t) && x.toNat.testBit (t - n % 32))) := by
  rw [UInt32.toNat_shiftLeft, Nat.testBit_mod_two_pow, Nat.testBit_shiftLeft, toNat_toUInt32_mod]

/-! ## Limbs ORed in one guarded step at a time -/

/-- One guarded `pn[p] |= v`: bit `t` of limb `m` is set after it when it was before, or
when the step runs on limb `m` and `v` has the bit. -/
theorem testBit_limb_orSet (r : base_uint WIDTH) (g : Prop) [Decidable g] (p : Nat) (v : UInt32)
    (m t : Nat) :
    ((if g then r.set p (r.limb p ||| v) else r).limb m).toNat.testBit t =
      ((r.limb m).toNat.testBit t || (decide (g ∧ p = m ∧ m < WIDTH) && v.toNat.testBit t)) := by
  by_cases hg : g
  · rw [if_pos hg]
    by_cases hpm : p = m
    · subst hpm
      by_cases hm : p < WIDTH
      · rw [limb_set_self _ hm, UInt32.toNat_or, Nat.testBit_or]
        simp [hg, hm]
      · rw [limb_of_le (Nat.le_of_not_lt hm), limb_of_le (Nat.le_of_not_lt hm)]
        simp [hm]
    · rw [limb_set_ne _ (Ne.symm hpm)]
      simp [hpm]
  · rw [if_neg hg]
    simp [hg]

/-- A loop of steps that only OR into limbs: a bit is set at the end when it was at the
start or some step sets it. -/
theorem testBit_limb_foldl {f : base_uint WIDTH → Nat → base_uint WIDTH} {P : Nat → Nat → Nat → Bool}
    (hf : ∀ r i m t, ((f r i).limb m).toNat.testBit t = ((r.limb m).toNat.testBit t || P i m t))
    (l : List Nat) (r : base_uint WIDTH) (m t : Nat) :
    ((l.foldl f r).limb m).toNat.testBit t = ((r.limb m).toNat.testBit t || l.any fun i => P i m t) := by
  induction l generalizing r with
  | nil => simp
  | cons i l ih => rw [List.foldl_cons, ih, hf, List.any_cons, Bool.or_assoc]

/-! ## `operator<<=` -/

theorem testBit_limb_shiftLeftStep (a : base_uint WIDTH) (k s : Nat) (r : base_uint WIDTH) (i m t : Nat) :
    ((shiftLeftStep a k s r i).limb m).toNat.testBit t = ((r.limb m).toNat.testBit t ||
      ((decide ((i + k + 1 < WIDTH ∧ s ≠ 0) ∧ i + k + 1 = m ∧ m < WIDTH) &&
          (a.limb i >>> (32 - s).toUInt32).toNat.testBit t) ||
        (decide (i + k < WIDTH ∧ i + k = m ∧ m < WIDTH) && (a.limb i <<< s.toUInt32).toNat.testBit t))) := by
  simp only [shiftLeftStep]
  rw [testBit_limb_orSet, testBit_limb_orSet, Bool.or_assoc]

/-- Bit `j` after `<<= shift` is bit `j - shift` of the value, inside the width. -/
theorem testBit_toNat_shiftLeft (a : base_uint WIDTH) (shift j : Nat) :
    (a <<< shift).toNat.testBit j =
      (decide (j < 32 * WIDTH) && (decide (shift ≤ j) && a.toNat.testBit (j - shift))) := by
  obtain ⟨m, t, ht, rfl⟩ := exists_limb_bit j
  rw [testBit_toNat _ m ht]
  show ((List.range WIDTH).foldl (shiftLeftStep a (shift / 32) (shift % 32)) 0 |>.limb m).toNat.testBit t = _
  rw [testBit_limb_foldl (testBit_limb_shiftLeftStep a (shift / 32) (shift % 32))]
  apply Bool.eq_iff_iff.mpr
  simp only [limb_zero, UInt32.toNat_zero, Nat.zero_testBit, Bool.false_or, List.any_eq_true,
    List.mem_range, Bool.or_eq_true, Bool.and_eq_true, decide_eq_true_eq, testBit_limb_shiftRight,
    testBit_limb_shiftLeft, testBit_limb, Nat.mod_mod]
  constructor
  · rintro ⟨i, -, ⟨⟨⟨-, hs⟩, hm, hmW⟩, hlt, hb⟩ | ⟨⟨-, hm, hmW⟩, -, hst, -, hb⟩⟩
    · -- the top bits of limb `i`, which lands on limb `m - 1` of the shifted value
      rw [show 32 * i + ((32 - shift % 32) % 32 + t) = 32 * m + t - shift by omega] at hb
      exact ⟨by omega, by omega, hb⟩
    · -- the low bits of limb `i`, which lands on limb `m`
      rw [show 32 * i + (t - shift % 32) = 32 * m + t - shift by omega] at hb
      exact ⟨by omega, by omega, hb⟩
  · rintro ⟨hj, hle, hb⟩
    by_cases hst : shift % 32 ≤ t
    · refine ⟨m - shift / 32, by omega, .inr ⟨⟨by omega, by omega, by omega⟩, ht, hst, by omega, ?_⟩⟩
      rw [show 32 * (m - shift / 32) + (t - shift % 32) = 32 * m + t - shift by omega]
      exact hb
    · refine ⟨m - shift / 32 - 1, by omega, .inl ⟨⟨⟨by omega, by omega⟩, by omega, by omega⟩, by omega, ?_⟩⟩
      rw [show 32 * (m - shift / 32 - 1) + ((32 - shift % 32) % 32 + t) = 32 * m + t - shift by omega]
      exact hb

theorem toNat_shiftLeft (a : base_uint WIDTH) (shift : Nat) :
    (a <<< shift).toNat = a.toNat * 2 ^ shift % 2 ^ (32 * WIDTH) := by
  apply Nat.eq_of_testBit_eq
  intro j
  rw [testBit_toNat_shiftLeft, Nat.testBit_mod_two_pow, ← Nat.shiftLeft_eq, Nat.testBit_shiftLeft]

/-! ## `operator>>=` -/

theorem testBit_limb_shiftRightStep (a : base_uint WIDTH) (k s : Nat) (r : base_uint WIDTH) (i m t : Nat) :
    ((shiftRightStep a k s r i).limb m).toNat.testBit t = ((r.limb m).toNat.testBit t ||
      ((decide ((k + 1 ≤ i ∧ s ≠ 0) ∧ i - k - 1 = m ∧ m < WIDTH) &&
          (a.limb i <<< (32 - s).toUInt32).toNat.testBit t) ||
        (decide (k ≤ i ∧ i - k = m ∧ m < WIDTH) && (a.limb i >>> s.toUInt32).toNat.testBit t))) := by
  simp only [shiftRightStep]
  rw [testBit_limb_orSet, testBit_limb_orSet, Bool.or_assoc]

/-- Bit `j` after `>>= shift` is bit `j + shift` of the value. -/
theorem testBit_toNat_shiftRight (a : base_uint WIDTH) (shift j : Nat) :
    (a >>> shift).toNat.testBit j = a.toNat.testBit (j + shift) := by
  obtain ⟨m, t, ht, rfl⟩ := exists_limb_bit j
  rw [testBit_toNat _ m ht]
  show ((List.range WIDTH).foldl (shiftRightStep a (shift / 32) (shift % 32)) 0 |>.limb m).toNat.testBit t = _
  rw [testBit_limb_foldl (testBit_limb_shiftRightStep a (shift / 32) (shift % 32))]
  have hlt := a.toNat_lt
  apply Bool.eq_iff_iff.mpr
  simp only [limb_zero, UInt32.toNat_zero, Nat.zero_testBit, Bool.false_or, List.any_eq_true,
    List.mem_range, Bool.or_eq_true, Bool.and_eq_true, decide_eq_true_eq, testBit_limb_shiftRight,
    testBit_limb_shiftLeft, testBit_limb, Nat.mod_mod]
  constructor
  · rintro ⟨i, -, ⟨⟨⟨hk, hs⟩, hm, -⟩, -, hst, -, hb⟩ | ⟨⟨hk, hm, -⟩, hlt32, hb⟩⟩
    · -- the low bits of limb `i`, which land on limb `m` from limb `m + 1`
      rw [show 32 * i + (t - (32 - shift % 32) % 32) = 32 * m + t + shift by omega] at hb
      exact hb
    · -- the high bits of limb `i`, which land on limb `m`
      rw [show 32 * i + (shift % 32 + t) = 32 * m + t + shift by omega] at hb
      exact hb
  · intro hb
    -- a set bit lies inside the width, so the limb it comes from is a limb of the value
    have hin : 32 * m + t + shift < 32 * WIDTH := by
      by_contra hge
      have hle : 2 ^ (32 * WIDTH) ≤ 2 ^ (32 * m + t + shift) := Nat.pow_le_pow_right (by decide) (by omega)
      rw [Nat.testBit_lt_two_pow (Nat.lt_of_lt_of_le hlt hle)] at hb
      exact Bool.false_ne_true hb
    by_cases hts : t + shift % 32 < 32
    · refine ⟨m + shift / 32, by omega, .inr ⟨⟨by omega, by omega, by omega⟩, by omega, ?_⟩⟩
      rw [show 32 * (m + shift / 32) + (shift % 32 + t) = 32 * m + t + shift by omega]
      exact hb
    · refine ⟨m + shift / 32 + 1, by omega, .inl ⟨⟨⟨by omega, by omega⟩, by omega, by omega⟩, ht, by omega, by omega, ?_⟩⟩
      rw [show 32 * (m + shift / 32 + 1) + (t - (32 - shift % 32) % 32) = 32 * m + t + shift by omega]
      exact hb

theorem toNat_shiftRight (a : base_uint WIDTH) (shift : Nat) : (a >>> shift).toNat = a.toNat / 2 ^ shift := by
  apply Nat.eq_of_testBit_eq
  intro j
  rw [testBit_toNat_shiftRight, ← Nat.shiftRight_eq_div_pow, Nat.testBit_shiftRight, Nat.add_comm]

/-! ## `CompareTo` -/

/-- The low `n + 1` limbs compare by limb `n` first. -/
theorem seg_succ_lt_iff {a b : base_uint WIDTH} {n : Nat} :
    a.seg 0 (n + 1) < b.seg 0 (n + 1) ↔ a.limb n < b.limb n ∨ a.limb n = b.limb n ∧ a.seg 0 n < b.seg 0 n := by
  rw [seg, seg, segment_succ_lt_iff (toNat_limb_lt a) (toNat_limb_lt b), Nat.zero_add,
    UInt32.lt_iff_toNat_lt, UInt32.toNat_inj]
  rfl

theorem compareFrom_eq (a b : base_uint WIDTH) (n : Nat) :
    compareFrom a b n = if a.seg 0 n < b.seg 0 n then -1 else if b.seg 0 n < a.seg 0 n then 1 else 0 := by
  induction n with
  | zero => simp [compareFrom, seg]
  | succ n ih =>
    rw [compareFrom]
    by_cases hlt : a.limb n < b.limb n
    · rw [if_pos hlt, if_pos (seg_succ_lt_iff.mpr (.inl hlt))]
    · rw [if_neg hlt]
      by_cases hgt : b.limb n < a.limb n
      · have hnlt : ¬a.seg 0 (n + 1) < b.seg 0 (n + 1) := by
          intro h
          rcases seg_succ_lt_iff.mp h with h | ⟨heq, -⟩
          · exact hlt h
          · exact (UInt32.lt_irrefl _) (heq ▸ hgt)
        rw [if_pos hgt, if_neg hnlt, if_pos (seg_succ_lt_iff.mpr (.inl hgt))]
      · -- equal top limbs: the comparison goes on below
        have heq : a.limb n = b.limb n :=
          UInt32.le_antisymm (UInt32.not_lt.mp hgt) (UInt32.not_lt.mp hlt)
        rw [if_neg hgt, ih]
        simp only [seg_succ_lt_iff, heq, UInt32.lt_irrefl, false_or, true_and]

/-- `CompareTo` is the order of the values: `-1` below, `1` above, `0` equal. -/
theorem CompareTo_eq (a b : base_uint WIDTH) :
    CompareTo a b = if a.toNat < b.toNat then -1 else if b.toNat < a.toNat then 1 else 0 :=
  compareFrom_eq a b WIDTH

theorem ge_eq (a b : base_uint WIDTH) : ge a b = decide (b.toNat ≤ a.toNat) := by
  rw [ge, CompareTo_eq]
  by_cases hlt : a.toNat < b.toNat
  · simp [hlt]
  · by_cases hgt : b.toNat < a.toNat <;> simp [hlt, hgt] <;> omega

/-- `operator== (uint64_t)`, through `EqualTo`, compares the values. -/
theorem EqualTo_eq (a : base_uint WIDTH) (b : UInt64) (hW : 2 ≤ WIDTH) :
    a.EqualTo b = decide (a.toNat = b.toNat) := by
  have hb64 := b.toNat_lt
  have hb : b.toNat < 2 ^ (32 * WIDTH) :=
    Nat.lt_of_lt_of_le hb64 (Nat.pow_le_pow_right (by decide) (by omega))
  -- the digits of `b`: its two halves, then zeros
  have hd0 : b.toNat / 2 ^ (32 * 0) % 2 ^ 32 = (b &&& 0xffffffff).toNat := by
    rw [UInt64.toNat_and, show (0xffffffff : UInt64).toNat = 2 ^ 32 - 1 from rfl,
      Nat.and_two_pow_sub_one_eq_mod, Nat.mul_zero, Nat.pow_zero, Nat.div_one]
  have hd1 : b.toNat / 2 ^ (32 * 1) % 2 ^ 32 = (b >>> 32).toNat := by
    rw [toNat_high, Nat.mul_one, Nat.mod_eq_of_lt (by omega)]
  have hd2 : ∀ i, 2 ≤ i → b.toNat / 2 ^ (32 * i) % 2 ^ 32 = 0 := fun i hi => by
    rw [Nat.div_eq_of_lt (Nat.lt_of_lt_of_le hb64 (Nat.pow_le_pow_right (by decide) (by omega)))]
    rfl
  apply Bool.eq_iff_iff.mpr
  rw [decide_eq_true_iff, EqualTo]
  simp only [Bool.and_eq_true, List.all_eq_true, List.mem_range, Bool.or_eq_true, decide_eq_true_eq,
    beq_iff_eq, ← UInt64.toNat_inj, UInt32.toNat_toUInt64]
  constructor
  · rintro ⟨⟨hhigh, h1⟩, h0⟩
    rw [← Nat.mod_eq_of_lt hb]
    apply toNat_eq_of_limbs
    intro i hi
    rcases Nat.lt_or_ge i 2 with hi2 | hi2
    · rcases (by omega : i = 0 ∨ i = 1) with rfl | rfl
      · rw [hd0, h0]
      · rw [hd1, h1]
    · have hz : a.limb i = 0 := (hhigh i hi).resolve_left (by omega)
      rw [hd2 i hi2, hz]
      rfl
  · intro h
    have hl : ∀ i, (a.limb i).toNat = b.toNat / 2 ^ (32 * i) % 2 ^ 32 := fun i => by
      rw [toNat_limb, h]
    refine ⟨⟨fun i _ => ?_, by rw [hl, hd1]⟩, by rw [hl, hd0]⟩
    rcases Nat.lt_or_ge i 2 with hi2 | hi2
    · exact .inl hi2
    · exact .inr (UInt32.toNat_inj.mp (by rw [hl, hd2 i hi2]; rfl))

/-! ## `bits ()` -/

/-- `1U << k` is `2 ^ k`. -/
theorem toNat_one_shiftLeft {k : Nat} (hk : k < 32) : (1 <<< k.toUInt32 : UInt32).toNat = 2 ^ k := by
  rw [UInt32.toNat_shiftLeft, toNat_toUInt32_mod, Nat.mod_eq_of_lt hk, UInt32.toNat_one,
    Nat.one_shiftLeft, Nat.mod_eq_of_lt (Nat.pow_lt_pow_right (by decide) hk)]

/-- `pn[pos] & 1U << nbits` tests bit `nbits` of the limb. -/
theorem and_shiftLeft_ne_zero (x : UInt32) {k : Nat} (hk : k < 32) :
    (x &&& 1 <<< k.toUInt32 != 0) = x.toNat.testBit k := by
  have hand : (x &&& 1 <<< k.toUInt32).toNat = (x.toNat.testBit k).toNat * 2 ^ k := by
    rw [UInt32.toNat_and, toNat_one_shiftLeft hk, Nat.and_two_pow]
  cases hb : x.toNat.testBit k
  · rw [hb, Bool.toNat_false, Nat.zero_mul] at hand
    simp [← UInt32.toNat_inj, hand]
  · rw [hb, Bool.toNat_true, Nat.one_mul] at hand
    have hpos : 0 < 2 ^ k := Nat.two_pow_pos k
    simp only [bne_iff_ne, ne_eq, ← UInt32.toNat_inj, hand, UInt32.toNat_zero]
    omega

/-- The inner loop of `bits ()` finds the top set bit of a nonzero limb below `2 ^ (n + 1)`. -/
theorem bitsInLimb_eq {x : UInt32} (pos : Nat) {n : Nat} (hn : n < 32) (hx : x.toNat ≠ 0)
    (hlt : x.toNat < 2 ^ (n + 1)) : bitsInLimb x pos n = 32 * pos + x.toNat.log2 + 1 := by
  induction n with
  | zero =>
    have h1 : x.toNat = 1 := by omega
    rw [bitsInLimb, h1]
    rfl
  | succ n ih =>
    rw [bitsInLimb, and_shiftLeft_ne_zero x hn]
    by_cases hb : x.toNat.testBit (n + 1)
    · -- the top bit of the limb
      have hlog : x.toNat.log2 = n + 1 := (Nat.log2_eq_iff hx).mpr ⟨Nat.ge_two_pow_of_testBit hb, hlt⟩
      rw [if_pos hb, hlog]
    · -- the limb is below `2 ^ (n + 1)`: the search goes on below
      have hlt' : x.toNat < 2 ^ (n + 1) := by
        apply Nat.lt_pow_two_of_testBit
        intro i hi
        by_cases hin : i = n + 1
        · rw [hin]
          simpa using hb
        · exact Nat.testBit_lt_two_pow (Nat.lt_of_lt_of_le hlt (Nat.pow_le_pow_right (by decide) (by omega)))
      rw [if_neg hb, ih (by omega) hlt']

/-- The outer loop of `bits ()` over the low `n` limbs gives their bit length. -/
theorem bitsFrom_eq (a : base_uint WIDTH) (n : Nat) :
    bitsFrom a n = if a.seg 0 n = 0 then 0 else (a.seg 0 n).log2 + 1 := by
  induction n with
  | zero => simp [bitsFrom, seg]
  | succ n ih =>
    have hsucc : a.seg 0 (n + 1) = a.seg 0 n + 2 ^ (32 * n) * (a.limb n).toNat := by
      rw [seg, segment_succ_back, Nat.zero_add]
      rfl
    rw [bitsFrom, hsucc]
    by_cases hz : a.limb n = 0
    · rw [hz]
      simp [ih]
    · -- the top nonzero limb fixes the length
      have hx : (a.limb n).toNat ≠ 0 := fun h => hz (UInt32.toNat_inj.mp h)
      have hpos : 0 < 2 ^ (32 * n) * (a.limb n).toNat := Nat.mul_pos (Nat.two_pow_pos _) (Nat.pos_of_ne_zero hx)
      rw [if_pos (bne_iff_ne.mpr hz), bitsInLimb_eq n (by decide) hx (toNat_limb_lt a n),
        if_neg (by omega), log2_add_mul_two_pow (seg_lt a 0 n) hx, Nat.add_assoc]

/-- `bits ()` is the bit length of the value. -/
theorem bits_eq (a : base_uint WIDTH) : a.bits = if a.toNat = 0 then 0 else a.toNat.log2 + 1 :=
  bitsFrom_eq a WIDTH

end Namecoin.Arith.base_uint
