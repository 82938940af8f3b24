import Mathlib.Data.Nat.Bitwise
import Mathlib.Tactic.IntervalCases
import Mathlib.Tactic.Positivity
import Namecoin.Lib.RoundDown

/-! # Compact targets (arith_uint256.cpp)

An `arith_uint256` is a number below `2 ^ 256`, and `<<=` drops the bits it
shifts past the top. `SetCompact` reads the compact form `nBits` of a target:
a size byte, a sign bit and a 23-bit mantissa `nWord`, the target being
`nWord * 256 ^ (nSize - 3)`. It also says whether that form is negative or too
large for 256 bits. `GetCompact` writes a value in that form, keeping its top
bytes; a mantissa whose top bit would read as the sign moves down a byte.

Reading back what `GetCompact` writes gives `compactRound`, the value cut to
the bytes of its mantissa (`SetCompact_GetCompact`). That is the greatest
number `m * 256 ^ e` with `m < 2 ^ 23` at or below the value
(`compactRound_isRoundDown`), so the round trip is monotone. -/

namespace Namecoin.Consensus.Pow

open Lib.RoundDown

/-- How a computation of `pow.cpp` ends without a result. -/
inductive PowError where
  /-- an `assert` fails: the node aborts -/
  | assertion
  /-- `operator/=` throws `uint_error ("Division by zero")` -/
  | divisionByZero
  /-- a null `CBlockIndex` pointer is read -/
  | nullDereference
  deriving DecidableEq, Repr

/-- `arith_uint256::SetCompact (nCompact, &fNegative, &fOverflow)`: the value,
`fNegative` and `fOverflow`. -/
def SetCompact (nCompact : UInt32) : Nat × Bool × Bool :=
  let nSize := (nCompact >>> 24).toNat
  let nWord := nCompact &&& 0x007fffff
  -- a small size shifts the mantissa down; a large one shifts the number up
  let nWord := if nSize ≤ 3 then nWord >>> (8 * (3 - nSize)).toUInt32 else nWord
  let value := if nSize ≤ 3 then nWord.toNat else nWord.toNat * 2 ^ (8 * (nSize - 3)) % 2 ^ 256
  (value, nWord != 0 && nCompact &&& 0x00800000 != 0,
    nWord != 0 && (nSize > 34 || (nWord > 0xff && nSize > 33) || (nWord > 0xffff && nSize > 32)))

/-- `base_uint::bits ()`: the position of the highest set bit, plus one. -/
def bits (x : Nat) : Nat := if x = 0 then 0 else x.log2 + 1

/-- `arith_uint256::GetCompact ()` with `fNegative` false, as `pow.cpp` calls it. -/
def GetCompact (x : Nat) : Except PowError UInt32 :=
  let nSize := (bits x + 7) / 8
  -- `GetLow64 () << 8 * (3 - nSize)` or `bn.GetLow64 ()`, stored in a `uint32_t`
  let nCompact : UInt32 :=
    if nSize ≤ 3 then (x <<< (8 * (3 - nSize))).toUInt32 else (x >>> (8 * (nSize - 3))).toUInt32
  let sign := nCompact &&& 0x00800000 != 0
  let nCompact := if sign then nCompact >>> 8 else nCompact
  let nSize := if sign then nSize + 1 else nSize
  if nCompact &&& ~~~0x007fffff != 0 || nSize ≥ 256 then .error .assertion
  else .ok (nCompact ||| nSize.toUInt32 <<< 24)

/-! ## Reading back what `GetCompact` writes -/

/-- The mantissa `GetCompact` reads first, in `Nat`: `x` moved to three bytes. -/
def compactWord (x : Nat) : Nat :=
  let nSize := (bits x + 7) / 8
  if nSize ≤ 3 then x * 2 ^ (8 * (3 - nSize)) else x / 2 ^ (8 * (nSize - 3))

/-- The size and the mantissa `GetCompact` settles on, in `Nat`. -/
def compactForm (x : Nat) : Nat × Nat :=
  if 2 ^ 23 ≤ compactWord x then ((bits x + 7) / 8 + 1, compactWord x / 2 ^ 8)
  else ((bits x + 7) / 8, compactWord x)

/-- The number of low bits the compact form of `x` drops. -/
def compactShift (x : Nat) : Nat := 8 * ((compactForm x).1 - 3)

/-- `x` with the bits below its compact mantissa cleared. -/
def compactRound (x : Nat) : Nat := x / 2 ^ compactShift x * 2 ^ compactShift x

/-- The numbers a compact form can stand for: a 23-bit mantissa times a power of `256`. -/
def Representable : Set Nat := {r | ∃ m e, m < 2 ^ 23 ∧ r = m * 2 ^ (8 * e)}

theorem lt_two_pow_bits (x : Nat) : x < 2 ^ bits x := by
  unfold bits
  split
  · rename_i hx
    simp [hx]
  · exact Nat.lt_log2_self

theorem two_pow_bits_le {x : Nat} (hx : x ≠ 0) : 2 ^ (bits x - 1) ≤ x := by
  simp only [bits, if_neg hx, Nat.add_sub_cancel]
  exact Nat.log2_self_le hx

theorem bits_le {x n : Nat} (hx : x < 2 ^ n) : bits x ≤ n := by
  unfold bits
  split
  · exact Nat.zero_le n
  · rename_i h
    exact (Nat.log2_lt h).mpr hx

/-- `x` fits in the bytes `CeilDiv (bits (), 8u)` counts, and needs all of
them. -/
theorem size_bounds (x : Nat) :
    x < 2 ^ (8 * ((bits x + 7) / 8)) ∧
      (3 < (bits x + 7) / 8 → 2 ^ (8 * ((bits x + 7) / 8 - 1)) ≤ x) := by
  refine ⟨(lt_two_pow_bits x).trans_le (Nat.pow_le_pow_right (by decide) (by omega)), ?_⟩
  intro hn
  have hx : x ≠ 0 := by
    rintro rfl
    simp [bits] at hn
  exact (Nat.pow_le_pow_right (by decide) (by omega)).trans (two_pow_bits_le hx)

theorem compactWord_lt (x : Nat) : compactWord x < 2 ^ 24 := by
  obtain ⟨hlt, -⟩ := size_bounds x
  unfold compactWord
  generalize (bits x + 7) / 8 = n at hlt
  dsimp only
  split
  · rename_i hn
    interval_cases n <;> norm_num at hlt ⊢ <;> omega
  · rw [Nat.div_lt_iff_lt_mul (by positivity), ← Nat.pow_add]
    exact hlt.trans_le (Nat.pow_le_pow_right (by decide) (by omega))

/-- A size of at most three bytes keeps `x` whole in the mantissa; a larger
one keeps its top bytes, with the top one nonzero. -/
theorem compactForm_spec (x : Nat) :
    (compactForm x).2 < 2 ^ 23 ∧
      ((compactForm x).1 ≤ 3 ∧ (compactForm x).2 / 2 ^ (8 * (3 - (compactForm x).1)) = x ∨
        3 < (compactForm x).1 ∧ (compactForm x).2 = x / 2 ^ compactShift x ∧
          2 ^ 15 ≤ (compactForm x).2) := by
  obtain ⟨hlt, hge⟩ := size_bounds x
  have hw := compactWord_lt x
  unfold compactShift compactForm
  unfold compactWord at hw ⊢
  generalize (bits x + 7) / 8 = n at hlt hge hw
  by_cases hn : n ≤ 3
  · -- the mantissa is `x` shifted up to three bytes
    simp only [if_pos hn] at hw ⊢
    interval_cases n <;> split <;> norm_num at hlt hw ⊢ <;> omega
  · -- the mantissa is the top three bytes of `x`
    simp only [if_neg hn] at hw ⊢
    have hw' : 2 ^ 16 ≤ x / 2 ^ (8 * (n - 3)) := by
      rw [Nat.le_div_iff_mul_le (by positivity), ← Nat.pow_add]
      exact (Nat.pow_le_pow_right (by decide) (by omega)).trans (hge (by omega))
    split
    · have hdiv : x / 2 ^ (8 * (n - 3)) / 2 ^ 8 = x / 2 ^ (8 * (n + 1 - 3)) := by
        rw [Nat.div_div_eq_div_mul, ← Nat.pow_add]
        congr 2
        omega
      exact ⟨by omega, Or.inr ⟨by omega, hdiv, by omega⟩⟩
    · exact ⟨by omega, Or.inr ⟨by omega, rfl, by omega⟩⟩

/-- The mantissa `compactRound` keeps has at most 23 bits, and at least 16
when low bits are dropped. -/
theorem compactRound_mantissa (x : Nat) :
    x / 2 ^ compactShift x < 2 ^ 23 ∧ (0 < compactShift x → 2 ^ 15 ≤ x / 2 ^ compactShift x) := by
  obtain ⟨hm, ⟨hs, hx⟩ | ⟨-, hx, hm'⟩⟩ := compactForm_spec x
  · have h0 : compactShift x = 0 := by
      unfold compactShift
      omega
    rw [h0, Nat.pow_zero, Nat.div_one]
    refine ⟨?_, fun h => absurd h (Nat.lt_irrefl 0)⟩
    calc x = (compactForm x).2 / 2 ^ (8 * (3 - (compactForm x).1)) := hx.symm
      _ ≤ (compactForm x).2 := Nat.div_le_self _ _
      _ < 2 ^ 23 := hm
  · rw [← hx]
    exact ⟨hm, fun _ => hm'⟩

theorem compactRound_isRoundDown : IsRoundDown Representable compactRound := by
  refine IsRoundDown.of_forall (fun x => ?_) (fun x => Nat.div_mul_le_self _ _)
    (fun x r hr hrx => ?_)
  · exact ⟨_, (compactForm x).1 - 3, (compactRound_mantissa x).1, rfl⟩
  · obtain ⟨m, e, hm, rfl⟩ := hr
    obtain ⟨-, hlow⟩ := compactRound_mantissa x
    unfold compactRound
    by_cases he : compactShift x ≤ 8 * e
    · -- `r` is a multiple of `2 ^ compactShift x`
      have hdvd : 2 ^ compactShift x ∣ m * 2 ^ (8 * e) :=
        Dvd.dvd.mul_left (Nat.pow_dvd_pow 2 he) m
      calc m * 2 ^ (8 * e) = m * 2 ^ (8 * e) / 2 ^ compactShift x * 2 ^ compactShift x :=
            (Nat.div_mul_cancel hdvd).symm
        _ ≤ x / 2 ^ compactShift x * 2 ^ compactShift x :=
            Nat.mul_le_mul_right _ (Nat.div_le_div_right hrx)
    · -- a finer `r` stays below the least value with the rounded value's bit length
      have hk : 8 * e + 8 ≤ compactShift x := by
        unfold compactShift at he ⊢
        omega
      apply Nat.le_of_lt
      calc m * 2 ^ (8 * e) < 2 ^ 23 * 2 ^ (8 * e) :=
            Nat.mul_lt_mul_of_pos_right hm (by positivity)
        _ = 2 ^ 15 * 2 ^ (8 * e + 8) := by
            rw [← Nat.pow_add, ← Nat.pow_add]
            congr 1
            omega
        _ ≤ 2 ^ 15 * 2 ^ compactShift x :=
            Nat.mul_le_mul_left _ (Nat.pow_le_pow_right (by decide) hk)
        _ ≤ x / 2 ^ compactShift x * 2 ^ compactShift x :=
            Nat.mul_le_mul_right _ (hlow (by omega))

theorem compactRound_mono : Monotone compactRound := compactRound_isRoundDown.monotone

/-! ## The `uint32_t` of a compact form -/

theorem toNat_encode {m s : Nat} (hm : m < 2 ^ 23) (hs : s < 256) :
    (m.toUInt32 ||| s.toUInt32 <<< 24).toNat = s * 2 ^ 24 + m := by
  have hm' : m.toUInt32.toNat = m := by
    simp only [Nat.toUInt32_eq, UInt32.toNat_ofNat']
    omega
  have hs' : (s.toUInt32 <<< 24).toNat = s * 2 ^ 24 := by
    simp only [UInt32.toNat_shiftLeft, Nat.toUInt32_eq, UInt32.toNat_ofNat', Nat.shiftLeft_eq,
      UInt32.reduceToNat, Nat.reduceMod]
    omega
  rw [UInt32.toNat_or, hm', hs', Nat.or_comm, ← Nat.shiftLeft_eq,
    Nat.shiftLeft_add_eq_or_of_lt (by omega : m < 2 ^ 24)]

theorem size_encode {m s : Nat} (hm : m < 2 ^ 23) (hs : s < 256) :
    ((m.toUInt32 ||| s.toUInt32 <<< 24) >>> 24).toNat = s := by
  rw [UInt32.toNat_shiftRight, toNat_encode hm hs]
  simp only [UInt32.reduceToNat, Nat.reduceMod, Nat.shiftRight_eq_div_pow]
  omega

theorem word_encode {m s : Nat} (hm : m < 2 ^ 23) (hs : s < 256) :
    ((m.toUInt32 ||| s.toUInt32 <<< 24) &&& 0x007fffff).toNat = m := by
  rw [UInt32.toNat_and, toNat_encode hm hs, show (0x007fffff : UInt32).toNat = 2 ^ 23 - 1 from rfl,
    Nat.and_two_pow_sub_one_eq_mod]
  omega

/-- The sign bit of an encoded form is the top bit of a 24-bit mantissa, clear here. -/
theorem sign_encode {m s : Nat} (hm : m < 2 ^ 23) (hs : s < 256) :
    (m.toUInt32 ||| s.toUInt32 <<< 24) &&& 0x00800000 = 0 := by
  rw [← UInt32.toNat_inj, UInt32.toNat_and, toNat_encode hm hs,
    show (0x00800000 : UInt32).toNat = 2 ^ 23 from rfl, Nat.and_two_pow, UInt32.toNat_zero]
  have hbit : (s * 2 ^ 24 + m).testBit 23 = false := by
    rw [Nat.testBit_eq_decide_div_mod_eq, decide_eq_false_iff_not]
    omega
  rw [hbit, Bool.toNat_false, Nat.zero_mul]

/-- `SetCompact` reads back the size and the mantissa. -/
theorem SetCompact_encode {m s : Nat} (hm : m < 2 ^ 23) (hs : s < 256) :
    (SetCompact (m.toUInt32 ||| s.toUInt32 <<< 24)).1 =
      if s ≤ 3 then m / 2 ^ (8 * (3 - s)) else m * 2 ^ (8 * (s - 3)) % 2 ^ 256 := by
  unfold SetCompact
  simp only [size_encode hm hs]
  split
  · rename_i hs3
    rw [UInt32.toNat_shiftRight, word_encode hm hs, Nat.shiftRight_eq_div_pow]
    congr 2
    simp only [Nat.toUInt32_eq, UInt32.toNat_ofNat']
    omega
  · rw [word_encode hm hs]

/-- A form whose value fits in 256 bits reads as neither negative nor overflowing: the
three size checks of `SetCompact` are exactly that bound for a mantissa of one, two or
three bytes. -/
theorem SetCompact_encode_flags {m s : Nat} (hm : m < 2 ^ 23) (hs : s < 256)
    (hfit : s ≤ 3 ∨ m * 2 ^ (8 * (s - 3)) < 2 ^ 256) :
    (SetCompact (m.toUInt32 ||| s.toUInt32 <<< 24)).2 = (false, false) := by
  unfold SetCompact
  simp only [size_encode hm hs, sign_encode hm hs, bne_self_eq_false, Bool.and_false]
  split
  · rename_i hs3
    simp only [Prod.mk.injEq, true_and]
    rw [Bool.and_eq_false_iff]
    right
    simp only [Bool.or_eq_false_iff, decide_eq_false_iff_not, Bool.and_eq_false_iff]
    omega
  · rename_i hs3
    have hfit' : m * 2 ^ (8 * (s - 3)) < 2 ^ 256 := hfit.resolve_left hs3
    have hword : ((m.toUInt32 ||| s.toUInt32 <<< 24) &&& 0x007fffff != 0) = decide (m ≠ 0) := by
      rw [Bool.eq_iff_iff, bne_iff_ne, ne_eq, ← UInt32.toNat_inj, word_encode hm hs,
        UInt32.toNat_zero, decide_eq_true_iff]
    simp only [Prod.mk.injEq, true_and, Bool.and_eq_false_iff, Bool.or_eq_false_iff,
      decide_eq_false_iff_not, hword, UInt32.lt_iff_toNat_lt, word_encode hm hs,
      UInt32.reduceToNat]
    by_cases hm0 : m = 0
    · exact .inl (not_not.mpr hm0)
    -- a nonzero mantissa times `2 ^ (8 * (s - 3))` below `2 ^ 256` bounds the size, and
    -- at the two largest sizes the mantissa
    have hs34 : s ≤ 34 := by
      by_contra h
      have hpow : 2 ^ 256 ≤ m * 2 ^ (8 * (s - 3)) :=
        calc 2 ^ 256 ≤ 2 ^ (8 * (s - 3)) := Nat.pow_le_pow_right (by decide) (by omega)
          _ ≤ m * 2 ^ (8 * (s - 3)) := Nat.le_mul_of_pos_left _ (by omega)
      omega
    have h34 : s = 34 → m < 2 ^ 8 := by
      rintro rfl
      omega
    have h33 : s = 33 → m < 2 ^ 16 := by
      rintro rfl
      omega
    omega

theorem sign_iff {w : Nat} (hw : w < 2 ^ 24) :
    (w.toUInt32 &&& 0x00800000 != 0) = decide (2 ^ 23 ≤ w) := by
  have hand : (w.toUInt32 &&& 0x00800000).toNat = (w.testBit 23).toNat * 2 ^ 23 := by
    rw [UInt32.toNat_and, show (0x00800000 : UInt32).toNat = 2 ^ 23 from rfl, ← Nat.and_two_pow]
    simp only [Nat.toUInt32_eq, UInt32.toNat_ofNat']
    rw [Nat.mod_eq_of_lt (by omega)]
  have hbit : w.testBit 23 = decide (2 ^ 23 ≤ w) := by
    rw [Nat.testBit_eq_decide_div_mod_eq]
    congr 1
    apply propext
    omega
  rw [Bool.eq_iff_iff, bne_iff_ne, ne_eq, ← UInt32.toNat_inj, hand, hbit]
  cases decide (2 ^ 23 ≤ w) <;> simp

theorem and_not_mask {m : Nat} (hm : m < 2 ^ 23) : m.toUInt32 &&& ~~~0x007fffff = 0 := by
  rw [← UInt32.toNat_inj, UInt32.toNat_and, show (~~~0x007fffff : UInt32).toNat = 0xff800000 from rfl]
  simp only [Nat.toUInt32_eq, UInt32.toNat_ofNat', UInt32.toNat_zero]
  rw [Nat.mod_eq_of_lt (by omega), ← Nat.and_two_pow_sub_one_of_lt_two_pow hm, Nat.and_assoc,
    show (2 ^ 23 - 1 &&& 0xff800000 : Nat) = 0 by decide, Nat.and_zero]

/-- For a value below `2 ^ 256` the two assertions of `GetCompact` hold, and
it writes the size and the mantissa of `compactForm`. -/
theorem GetCompact_eq {x : Nat} (hx : x < 2 ^ 256) :
    GetCompact x = .ok ((compactForm x).2.toUInt32 ||| (compactForm x).1.toUInt32 <<< 24) := by
  have hw := compactWord_lt x
  have hsize : (bits x + 7) / 8 ≤ 32 := by
    have := bits_le hx
    omega
  have hword : (if (bits x + 7) / 8 ≤ 3 then (x <<< (8 * (3 - (bits x + 7) / 8))).toUInt32
      else (x >>> (8 * ((bits x + 7) / 8 - 3))).toUInt32) = (compactWord x).toUInt32 := by
    by_cases h : (bits x + 7) / 8 ≤ 3 <;>
      simp only [compactWord, h, if_true, if_false, Nat.shiftLeft_eq, Nat.shiftRight_eq_div_pow]
  have hm := (compactForm_spec x).1
  unfold GetCompact
  simp only [hword, sign_iff hw]
  by_cases hsign : 2 ^ 23 ≤ compactWord x
  · have hshift : (compactWord x).toUInt32 >>> 8 = (compactWord x / 2 ^ 8).toUInt32 := by
      rw [← UInt32.toNat_inj, UInt32.toNat_shiftRight]
      simp only [Nat.toUInt32_eq, UInt32.toNat_ofNat', Nat.shiftRight_eq_div_pow,
        UInt32.reduceToNat, Nat.reduceMod]
      omega
    simp only [compactForm, if_pos hsign] at hm ⊢
    simp only [hsign, decide_true, if_true, hshift, and_not_mask hm, bne_self_eq_false,
      Bool.false_or]
    rw [if_neg (by simp only [decide_eq_true_eq]; omega)]
  · simp only [compactForm, if_neg hsign] at hm ⊢
    simp only [hsign, decide_false, Bool.false_eq_true, if_false, and_not_mask hm,
      bne_self_eq_false, Bool.false_or]
    rw [if_neg (by simp only [decide_eq_true_eq]; omega)]

/-- The size `GetCompact` settles on fits its byte. -/
theorem compactForm_size_lt {x : Nat} (hx : x < 2 ^ 256) : (compactForm x).1 < 256 := by
  have hle : (compactForm x).1 ≤ (bits x + 7) / 8 + 1 := by
    unfold compactForm
    split <;> simp
  have := bits_le hx
  omega

/-- Reading back what `GetCompact` writes gives `compactRound`. -/
theorem SetCompact_compactForm {x : Nat} (hx : x < 2 ^ 256) :
    (SetCompact ((compactForm x).2.toUInt32 ||| (compactForm x).1.toUInt32 <<< 24)).1 =
      compactRound x := by
  obtain ⟨hm, hcases⟩ := compactForm_spec x
  rw [SetCompact_encode hm (compactForm_size_lt hx)]
  unfold compactRound
  rcases hcases with ⟨hs3, hx'⟩ | ⟨hs3, hmx, -⟩
  · have h0 : compactShift x = 0 := by
      unfold compactShift
      omega
    rw [if_pos hs3, hx', h0, Nat.pow_zero, Nat.div_one, Nat.mul_one]
  · rw [if_neg (by omega), hmx, show 8 * ((compactForm x).1 - 3) = compactShift x from rfl,
      Nat.mod_eq_of_lt ((Nat.div_mul_le_self _ _).trans_lt hx)]

theorem SetCompact_GetCompact {x : Nat} (hx : x < 2 ^ 256) :
    ∃ c, GetCompact x = .ok c ∧ (SetCompact c).1 = compactRound x :=
  ⟨_, GetCompact_eq hx, SetCompact_compactForm hx⟩

/-- What `GetCompact` writes for a value below `2 ^ 256` reads back as neither
negative nor overflowing. -/
theorem SetCompact_GetCompact_flags {x : Nat} (hx : x < 2 ^ 256) :
    (SetCompact ((compactForm x).2.toUInt32 ||| (compactForm x).1.toUInt32 <<< 24)).2 =
      (false, false) := by
  obtain ⟨hm, hcases⟩ := compactForm_spec x
  have hs := compactForm_size_lt hx
  refine SetCompact_encode_flags hm hs ?_
  rcases hcases with ⟨hs3, -⟩ | ⟨-, hmx, -⟩
  · exact .inl hs3
  · -- the mantissa is `x` cut at the bits `compactRound` drops
    right
    rw [hmx]
    exact (Nat.div_mul_le_self _ _).trans_lt hx

/-! ## Canonical forms -/

theorem bits_eq_of_bounds {x n : Nat} (hlo : 2 ^ n ≤ x) (hhi : x < 2 ^ (n + 1)) :
    bits x = n + 1 := by
  have hle := bits_le hhi
  have hgt : n < bits x :=
    (Nat.pow_lt_pow_iff_right (by decide)).mp (hlo.trans_lt (lt_two_pow_bits x))
  omega

theorem bits_mul_two_pow {q : Nat} (hq : q ≠ 0) (j : Nat) : bits (q * 2 ^ j) = bits q + j := by
  have hpos : 0 < bits q := by
    simp only [bits, if_neg hq]
    omega
  have hlo : 2 ^ (bits q - 1 + j) ≤ q * 2 ^ j := by
    rw [Nat.pow_add]
    exact Nat.mul_le_mul_right _ (two_pow_bits_le hq)
  have hhi : q * 2 ^ j < 2 ^ (bits q - 1 + j + 1) := by
    rw [show bits q - 1 + j + 1 = bits q + j by omega, Nat.pow_add]
    exact Nat.mul_lt_mul_of_pos_right (lt_two_pow_bits q) (by positivity)
  rw [bits_eq_of_bounds hlo hhi]
  omega

theorem mul_two_pow_div {q a b : Nat} (h : b ≤ a) : q * 2 ^ a / 2 ^ b = q * 2 ^ (a - b) := by
  rw [show a = a - b + b by omega, Nat.pow_add, ← Nat.mul_assoc, Nat.mul_div_cancel _ (by positivity),
    Nat.add_sub_cancel]

/-- `compactWord` in one formula: the value moved up to, or down to, three bytes. -/
theorem compactWord_eq (x : Nat) :
    compactWord x = x * 2 ^ (8 * (3 - (bits x + 7) / 8)) / 2 ^ (8 * ((bits x + 7) / 8 - 3)) := by
  unfold compactWord
  dsimp only
  split
  · rename_i h
    rw [show (bits x + 7) / 8 - 3 = 0 by omega, Nat.mul_zero, Nat.pow_zero, Nat.div_one]
  · rename_i h
    rw [show 3 - (bits x + 7) / 8 = 0 by omega, Nat.mul_zero, Nat.pow_zero, Nat.mul_one]

/-- A mantissa of 16 to 23 bits times `256 ^ k` is written as that mantissa with size
`k + 3`: with 16 bits its top byte would be empty, so the mantissa is read a byte higher
and then moved down again for the sign. -/
theorem compactForm_normal {q : Nat} (k : Nat) (hq : 2 ^ 15 ≤ q) (hq' : q < 2 ^ 23) :
    compactForm (q * 2 ^ (8 * k)) = (k + 3, q) := by
  have hbits := bits_mul_two_pow (show q ≠ 0 by omega) (8 * k)
  have hb23 := bits_le hq'
  have hb16 : 15 < bits q :=
    (Nat.pow_lt_pow_iff_right (by decide)).mp (hq.trans_lt (lt_two_pow_bits q))
  unfold compactForm
  rw [compactWord_eq, hbits]
  by_cases h16 : q < 2 ^ 16
  · have hb : bits q = 16 := by
      have := bits_le h16
      omega
    have hn : (bits q + 8 * k + 7) / 8 = k + 2 := by omega
    rw [hn, Nat.mul_assoc, ← Nat.pow_add, mul_two_pow_div (by omega),
      show 8 * k + 8 * (3 - (k + 2)) - 8 * (k + 2 - 3) = 8 by omega,
      if_pos (by omega), Nat.mul_div_cancel _ (by positivity)]
  · have hb : 16 < bits q := by
      by_contra h
      have := (lt_two_pow_bits q).trans_le (Nat.pow_le_pow_right (by decide) (show bits q ≤ 16 by omega))
      omega
    have hn : (bits q + 8 * k + 7) / 8 = k + 3 := by omega
    rw [hn, Nat.mul_assoc, ← Nat.pow_add, mul_two_pow_div (by omega),
      show 8 * k + 8 * (3 - (k + 3)) - 8 * (k + 3 - 3) = 0 by omega, Nat.pow_zero, Nat.mul_one,
      if_neg (by omega)]

/-- Rounding keeps the compact form: `compactRound x` is its own mantissa times the
power of `256` the form drops. -/
theorem compactForm_compactRound (x : Nat) : compactForm (compactRound x) = compactForm x := by
  obtain ⟨hm, hcases⟩ := compactForm_spec x
  rcases hcases with ⟨hs3, -⟩ | ⟨hs3, hmx, hm15⟩
  · have h0 : compactShift x = 0 := by
      unfold compactShift
      omega
    rw [compactRound, h0, Nat.pow_zero, Nat.div_one, Nat.mul_one]
  · rw [compactRound, ← hmx, compactShift, compactForm_normal _ hm15 hm]
    exact Prod.ext (by simp only; omega) rfl

theorem GetCompact_compactRound {x : Nat} (hx : x < 2 ^ 256) :
    GetCompact (compactRound x) = GetCompact x := by
  rw [GetCompact_eq ((compactRound_isRoundDown.le x).trans_lt hx), GetCompact_eq hx,
    compactForm_compactRound]

/-! ## Reading any compact form -/

theorem SetCompact_lt (nCompact : UInt32) : (SetCompact nCompact).1 < 2 ^ 256 := by
  unfold SetCompact
  dsimp only
  split
  · exact (UInt32.toNat_lt _).trans (by decide)
  · exact Nat.mod_lt _ (by positivity)

/-- A mantissa times a power of `256`, cut to 256 bits, keeps the low bytes of the
mantissa: it is still representable. -/
theorem mem_representable_mod {w : Nat} (hw : w < 2 ^ 23) (e : Nat) :
    w * 2 ^ (8 * e) % 2 ^ 256 ∈ Representable := by
  by_cases he : 32 ≤ e
  · -- every bit of the mantissa is shifted out
    have hdvd : 2 ^ 256 ∣ w * 2 ^ (8 * e) :=
      Dvd.dvd.mul_left (Nat.pow_dvd_pow 2 (by omega)) w
    rw [Nat.mod_eq_zero_of_dvd hdvd]
    exact ⟨0, 0, by decide, rfl⟩
  · rw [show 2 ^ 256 = 2 ^ (256 - 8 * e) * 2 ^ (8 * e) by rw [← Nat.pow_add]; congr 1; omega,
      Nat.mul_mod_mul_right]
    exact ⟨_, e, (Nat.mod_le _ _).trans_lt hw, rfl⟩

/-- Whatever the form, `SetCompact` reads a representable value. -/
theorem SetCompact_mem (nCompact : UInt32) : (SetCompact nCompact).1 ∈ Representable := by
  have hw : (nCompact &&& 0x007fffff).toNat < 2 ^ 23 := by
    rw [UInt32.toNat_and]
    exact (Nat.and_le_right).trans_lt (by decide)
  unfold SetCompact
  dsimp only
  split
  · refine ⟨_, 0, ?_, by rw [Nat.mul_zero, Nat.pow_zero, Nat.mul_one]⟩
    rw [UInt32.toNat_shiftRight, Nat.shiftRight_eq_div_pow]
    exact (Nat.div_le_self _ _).trans_lt hw
  · exact mem_representable_mod hw _

/-- `compactRound` clears the bits below the mantissa and keeps the others. -/
theorem testBit_compactRound (x i : Nat) :
    (compactRound x).testBit i = (decide (compactShift x ≤ i) && x.testBit i) := by
  rw [compactRound, Nat.testBit_mul_two_pow, Nat.testBit_div_two_pow]
  by_cases h : compactShift x ≤ i
  · rw [Nat.sub_add_cancel h]
  · simp only [h, decide_false, Bool.false_and]

/-- The compact round trip: what `GetCompact` writes for a value below `2 ^ 256` reads
back as the value with the bits below its mantissa cleared, neither negative nor
overflowing, and is written again unchanged; that rounding is the greatest
representable value at or below, so it is monotone. Any form at all reads as a value
whose written form reads back the same, and is the only form `GetCompact` writes for
that value. -/
theorem compact_round_trip :
    (∀ x, x < 2 ^ 256 → ∃ c, GetCompact x = .ok c ∧
      SetCompact c = (compactRound x, false, false) ∧ GetCompact (SetCompact c).1 = .ok c) ∧
    (∀ x i, (compactRound x).testBit i = (decide (compactShift x ≤ i) && x.testBit i)) ∧
    (∀ x, x / 2 ^ compactShift x < 2 ^ 23 ∧
      (0 < compactShift x → 2 ^ 15 ≤ x / 2 ^ compactShift x)) ∧
    IsRoundDown Representable compactRound ∧ Monotone compactRound ∧
    (∀ nCompact : UInt32, ∃ c, GetCompact (SetCompact nCompact).1 = .ok c ∧
      SetCompact c = ((SetCompact nCompact).1, false, false) ∧
      ∀ x, x < 2 ^ 256 → ∀ c', GetCompact x = .ok c' →
        (SetCompact c').1 = (SetCompact nCompact).1 → c' = c) := by
  refine ⟨fun x hx => ?_, testBit_compactRound, compactRound_mantissa, compactRound_isRoundDown,
    compactRound_mono, fun nCompact => ?_⟩
  · refine ⟨_, GetCompact_eq hx, Prod.ext (SetCompact_compactForm hx) (SetCompact_GetCompact_flags hx),
      ?_⟩
    rw [SetCompact_compactForm hx, GetCompact_compactRound hx, GetCompact_eq hx]
  · -- the value read is representable, so rounding it changes nothing
    have hy := SetCompact_lt nCompact
    have hround := compactRound_isRoundDown.apply_of_mem (SetCompact_mem nCompact)
    refine ⟨_, GetCompact_eq hy, Prod.ext ?_ (SetCompact_GetCompact_flags hy), ?_⟩
    · rw [SetCompact_compactForm hy, hround]
    · intro x hx c' hc' hval
      rw [GetCompact_eq hx, Except.ok.injEq] at hc'
      subst hc'
      rw [SetCompact_compactForm hx] at hval
      have hsame : GetCompact (SetCompact nCompact).1 = GetCompact x := by
        rw [← hval, GetCompact_compactRound hx]
      rw [GetCompact_eq hy, GetCompact_eq hx, Except.ok.injEq] at hsame
      exact hsame.symm

theorem compact_round_trip_top :
    ∃ c, GetCompact (2 ^ 255 + 1) = .ok c ∧
      SetCompact c = (compactRound (2 ^ 255 + 1), false, false) ∧
      GetCompact (SetCompact c).1 = .ok c :=
  And.left compact_round_trip (2 ^ 255 + 1) (by norm_num)

end Namecoin.Consensus.Pow
