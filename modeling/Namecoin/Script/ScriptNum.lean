import Namecoin.Lib.LittleEndian
import Mathlib.Data.Nat.Bitwise

/-! # Script numbers (script/script.h)

A `CScriptNum` holds an `int64_t`. On the stack it is a byte string in sign and
magnitude: the magnitude little-endian, the top bit of the last byte the sign
(`smDecode`). `serialize` writes the magnitude in as few bytes as it needs and puts
the sign in the last byte, or in a byte of its own when the magnitude's top bit is
set. Reading with `fRequireMinimal` refuses every other string: those whose last
byte holds nothing but the sign, unless the byte before it has its top bit set.

`set_vch` reads any string of at most eight bytes as its sign and magnitude
(`toInt_set_vch`); `serialize` writes every `int64_t` so that it reads back
(`smDecode_serialize`), in at most `k` bytes below `2 ^ (8 * k - 1)`
(`length_serialize_le`). A string passes the minimality check exactly when it is
what `serialize` writes for its value (`isNonMinimal_iff`). -/

namespace Namecoin.Script

open Lib.LittleEndian

/-- A `CScriptNum`. -/
structure CScriptNum where
  m_value : Int64
  deriving DecidableEq, Repr

namespace CScriptNum

/-- `CScriptNum::nDefaultMaxNumSize`. -/
def nDefaultMaxNumSize : Nat := 4

/-- The loop of `set_vch`, `result |= int64_t (vch[i]) << 8*i` from byte `i` on. The
shifts and the `or` of `int64_t` are those of `uint64_t` on the bits. -/
def orBytes (result : UInt64) (i : Nat) : List UInt8 → UInt64
  | [] => result
  | b :: bs => orBytes (result ||| b.toUInt64 <<< (8 * i).toUInt64) (i + 1) bs

/-- `CScriptNum::set_vch`. -/
def set_vch (vch : List UInt8) : Int64 :=
  if vch = [] then 0
  else
    let result := orBytes 0 0 vch
    -- a sign bit in the last byte comes off the magnitude and negates it
    if vch.getLastD 0 &&& 0x80 != 0 then
      -(result &&& ~~~((0x80 : UInt64) <<< (8 * (vch.length - 1)).toUInt64)).toInt64
    else result.toInt64

/-- The test of the constructor with `fRequireMinimal`: a last byte with nothing but
the sign, where the byte before it (if any) does not have its top bit set. -/
def isNonMinimal (vch : List UInt8) : Bool :=
  vch.length > 0 && (vch.getLastD 0 &&& 0x7f == 0) &&
    (vch.length ≤ 1 || (vch.getD (vch.length - 2) 0 &&& 0x80 == 0))

/-- `CScriptNum (vch, fRequireMinimal, nMaxNumSize)`, which throws `scriptnum_error`. -/
def ofVch (vch : List UInt8) (fRequireMinimal : Bool) (nMaxNumSize : Nat) :
    Except String CScriptNum :=
  if vch.length > nMaxNumSize then .error "script number overflow"
  else if fRequireMinimal && isNonMinimal vch then .error "non-minimally encoded script number"
  else .ok ⟨set_vch vch⟩

/-- `CScriptNum::GetInt64`. -/
def GetInt64 (n : CScriptNum) : Int64 := n.m_value

/-- `operator+` and `operator-` of two script numbers. -/
instance : Add CScriptNum := ⟨fun a b => ⟨a.m_value + b.m_value⟩⟩

instance : Sub CScriptNum := ⟨fun a b => ⟨a.m_value - b.m_value⟩⟩

/-- The loop `while (absvalue)` of `serialize`: the bytes of `absvalue`, lowest first. -/
def pushBytes (absvalue : UInt64) : List UInt8 :=
  if _ : absvalue = 0 then []
  else (absvalue &&& 0xff).toUInt8 :: pushBytes (absvalue >>> 8)
termination_by absvalue.toNat
decreasing_by
  have hpos : absvalue.toNat ≠ 0 := fun h => ‹¬absvalue = 0› (UInt64.toNat_inj.mp h)
  rw [UInt64.toNat_shiftRight]
  simp only [UInt64.reduceToNat, Nat.reduceMod, Nat.shiftRight_eq_div_pow]
  omega

/-- `CScriptNum::serialize`. -/
def serialize (value : Int64) : List UInt8 :=
  if value = 0 then []
  else
    let neg := value < 0
    let absvalue : UInt64 := if neg then ~~~value.toUInt64 + 1 else value.toUInt64
    let result := pushBytes absvalue
    -- a top bit in the magnitude takes a byte of its own for the sign
    if result.getLastD 0 &&& 0x80 != 0 then result ++ [if neg then 0x80 else 0]
    else if neg then result.dropLast ++ [result.getLastD 0 ||| 0x80]
    else result

/-- `CScriptNum::getvch`. -/
def getvch (n : CScriptNum) : List UInt8 := serialize n.m_value

/-- A byte string read in sign and magnitude: the magnitude little-endian with the top
bit of the last byte cleared, negated when that bit is set. -/
def smDecode (v : List UInt8) : Int :=
  match v.getLast? with
  | none => 0
  | some last =>
    let mag : Int := decodeLE v.dropLast + 256 ^ (v.length - 1) * (last &&& 0x7f).toNat
    if last &&& 0x80 = 0 then mag else -mag

/-! ## The magnitude bytes -/

theorem toNat_low_byte (a : UInt64) : (a &&& 0xff).toUInt8.toNat = a.toNat % 256 := by
  rw [UInt64.toNat_toUInt8, UInt64.toNat_and, show (0xff : UInt64).toNat = 2 ^ 8 - 1 from rfl,
    Nat.and_two_pow_sub_one_eq_mod]
  omega

theorem toNat_shiftRight_eight (a : UInt64) : (a >>> 8).toNat = a.toNat / 256 := by
  rw [UInt64.toNat_shiftRight]
  simp only [UInt64.reduceToNat, Nat.reduceMod, Nat.shiftRight_eq_div_pow]

/-- `pushBytes` writes the magnitude, with a nonzero byte last. -/
theorem pushBytes_spec (a : UInt64) :
    decodeLE (pushBytes a) = a.toNat ∧ (pushBytes a).getLast? ≠ some 0 := by
  fun_induction pushBytes a with
  | case1 => exact ⟨rfl, by simp⟩
  | case2 a h ih =>
    obtain ⟨hdec, hlast⟩ := ih
    have ha : a.toNat ≠ 0 := fun h' => h (UInt64.toNat_inj.mp h')
    refine ⟨by rw [decodeLE, hdec, toNat_low_byte, toNat_shiftRight_eight]; omega, ?_⟩
    rw [List.getLast?_cons]
    cases hrest : (pushBytes (a >>> 8)).getLast? with
    | none =>
      -- nothing above the low byte: the low byte is `a` itself
      rw [List.getLast?_eq_none_iff.mp hrest, decodeLE, toNat_shiftRight_eight] at hdec
      simp only [Option.getD_none, ne_eq, Option.some.injEq]
      intro h0
      have := congrArg UInt8.toNat h0
      rw [toNat_low_byte, UInt8.toNat_zero] at this
      omega
    | some c =>
      rw [hrest] at hlast
      simpa using hlast

theorem toNat_toUInt64_of_lt {n : Nat} (h : n < 2 ^ 64) : n.toUInt64.toNat = n := by
  rw [Nat.toUInt64_eq, UInt64.toNat_ofNat']
  omega

/-! ## Reading a string -/

theorem toNat_or_shiftLeft {r : UInt64} {b : UInt8} {i : Nat} (hi : i < 8) (hr : r.toNat < 256 ^ i) :
    (r ||| b.toUInt64 <<< (8 * i).toUInt64).toNat = r.toNat + 256 ^ i * b.toNat := by
  have hb := b.toNat_lt
  have hpow : 256 ^ i = 2 ^ (8 * i) := by rw [Nat.pow_mul]
  have hshift : (8 * i).toUInt64.toNat % 64 = 8 * i := by
    rw [toNat_toUInt64_of_lt (by omega)]
    omega
  have hfit : b.toNat * 2 ^ (8 * i) < 2 ^ 64 :=
    calc b.toNat * 2 ^ (8 * i) < 2 ^ 8 * 2 ^ (8 * i) := Nat.mul_lt_mul_of_pos_right hb (Nat.two_pow_pos _)
      _ = 2 ^ (8 * i + 8) := by rw [← Nat.pow_add, Nat.add_comm]
      _ ≤ 2 ^ 64 := Nat.pow_le_pow_right (by decide) (by omega)
  rw [UInt64.toNat_or, UInt64.toNat_shiftLeft, UInt8.toNat_toUInt64, hshift, Nat.shiftLeft_eq,
    Nat.mod_eq_of_lt hfit, Nat.or_comm, ← Nat.shiftLeft_eq,
    ← Nat.shiftLeft_add_eq_or_of_lt (hpow ▸ hr), Nat.shiftLeft_eq, hpow, Nat.add_comm,
    Nat.mul_comm]

/-- The loop of `set_vch` reads the bytes little-endian above what it has read. -/
theorem toNat_orBytes (bs : List UInt8) (r : UInt64) (i : Nat) (hr : r.toNat < 256 ^ i)
    (hlen : i + bs.length ≤ 8) : (orBytes r i bs).toNat = r.toNat + 256 ^ i * decodeLE bs := by
  induction bs generalizing r i with
  | nil => rw [orBytes, decodeLE, Nat.mul_zero, Nat.add_zero]
  | cons b bs ih =>
    rw [List.length_cons] at hlen
    have hb := b.toNat_lt
    have hstep := toNat_or_shiftLeft (b := b) (by omega) hr
    -- the byte just read keeps the value below the next power of `256`
    have hnext : r.toNat + 256 ^ i * b.toNat < 256 ^ (i + 1) :=
      calc r.toNat + 256 ^ i * b.toNat < 256 ^ i * (b.toNat + 1) := by
            rw [Nat.mul_add, Nat.mul_one]
            omega
        _ ≤ 256 ^ i * 256 := Nat.mul_le_mul_left _ (by omega)
        _ = 256 ^ (i + 1) := (Nat.pow_succ ..).symm
    rw [orBytes, ih _ (i + 1) (hstep ▸ hnext) (by omega), hstep, decodeLE, Nat.pow_succ,
      Nat.mul_add, Nat.mul_assoc, Nat.add_assoc]

theorem toInt_toInt64_of_lt {a : UInt64} (h : a.toNat < 2 ^ 63) : a.toInt64.toInt = a.toNat := by
  rw [← Int64.toInt_toBitVec, UInt64.toBitVec_toInt64, BitVec.toInt_eq_toNat_cond,
    UInt64.toNat_toBitVec, if_pos (by omega)]

theorem toInt_neg_toInt64_of_lt {a : UInt64} (h : a.toNat < 2 ^ 63) :
    (-a.toInt64).toInt = -(a.toNat : Int) := by
  rw [Int64.toInt_neg, toInt_toInt64_of_lt h]
  exact Int.bmod_eq_of_le (by omega) (by omega)

/-- Clearing the sign bit `8 * k + 7` of a value below `2 ^ (k + 8)` leaves its low
bits. -/
theorem toNat_and_not_sign {x : UInt64} {k : Nat} (hk : k ≤ 56) (hx : x.toNat < 2 ^ (k + 8)) :
    (x &&& ~~~((0x80 : UInt64) <<< k.toUInt64)).toNat = x.toNat % 2 ^ (k + 7) := by
  have hlt : 2 ^ (k + 7) < 2 ^ 64 := Nat.pow_lt_pow_right (by decide) (by omega)
  have hmask : ((0x80 : UInt64) <<< k.toUInt64).toNat = 2 ^ (k + 7) := by
    rw [UInt64.toNat_shiftLeft, toNat_toUInt64_of_lt (by omega : k < 2 ^ 64),
      Nat.mod_eq_of_lt (show k < 64 by omega), Nat.shiftLeft_eq,
      show (0x80 : UInt64).toNat = 2 ^ 7 from rfl, ← Nat.pow_add, Nat.add_comm 7 k]
    exact Nat.mod_eq_of_lt hlt
  rw [UInt64.toNat_and, UInt64.toNat_not, hmask, show UInt64.size - 1 - 2 ^ (k + 7) =
    2 ^ 64 - (2 ^ (k + 7) + 1) by simp only [UInt64.size]; omega]
  apply Nat.eq_of_testBit_eq
  intro i
  rw [Nat.testBit_and, Nat.testBit_two_pow_sub_succ hlt, Nat.testBit_mod_two_pow,
    Nat.testBit_two_pow]
  by_cases hi : i < k + 7
  · simp only [hi, decide_true, Bool.true_and, show i < 64 by omega, show k + 7 ≠ i by omega,
      decide_false, Bool.not_false, Bool.and_true]
  · by_cases hi' : i = k + 7
    · subst hi'
      simp
    · rw [Nat.testBit_eq_false_of_lt (hx.trans_le (Nat.pow_le_pow_right (by decide) (by omega)))]
      simp [hi]

theorem smDecode_nil : smDecode [] = 0 := rfl

theorem smDecode_concat (xs : List UInt8) (c : UInt8) :
    smDecode (xs ++ [c]) =
      if c &&& 0x80 = 0 then ((decodeLE xs + 256 ^ xs.length * (c.toNat % 128) : Nat) : Int)
      else -((decodeLE xs + 256 ^ xs.length * (c.toNat % 128) : Nat) : Int) := by
  simp only [smDecode, List.getLast?_concat, List.dropLast_concat, List.length_append,
    List.length_singleton, Nat.add_sub_cancel, and_0x7F]
  push_cast
  rfl

/-- `set_vch` reads a string of at most eight bytes in sign and magnitude. -/
theorem toInt_set_vch {vch : List UInt8} (hlen : vch.length ≤ 8) :
    (set_vch vch).toInt = smDecode vch := by
  rcases List.eq_nil_or_concat vch with rfl | ⟨xs, c, rfl⟩
  · rfl
  rw [List.concat_eq_append] at hlen ⊢
  rw [List.length_append, List.length_singleton] at hlen
  have hc := c.toNat_lt
  have hxs := decodeLE_lt xs
  have hpow : 256 ^ xs.length = 2 ^ (8 * xs.length) := by rw [Nat.pow_mul]
  -- the loop reads the whole string little-endian
  have hres : (orBytes 0 0 (xs ++ [c])).toNat = decodeLE xs + 256 ^ xs.length * c.toNat := by
    rw [toNat_orBytes _ 0 0 (by decide) (by simp; omega), decodeLE_concat]
    simp
  have hbelow : decodeLE xs + 256 ^ xs.length * c.toNat < 2 ^ (8 * xs.length + 8) :=
    calc decodeLE xs + 256 ^ xs.length * c.toNat < 256 ^ xs.length * (c.toNat + 1) := by
          rw [Nat.mul_add, Nat.mul_one]
          omega
      _ ≤ 256 ^ xs.length * 256 := Nat.mul_le_mul_left _ (by omega)
      _ = 2 ^ (8 * xs.length + 8) := by rw [hpow, Nat.pow_add]
  rw [smDecode_concat, set_vch, if_neg (List.append_ne_nil_of_right_ne_nil _ (List.cons_ne_nil _ _))]
  simp only [List.getLastD_concat, List.length_append, List.length_singleton, Nat.add_sub_cancel]
  by_cases hsign : c &&& 0x80 = 0
  · -- no sign: the string is the magnitude, below `2 ^ 63`
    have hc128 : c.toNat < 128 := by
      by_contra h
      exact (and_0x80_ne_zero c).mpr (by omega) hsign
    have hsmall : decodeLE xs + 256 ^ xs.length * c.toNat < 2 ^ 63 :=
      calc decodeLE xs + 256 ^ xs.length * c.toNat < 256 ^ xs.length * (c.toNat + 1) := by
            rw [Nat.mul_add, Nat.mul_one]
            omega
        _ ≤ 256 ^ xs.length * 128 := Nat.mul_le_mul_left _ (by omega)
        _ = 2 ^ (8 * xs.length + 7) := by rw [hpow, Nat.pow_add]
        _ ≤ 2 ^ 63 := Nat.pow_le_pow_right (by decide) (by omega)
    rw [hsign, if_pos rfl, bne_self_eq_false, if_neg Bool.false_ne_true,
      toInt_toInt64_of_lt (hres ▸ hsmall), hres, Nat.mod_eq_of_lt hc128]
  · -- a sign: it comes off the last byte and negates the rest
    have hc128 : 128 ≤ c.toNat := (and_0x80_ne_zero c).mp hsign
    have hmasked := toNat_and_not_sign (k := 8 * xs.length) (x := orBytes 0 0 (xs ++ [c]))
      (by omega) (hres ▸ hbelow)
    -- the bits below the sign are the magnitude
    have hmod : (decodeLE xs + 256 ^ xs.length * c.toNat) % 2 ^ (8 * xs.length + 7) =
        decodeLE xs + 256 ^ xs.length * (c.toNat % 128) := by
      rw [hpow, show 2 ^ (8 * xs.length + 7) = 2 ^ (8 * xs.length) * 128 by rw [Nat.pow_add],
        Nat.mod_mul, Nat.add_mul_mod_self_left, Nat.add_mul_div_left _ _ (Nat.two_pow_pos _),
        Nat.mod_eq_of_lt (hpow ▸ hxs), Nat.div_eq_of_lt (hpow ▸ hxs), Nat.zero_add]
    have hsmall : decodeLE xs + 256 ^ xs.length * (c.toNat % 128) < 2 ^ 63 := by
      have hm := Nat.mod_lt c.toNat (show 0 < 128 by decide)
      calc decodeLE xs + 256 ^ xs.length * (c.toNat % 128) < 256 ^ xs.length * (c.toNat % 128 + 1) := by
            rw [Nat.mul_add, Nat.mul_one]
            omega
        _ ≤ 256 ^ xs.length * 128 := Nat.mul_le_mul_left _ (by omega)
        _ = 2 ^ (8 * xs.length + 7) := by rw [hpow, Nat.pow_add]
        _ ≤ 2 ^ 63 := Nat.pow_le_pow_right (by decide) (by omega)
    rw [if_neg hsign, if_pos (by simpa using hsign)]
    rw [hres, hmod] at hmasked
    rw [toInt_neg_toInt64_of_lt (hmasked ▸ hsmall), hmasked]

/-- Negative zero reads as zero. -/
example : set_vch [0x80] = 0 := by decide

/-! ## Writing a value -/

/-- `absvalue` is the magnitude, also of `INT64_MIN`. -/
theorem toNat_absvalue (value : Int64) :
    (if value < 0 then ~~~value.toUInt64 + 1 else value.toUInt64).toNat = value.toInt.natAbs := by
  have hbv : value.toInt = if 2 * value.toUInt64.toNat < 2 ^ 64 then (value.toUInt64.toNat : Int)
      else value.toUInt64.toNat - 2 ^ 64 := by
    rw [← Int64.toInt_toBitVec, BitVec.toInt_eq_toNat_cond, ← Int64.toBitVec_toUInt64,
      UInt64.toNat_toBitVec]
    rfl
  have ha := value.toUInt64.toNat_lt
  by_cases hneg : value < 0
  · rw [Int64.lt_iff_toInt_lt, Int64.toInt_zero] at hneg
    rw [if_pos (Int64.lt_iff_toInt_lt.mpr (by rw [Int64.toInt_zero]; exact hneg)),
      UInt64.toNat_add, UInt64.toNat_not]
    simp only [UInt64.size, UInt64.reduceToNat]
    split_ifs at hbv <;> omega
  · rw [Int64.lt_iff_toInt_lt, Int64.toInt_zero] at hneg
    rw [if_neg (fun h => hneg (by rwa [Int64.lt_iff_toInt_lt, Int64.toInt_zero] at h))]
    split_ifs at hbv <;> omega

/-- What `serialize` writes for a nonzero value, in terms of its magnitude bytes
`xs ++ [c]`: with the sign in a byte of its own, or in the top bit of `c`. -/
theorem serialize_eq {value : Int64} (h : value ≠ 0) :
    ∃ xs c, c ≠ 0 ∧ decodeLE xs + 256 ^ xs.length * c.toNat = value.toInt.natAbs ∧
      serialize value =
        if c &&& 0x80 != 0 then xs ++ [c] ++ [if value < 0 then 0x80 else 0]
        else if value < 0 then xs ++ [c ||| 0x80] else xs ++ [c] := by
  obtain ⟨hdec, hlast⟩ := pushBytes_spec (if value < 0 then ~~~value.toUInt64 + 1 else value.toUInt64)
  rw [toNat_absvalue] at hdec
  have hne : pushBytes (if value < 0 then ~~~value.toUInt64 + 1 else value.toUInt64) ≠ [] := by
    intro hnil
    rw [hnil, decodeLE] at hdec
    exact h (Int64.toInt_inj.mp (by rw [Int64.toInt_zero]; omega))
  obtain ⟨xs, c, hbs⟩ := (List.eq_nil_or_concat _).resolve_left hne
  rw [List.concat_eq_append] at hbs
  rw [hbs, List.getLast?_concat] at hlast
  rw [hbs, decodeLE_concat] at hdec
  refine ⟨xs, c, fun h0 => hlast (by rw [h0]), hdec, ?_⟩
  rw [serialize, if_neg h]
  simp only [hbs, List.getLastD_concat, List.dropLast_concat]

theorem toNat_or_0x80 {c : UInt8} (hc : c.toNat < 128) : (c ||| 0x80).toNat = c.toNat + 128 := by
  rw [UInt8.toNat_or, show (0x80 : UInt8).toNat = 1 <<< 7 from rfl, Nat.or_comm,
    ← Nat.shiftLeft_add_eq_or_of_lt (by simpa using hc)]
  simp only [Nat.shiftLeft_eq]
  omega

theorem neg_iff_toInt {value : Int64} : value < 0 ↔ value.toInt < 0 := by
  rw [Int64.lt_iff_toInt_lt, Int64.toInt_zero]

/-- `serialize` writes every `int64_t`, `INT64_MIN` included, so that it reads back in
sign and magnitude. -/
theorem smDecode_serialize (value : Int64) : smDecode (serialize value) = value.toInt := by
  by_cases h : value = 0
  · subst h
    rfl
  obtain ⟨xs, c, hc, hmag, hser⟩ := serialize_eq h
  have hct := c.toNat_lt
  rw [hser]
  by_cases htop : c &&& 0x80 = 0
  · -- the sign goes into the top bit of the last byte
    have hc128 : c.toNat < 128 := by
      by_contra h'
      exact (and_0x80_ne_zero c).mpr (by omega) htop
    simp only [htop, bne_self_eq_false, Bool.false_eq_true, if_false]
    by_cases hneg : value < 0
    · have hor : ¬(c ||| 0x80) &&& 0x80 = 0 :=
        (and_0x80_ne_zero _).mpr (by rw [toNat_or_0x80 hc128]; omega)
      rw [if_pos hneg, smDecode_concat, if_neg hor, toNat_or_0x80 hc128,
        show (c.toNat + 128) % 128 = c.toNat by omega, hmag]
      have := neg_iff_toInt.mp hneg
      omega
    · rw [if_neg hneg, smDecode_concat, if_pos htop, Nat.mod_eq_of_lt hc128, hmag]
      have := neg_iff_toInt.not.mp hneg
      omega
  · -- the sign takes a byte of its own above the magnitude
    have hsep : (c &&& 0x80 != 0) = true := by simpa using htop
    rw [if_pos hsep, smDecode_concat, List.length_append, List.length_singleton,
      decodeLE_concat, hmag]
    by_cases hneg : value < 0
    · rw [if_pos hneg, if_neg (by decide)]
      have := neg_iff_toInt.mp hneg
      simp only [show (0x80 : UInt8).toNat % 128 = 0 from rfl, Nat.mul_zero, Nat.add_zero]
      omega
    · rw [if_neg hneg, if_pos (by decide)]
      have := neg_iff_toInt.not.mp hneg
      simp only [show (0 : UInt8).toNat % 128 = 0 from rfl, Nat.mul_zero, Nat.add_zero]
      omega

/-- Below `2 ^ (8 * k - 1)` in size, `serialize` writes at most `k` bytes: the top byte of
the magnitude needs a byte of its own for the sign only at or above `2 ^ (8 * xs.length + 7)`. -/
theorem length_serialize_le {value : Int64} {k : Nat} (hk : 1 ≤ k)
    (hsize : value.toInt.natAbs < 2 ^ (8 * k - 1)) : (serialize value).length ≤ k := by
  by_cases h : value = 0
  · subst h
    exact Nat.zero_le k
  obtain ⟨xs, c, hc, hmag, hser⟩ := serialize_eq h
  have hpow : 256 ^ xs.length = 2 ^ (8 * xs.length) := by rw [Nat.pow_mul]
  have hc1 : 1 ≤ c.toNat := Nat.pos_of_ne_zero fun h0 => hc (UInt8.toNat_inj.mp h0)
  rw [hser]
  by_cases htop : c &&& 0x80 = 0
  · -- `xs.length + 1` bytes, and the magnitude is at least `2 ^ (8 * xs.length)`
    have hlow : 2 ^ (8 * xs.length) < 2 ^ (8 * k - 1) :=
      calc 2 ^ (8 * xs.length) ≤ 256 ^ xs.length * c.toNat := hpow ▸ Nat.le_mul_of_pos_right _ hc1
        _ ≤ value.toInt.natAbs := by omega
        _ < 2 ^ (8 * k - 1) := hsize
    have := (Nat.pow_lt_pow_iff_right (by decide)).mp hlow
    simp only [htop, bne_self_eq_false, Bool.false_eq_true, if_false]
    split <;> simp <;> omega
  · -- `xs.length + 2` bytes, and the magnitude is at least `2 ^ (8 * xs.length + 7)`
    have hc128 : 128 ≤ c.toNat := (and_0x80_ne_zero c).mp htop
    have hlow : 2 ^ (8 * xs.length + 7) < 2 ^ (8 * k - 1) :=
      calc 2 ^ (8 * xs.length + 7) = 256 ^ xs.length * 128 := by rw [hpow, Nat.pow_add]
        _ ≤ 256 ^ xs.length * c.toNat := Nat.mul_le_mul_left _ hc128
        _ ≤ value.toInt.natAbs := by omega
        _ < 2 ^ (8 * k - 1) := hsize
    have := (Nat.pow_lt_pow_iff_right (by decide)).mp hlow
    rw [if_pos (by simpa using htop)]
    simp
    omega

/-- What `serialize` writes passes the minimality check. -/
theorem isNonMinimal_serialize (value : Int64) : isNonMinimal (serialize value) = false := by
  by_cases h : value = 0
  · subst h
    rfl
  obtain ⟨xs, c, hc, -, hser⟩ := serialize_eq h
  have hc1 : c.toNat ≠ 0 := fun h0 => hc (UInt8.toNat_inj.mp h0)
  rw [hser]
  by_cases htop : c &&& 0x80 = 0
  · -- the last byte holds magnitude bits besides the sign
    have hc128 : c.toNat < 128 := by
      by_contra h'
      exact (and_0x80_ne_zero c).mpr (by omega) htop
    have hlast : ∀ d : UInt8, d.toNat % 128 = c.toNat → (d &&& 0x7f == 0) = false := by
      intro d hd
      rw [beq_eq_false_iff_ne, ne_eq, ← UInt8.toNat_inj, and_0x7F, hd]
      exact hc1
    simp only [htop, bne_self_eq_false, Bool.false_eq_true, if_false]
    split
    · simp only [isNonMinimal, List.getLastD_concat,
        hlast _ (by rw [toNat_or_0x80 hc128]; omega), Bool.and_false, Bool.false_and]
    · simp only [isNonMinimal, List.getLastD_concat, hlast _ (Nat.mod_eq_of_lt hc128),
        Bool.and_false, Bool.false_and]
  · -- the byte before the sign byte has its top bit set
    rw [if_pos (by simpa using htop)]
    simp [isNonMinimal, htop]

/-! ## Reading back -/

/-- A string read in sign and magnitude is below `2 ^ (8 * length - 1)` in size. -/
theorem natAbs_smDecode_lt (v : List UInt8) : (smDecode v).natAbs < 2 ^ (8 * v.length - 1) := by
  rcases List.eq_nil_or_concat v with rfl | ⟨xs, c, rfl⟩
  · simp [smDecode_nil]
  rw [List.concat_eq_append, smDecode_concat, List.length_append, List.length_singleton]
  have hxs := decodeLE_lt xs
  have hm := Nat.mod_lt c.toNat (show 0 < 128 by decide)
  have hmag : decodeLE xs + 256 ^ xs.length * (c.toNat % 128) < 2 ^ (8 * (xs.length + 1) - 1) :=
    calc decodeLE xs + 256 ^ xs.length * (c.toNat % 128)
        < 256 ^ xs.length * (c.toNat % 128 + 1) := by
          rw [Nat.mul_add, Nat.mul_one]
          omega
      _ ≤ 256 ^ xs.length * 128 := Nat.mul_le_mul_left _ (by omega)
      _ = 2 ^ (8 * (xs.length + 1) - 1) := by
          rw [show 8 * (xs.length + 1) - 1 = 8 * xs.length + 7 by omega, Nat.pow_add, Nat.pow_mul]
  split <;> omega

theorem set_vch_serialize {value : Int64} (hsize : value.toInt.natAbs < 2 ^ 63) :
    set_vch (serialize value) = value := by
  have hlen := length_serialize_le (k := 8) (by decide) hsize
  exact Int64.toInt_inj.mp (by rw [toInt_set_vch hlen, smDecode_serialize])

/-- Below `2 ^ (8 * k - 1)` in size, with `k` at most eight, what `serialize` writes is read
back with `fRequireMinimal` in at most `k` bytes. -/
theorem ofVch_serialize {value : Int64} {k : Nat} (hk : 1 ≤ k) (hk8 : k ≤ 8)
    (hsize : value.toInt.natAbs < 2 ^ (8 * k - 1)) :
    ofVch (serialize value) true k = .ok ⟨value⟩ := by
  have hlen := length_serialize_le hk hsize
  have h63 : value.toInt.natAbs < 2 ^ 63 :=
    hsize.trans_le (Nat.pow_le_pow_right (by decide) (by omega))
  rw [ofVch, if_neg (by omega), isNonMinimal_serialize, Bool.and_false, if_neg Bool.false_ne_true,
    set_vch_serialize h63]

/-- The value `set_vch` reads from `xs ++ [c]` with a nonzero magnitude: its sign is the
top bit of `c`, and its size the magnitude. -/
theorem set_vch_concat {xs : List UInt8} {c : UInt8} (hlen : xs.length + 1 ≤ 8)
    (hM : decodeLE xs + 256 ^ xs.length * (c.toNat % 128) ≠ 0) :
    set_vch (xs ++ [c]) ≠ 0 ∧ (set_vch (xs ++ [c]) < 0 ↔ 128 ≤ c.toNat) ∧
      (set_vch (xs ++ [c])).toInt.natAbs = decodeLE xs + 256 ^ xs.length * (c.toNat % 128) := by
  have hx : (set_vch (xs ++ [c])).toInt = smDecode (xs ++ [c]) :=
    toInt_set_vch (by rw [List.length_append, List.length_singleton]; exact hlen)
  rw [smDecode_concat] at hx
  rw [neg_iff_toInt, ne_eq, ← Int64.toInt_inj, Int64.toInt_zero, ← and_0x80_ne_zero, hx]
  generalize decodeLE xs + 256 ^ xs.length * (c.toNat % 128) = M at hM ⊢
  split
  · rename_i htop
    simp only [htop, ne_eq, not_true_eq_false, iff_false]
    omega
  · rename_i htop
    simp only [htop, ne_eq, not_false_eq_true, iff_true]
    omega

/-- A nonzero value whose magnitude has the bytes `ys ++ [d]`, `d` nonzero, is written with
the sign above `d` or in its top bit. -/
theorem serialize_of_magnitude {x : Int64} {ys : List UInt8} {d : UInt8} (hx : x ≠ 0) (hd : d ≠ 0)
    (hmag : x.toInt.natAbs = decodeLE (ys ++ [d])) :
    serialize x = if d &&& 0x80 != 0 then ys ++ [d] ++ [if x < 0 then 0x80 else 0]
      else if x < 0 then ys ++ [d ||| 0x80] else ys ++ [d] := by
  obtain ⟨zs, e, he, hmag', hser⟩ := serialize_eq hx
  rw [← decodeLE_concat, hmag] at hmag'
  obtain ⟨rfl, he'⟩ := List.append_inj' (concat_eq_of_decodeLE_eq he hd hmag') rfl
  rw [List.singleton_inj.mp he'] at hser
  exact hser

/-- A string of at most eight bytes that passes the minimality check is what `serialize`
writes for its value. -/
theorem serialize_set_vch {v : List UInt8} (hlen : v.length ≤ 8) (hmin : isNonMinimal v = false) :
    serialize (set_vch v) = v := by
  rcases List.eq_nil_or_concat v with rfl | ⟨xs, c, rfl⟩
  · rfl
  rw [List.concat_eq_append] at hlen hmin ⊢
  rw [List.length_append, List.length_singleton] at hlen
  have hct := c.toNat_lt
  by_cases hlow : c.toNat % 128 = 0
  · -- only the sign in the last byte: the byte before it has its top bit set
    have hc0 : c &&& 0x7f = 0 := UInt8.toNat_inj.mp (by rw [and_0x7F, hlow]; rfl)
    rcases List.eq_nil_or_concat xs with rfl | ⟨ys, d, rfl⟩
    · have hsingle : isNonMinimal [c] = true := by simp [isNonMinimal, hc0]
      exact absurd hmin (by rw [List.nil_append, hsingle]; decide)
    rw [List.concat_eq_append] at hlen hmin ⊢
    rw [List.length_append, List.length_singleton] at hlen
    have hd : 128 ≤ d.toNat := by
      rw [← and_0x80_ne_zero]
      intro hd0
      have hpair : isNonMinimal (ys ++ [d] ++ [c]) = true := by simp [isNonMinimal, hc0, hd0]
      exact absurd hmin (by rw [hpair]; decide)
    have hM : decodeLE (ys ++ [d]) + 256 ^ (ys ++ [d]).length * (c.toNat % 128) ≠ 0 := by
      rw [hlow, Nat.mul_zero, Nat.add_zero, decodeLE_concat]
      have := Nat.pow_pos (n := ys.length) (show 0 < 256 by decide)
      have := Nat.mul_le_mul_left (256 ^ ys.length) hd
      omega
    obtain ⟨hne, hsign, hmag⟩ := set_vch_concat (by simpa using hlen) hM
    rw [hlow, Nat.mul_zero, Nat.add_zero] at hmag
    rw [serialize_of_magnitude hne (fun h0 => by rw [h0] at hd; simp at hd) hmag,
      if_pos (by simpa [and_0x80_ne_zero] using hd)]
    -- the last byte is `0x80` or `0`, as the sign says
    by_cases hc : 128 ≤ c.toNat
    · rw [if_pos (hsign.mpr hc), show (0x80 : UInt8) = c from UInt8.toNat_inj.mp (by simp; omega)]
    · rw [if_neg (hsign.not.mpr hc), show (0 : UInt8) = c from UInt8.toNat_inj.mp (by simp; omega)]
  · -- magnitude bits in the last byte: they are the top byte of the magnitude
    have hc' : c &&& 0x7f ≠ 0 := fun h0 => hlow (by rw [← and_0x7F, h0]; rfl)
    have hM : decodeLE xs + 256 ^ xs.length * (c.toNat % 128) ≠ 0 := by
      have := Nat.pow_pos (n := xs.length) (show 0 < 256 by decide)
      have := Nat.mul_le_mul_left (256 ^ xs.length) (Nat.one_le_iff_ne_zero.mpr hlow)
      omega
    obtain ⟨hne, hsign, hmag⟩ := set_vch_concat hlen hM
    rw [← and_0x7F, ← decodeLE_concat] at hmag
    have hlow' : (c &&& 0x7f).toNat < 128 := by
      rw [and_0x7F]
      exact Nat.mod_lt _ (by decide)
    rw [serialize_of_magnitude hne hc' hmag,
      if_neg (by simpa using (and_0x80_ne_zero (c &&& 0x7f)).not.mpr (by omega))]
    by_cases hc : 128 ≤ c.toNat
    · rw [if_pos (hsign.mpr hc)]
      congr 2
      apply UInt8.toNat_inj.mp
      rw [toNat_or_0x80 hlow', and_0x7F]
      omega
    · rw [if_neg (hsign.not.mpr hc)]
      congr 2
      apply UInt8.toNat_inj.mp
      rw [and_0x7F]
      omega

/-- Up to eight bytes, a string fails the minimality check exactly when it is not what
`serialize` writes for its value. -/
theorem isNonMinimal_iff {v : List UInt8} (hlen : v.length ≤ 8) :
    isNonMinimal v = true ↔ v ≠ serialize (set_vch v) := by
  constructor
  · intro h heq
    rw [heq, isNonMinimal_serialize] at h
    exact Bool.false_ne_true h
  · intro hne
    cases h : isNonMinimal v with
    | true => rfl
    | false => exact absurd (serialize_set_vch hlen h).symm hne

theorem ofVch_ok {v : List UInt8} {fRequireMinimal : Bool} {k : Nat} {a : CScriptNum}
    (h : ofVch v fRequireMinimal k = .ok a) : v.length ≤ k ∧ a = ⟨set_vch v⟩ := by
  unfold ofVch at h
  split at h
  · cases h
  split at h
  · cases h
  rename_i hlen _
  cases h
  exact ⟨by omega, rfl⟩

/-- A number read from at most `k ≤ 8` bytes is below `2 ^ (8 * k - 1)` in size. -/
theorem natAbs_lt_of_ofVch {v : List UInt8} {fRequireMinimal : Bool} {k : Nat} {a : CScriptNum}
    (h : ofVch v fRequireMinimal k = .ok a) (hk : k ≤ 8) :
    a.m_value.toInt.natAbs < 2 ^ (8 * k - 1) := by
  obtain ⟨hlen, rfl⟩ := ofVch_ok h
  rw [toInt_set_vch (by omega)]
  exact (natAbs_smDecode_lt v).trans_le (Nat.pow_le_pow_right (by decide) (by omega))

/-- Sums and differences of numbers read from four bytes do not wrap, are written in at
most five bytes and read back. -/
theorem add_sub_getvch {v w : List UInt8} {fRequireMinimal : Bool} {a b : CScriptNum}
    (ha : ofVch v fRequireMinimal nDefaultMaxNumSize = .ok a)
    (hb : ofVch w fRequireMinimal nDefaultMaxNumSize = .ok b) :
    (a + b).getvch.length ≤ 5 ∧ ofVch (a + b).getvch true 5 = .ok (a + b) ∧
      (a - b).getvch.length ≤ 5 ∧ ofVch (a - b).getvch true 5 = .ok (a - b) := by
  have hx := natAbs_lt_of_ofVch ha (by decide)
  have hy := natAbs_lt_of_ofVch hb (by decide)
  rw [show 8 * nDefaultMaxNumSize - 1 = 31 from rfl] at hx hy
  have hadd : (a + b).m_value.toInt = a.m_value.toInt + b.m_value.toInt := by
    rw [show (a + b).m_value = a.m_value + b.m_value from rfl, Int64.toInt_add]
    exact Int.bmod_eq_of_le (by omega) (by omega)
  have hsub : (a - b).m_value.toInt = a.m_value.toInt - b.m_value.toInt := by
    rw [show (a - b).m_value = a.m_value - b.m_value from rfl, Int64.toInt_sub]
    exact Int.bmod_eq_of_le (by omega) (by omega)
  have hsum : (a + b).m_value.toInt.natAbs < 2 ^ (8 * 5 - 1) := by
    rw [hadd]
    omega
  have hdiff : (a - b).m_value.toInt.natAbs < 2 ^ (8 * 5 - 1) := by
    rw [hsub]
    omega
  exact ⟨length_serialize_le (by decide) hsum, ofVch_serialize (by decide) (by decide) hsum,
    length_serialize_le (by decide) hdiff, ofVch_serialize (by decide) (by decide) hdiff⟩

/-- Script numbers: every `int64_t` but `INT64_MIN` is written in at most eight bytes and
read back with `fRequireMinimal`; up to eight bytes, the minimal reading throws exactly
for the strings `serialize` does not write for their value; the plain reading is sign and
magnitude; sums and differences of four-byte operands are written in five bytes and read
back. -/
theorem scriptNum_minimal_encoding :
    (∀ n : Int64, n ≠ Int64.minValue →
      (serialize n).length ≤ 8 ∧ ∃ s, ofVch (serialize n) true 8 = .ok s ∧ s.GetInt64 = n) ∧
    (∀ v : List UInt8, v.length ≤ 8 →
      ofVch v true 8 = if v = serialize (set_vch v) then .ok ⟨set_vch v⟩
        else .error "non-minimally encoded script number") ∧
    (∀ v : List UInt8, v.length ≤ 8 →
      ofVch v false 8 = .ok ⟨set_vch v⟩ ∧ (set_vch v).toInt = smDecode v) ∧
    (∀ (v w : List UInt8) (fRequireMinimal : Bool) (a b : CScriptNum),
      ofVch v fRequireMinimal nDefaultMaxNumSize = .ok a →
      ofVch w fRequireMinimal nDefaultMaxNumSize = .ok b →
      (a + b).getvch.length ≤ 5 ∧ ofVch (a + b).getvch true 5 = .ok (a + b) ∧
        (a - b).getvch.length ≤ 5 ∧ ofVch (a - b).getvch true 5 = .ok (a - b)) := by
  refine ⟨fun n hn => ?_, fun v hlen => ?_, fun v hlen => ?_,
    fun v w fRequireMinimal a b ha hb => add_sub_getvch ha hb⟩
  · -- every other `int64_t` is below `2 ^ 63` in size
    have hmin : n.toInt ≠ -2 ^ 63 := fun h =>
      hn (Int64.toInt_inj.mp (by rw [h, Int64.toInt_minValue]))
    have hlo := Int64.le_toInt n
    have hhi := Int64.toInt_lt n
    have h63 : n.toInt.natAbs < 2 ^ (8 * 8 - 1) := by omega
    exact ⟨length_serialize_le (by decide) h63, ⟨n⟩, ofVch_serialize (by decide) le_rfl h63, rfl⟩
  · rw [ofVch, if_neg (by omega)]
    by_cases heq : v = serialize (set_vch v)
    · have hmin : isNonMinimal v = false :=
        Bool.eq_false_iff.mpr fun h => (Iff.mp (isNonMinimal_iff hlen) h) heq
      rw [if_pos heq, hmin]
      simp
    · have hmin : isNonMinimal v = true := Iff.mpr (isNonMinimal_iff hlen) heq
      rw [if_neg heq, hmin]
      simp
  · refine ⟨?_, toInt_set_vch hlen⟩
    rw [ofVch, if_neg (by omega)]
    simp

theorem scriptNum_minimal_encoding_negative :
    (serialize (-255)).length ≤ 8 ∧
      ∃ s, ofVch (serialize (-255)) true 8 = .ok s ∧ s.GetInt64 = -255 :=
  And.left scriptNum_minimal_encoding (-255) (by decide)

end CScriptNum

end Namecoin.Script
