import Namecoin.Lib.Limbs

/-! # Unsigned big integers (arith_uint256.h, arith_uint256.cpp)

A `base_uint<BITS>` is `WIDTH = BITS / 32` limbs `pn` of 32 bits, the least significant
first, and stands for the number `toNat` below `2 ^ (32 * WIDTH)`. The operators are the
source's loops over the limbs: addition and the multiplications carry in a `uint64_t`,
the shifts move whole limbs by `shift / 32` and bits by `shift % 32`, the comparison and
`bits ()` scan from the top limb, and `/=` is long division one bit at a time against the
divisor shifted up to the numerator's bit length. -/

namespace Namecoin.Arith

/-- `base_uint<BITS>` with its `WIDTH` limbs. -/
structure base_uint (WIDTH : Nat) where
  pn : Fin WIDTH → UInt32

/-- `arith_uint256`. -/
abbrev arith_uint256 : Type := base_uint 8

namespace base_uint

variable {WIDTH : Nat}

/-- `pn[i]`, zero past the last limb. -/
def limb (a : base_uint WIDTH) (i : Nat) : UInt32 := if h : i < WIDTH then a.pn ⟨i, h⟩ else 0

/-- `pn[i] = v`; nothing changes past the last limb. -/
def set (a : base_uint WIDTH) (i : Nat) (v : UInt32) : base_uint WIDTH :=
  ⟨fun j => if j.val = i then v else a.pn j⟩

/-- The number the limbs stand for. -/
def toNat (a : base_uint WIDTH) : Nat := Lib.Limbs.segment 32 (fun i => (a.limb i).toNat) 0 WIDTH

/-- The number `x` modulo `2 ^ (32 * WIDTH)`, written in limbs: how a value computed in
`Nat` (`SetCompact`'s target) stands as a `base_uint`. -/
def ofNat (x : Nat) : base_uint WIDTH := ⟨fun i => (x / 2 ^ (32 * i.val)).toUInt32⟩

/-- `base_uint ()`: every limb zero. -/
instance : Zero (base_uint WIDTH) := ⟨⟨fun _ => 0⟩⟩

/-- `base_uint (uint64_t b)`: the low and the high half in the two lowest limbs. -/
def ofUInt64 (b : UInt64) : base_uint WIDTH :=
  ⟨fun i => if i.val = 0 then b.toUInt32 else if i.val = 1 then (b >>> 32).toUInt32 else 0⟩

/-- `operator~`. -/
instance : Complement (base_uint WIDTH) := ⟨fun a => ⟨fun i => ~~~a.pn i⟩⟩

/-- The loop of prefix `operator++` from limb `i`: add one, and go on while it wraps. -/
def incLoop (a : base_uint WIDTH) (i : Nat) : Nat → base_uint WIDTH
  | 0 => a
  | n + 1 =>
    if i < WIDTH then
      let a := a.set i (a.limb i + 1)
      if a.limb i = 0 then incLoop a (i + 1) n else a
    else a

/-- Prefix `operator++`. -/
def inc (a : base_uint WIDTH) : base_uint WIDTH := incLoop a 0 WIDTH

/-- Unary `operator-`: `~a`, then `++`. -/
instance : Neg (base_uint WIDTH) := ⟨fun a => inc (~~~a)⟩

/-- The loop of `operator+=` from limb `i`, with the carry. -/
def addLoop (a b : base_uint WIDTH) (carry : UInt64) (i : Nat) : Nat → base_uint WIDTH
  | 0 => a
  | n + 1 =>
    let x := carry + (a.limb i).toUInt64 + (b.limb i).toUInt64
    addLoop (a.set i (x &&& 0xffffffff).toUInt32) b (x >>> 32) (i + 1) n

/-- `operator+=`. -/
instance : Add (base_uint WIDTH) := ⟨fun a b => addLoop a b 0 0 WIDTH⟩

/-- `operator-=`: `*this += -b`. -/
instance : Sub (base_uint WIDTH) := ⟨fun a b => a + -b⟩

/-- The loop of `operator*= (uint32_t b32)` from limb `i`, with the carry. -/
def mulU32Loop (a : base_uint WIDTH) (b32 : UInt32) (carry : UInt64) (i : Nat) : Nat → base_uint WIDTH
  | 0 => a
  | n + 1 =>
    let x := carry + b32.toUInt64 * (a.limb i).toUInt64
    mulU32Loop (a.set i (x &&& 0xffffffff).toUInt32) b32 (x >>> 32) (i + 1) n

/-- `operator*= (uint32_t b32)`. -/
def mulU32 (a : base_uint WIDTH) (b32 : UInt32) : base_uint WIDTH := mulU32Loop a b32 0 0 WIDTH

/-- The inner loop of `operator*= (const base_uint& b)` for limb `j` of `this`: add
`pn[j] * b` into the accumulator from limb `j` on, carrying. -/
def mulRowLoop (acc : base_uint WIDTH) (pj : UInt32) (b : base_uint WIDTH) (j : Nat) (carry : UInt64)
    (i : Nat) : Nat → base_uint WIDTH
  | 0 => acc
  | n + 1 =>
    let x := carry + (acc.limb (i + j)).toUInt64 + pj.toUInt64 * (b.limb i).toUInt64
    mulRowLoop (acc.set (i + j) (x &&& 0xffffffff).toUInt32) pj b j (x >>> 32) (i + 1) n

/-- `operator*= (const base_uint& b)`: for each limb `j`, the row `i + j < WIDTH`. -/
instance : Mul (base_uint WIDTH) :=
  ⟨fun a b => (List.range WIDTH).foldl (fun acc j => mulRowLoop acc (a.limb j) b j 0 0 (WIDTH - j)) 0⟩

/-- The loop of `CompareTo` below limb `i`, from the top. -/
def compareFrom (a b : base_uint WIDTH) : Nat → Int
  | 0 => 0
  | i + 1 =>
    if a.limb i < b.limb i then -1
    else if a.limb i > b.limb i then 1
    else compareFrom a b i

/-- `CompareTo`: `-1`, `0` or `1`. -/
def CompareTo (a b : base_uint WIDTH) : Int := compareFrom a b WIDTH

/-- `operator>=`, through `operator<=>`. -/
def ge (a b : base_uint WIDTH) : Bool := decide (CompareTo a b ≥ 0)

/-- The inner loop of `bits ()` over the limb `pn[pos]`: the highest set bit among
`nbits, nbits - 1, …, 1`, and bit zero otherwise. -/
def bitsInLimb (x : UInt32) (pos : Nat) : Nat → Nat
  | 0 => 32 * pos + 1
  | nbits + 1 =>
    if x &&& (1 <<< (nbits + 1).toUInt32) != 0 then 32 * pos + (nbits + 1) + 1
    else bitsInLimb x pos nbits

/-- The outer loop of `bits ()` below limb `pos`, from the top. -/
def bitsFrom (a : base_uint WIDTH) : Nat → Nat
  | 0 => 0
  | pos + 1 => if a.limb pos != 0 then bitsInLimb (a.limb pos) pos 31 else bitsFrom a pos

/-- `bits ()`: the position of the highest set bit plus one, zero for zero. -/
def bits (a : base_uint WIDTH) : Nat := bitsFrom a WIDTH

/-- `EqualTo (uint64_t b)`: the limbs from two on are zero and the lower two are `b`. -/
def EqualTo (a : base_uint WIDTH) (b : UInt64) : Bool :=
  (List.range WIDTH).all (fun i => i < 2 || a.limb i == 0) &&
    (a.limb 1).toUInt64 == b >>> 32 && (a.limb 0).toUInt64 == (b &&& 0xffffffff)

/-- The body of the loop of `operator<<=` for limb `i` of the old value `a`, moved up by
`k` limbs and `s` bits: its top bits go to limb `i + k + 1`, the rest to `i + k`. -/
def shiftLeftStep (a : base_uint WIDTH) (k s : Nat) (r : base_uint WIDTH) (i : Nat) : base_uint WIDTH :=
  let r := if i + k + 1 < WIDTH ∧ s ≠ 0 then
    r.set (i + k + 1) (r.limb (i + k + 1) ||| a.limb i >>> (32 - s).toUInt32) else r
  if i + k < WIDTH then r.set (i + k) (r.limb (i + k) ||| a.limb i <<< s.toUInt32) else r

/-- `operator<<= (unsigned int shift)`: from zero, each limb of the old value ORed in. -/
def shiftLeft (a : base_uint WIDTH) (shift : Nat) : base_uint WIDTH :=
  (List.range WIDTH).foldl (shiftLeftStep a (shift / 32) (shift % 32)) 0

/-- The body of the loop of `operator>>=` for limb `i` of the old value `a`, moved down by
`k` limbs and `s` bits: its low bits go to limb `i - k - 1`, the rest to `i - k`. -/
def shiftRightStep (a : base_uint WIDTH) (k s : Nat) (r : base_uint WIDTH) (i : Nat) : base_uint WIDTH :=
  let r := if k + 1 ≤ i ∧ s ≠ 0 then
    r.set (i - k - 1) (r.limb (i - k - 1) ||| a.limb i <<< (32 - s).toUInt32) else r
  if k ≤ i then r.set (i - k) (r.limb (i - k) ||| a.limb i >>> s.toUInt32) else r

/-- `operator>>= (unsigned int shift)`: from zero, each limb of the old value ORed in. -/
def shiftRight (a : base_uint WIDTH) (shift : Nat) : base_uint WIDTH :=
  (List.range WIDTH).foldl (shiftRightStep a (shift / 32) (shift % 32)) 0

instance : HShiftLeft (base_uint WIDTH) Nat (base_uint WIDTH) := ⟨shiftLeft⟩

instance : HShiftRight (base_uint WIDTH) Nat (base_uint WIDTH) := ⟨shiftRight⟩

/-- One round of `operator/=` at bit `shift`: subtract the shifted divisor if it fits, and
set that bit of the quotient. -/
def divStep (num div quot : base_uint WIDTH) (shift : Nat) : base_uint WIDTH × base_uint WIDTH :=
  if ge num div then
    (num - div, quot.set (shift / 32) (quot.limb (shift / 32) ||| 1 <<< (shift % 32).toUInt32))
  else (num, quot)

/-- The loop `while (shift >= 0)` of `operator/=`, from bit `shift` down to bit zero;
the divisor moves down a bit after each round. -/
def divLoop (num div quot : base_uint WIDTH) : Nat → base_uint WIDTH
  | 0 => (divStep num div quot 0).2
  | shift + 1 =>
    let r := divStep num div quot (shift + 1)
    divLoop r.1 (div >>> 1) r.2 shift

/-- `operator/=`, which throws `uint_error ("Division by zero")`. -/
def div (a b : base_uint WIDTH) : Except String (base_uint WIDTH) :=
  let num_bits := a.bits
  let div_bits := b.bits
  if div_bits = 0 then .error "Division by zero"
  else if div_bits > num_bits then .ok 0
  else
    let shift := num_bits - div_bits
    .ok (divLoop a (b <<< shift) 0 shift)

/-! ## Limbs and the value -/

/-- The `n` limbs from `s` on, as a number. -/
def seg (a : base_uint WIDTH) (s n : Nat) : Nat := Lib.Limbs.segment 32 (fun i => (a.limb i).toNat) s n

variable {a : base_uint WIDTH} {i j s n : Nat}

theorem toNat_eq_seg (a : base_uint WIDTH) : a.toNat = a.seg 0 WIDTH := rfl

theorem seg_succ (a : base_uint WIDTH) (s n : Nat) :
    a.seg s (n + 1) = (a.limb s).toNat + 2 ^ 32 * a.seg (s + 1) n := rfl

theorem limb_of_le (h : WIDTH ≤ i) : a.limb i = 0 := by
  simp [limb, Nat.not_lt.mpr h]

@[simp] theorem limb_set_self (v : UInt32) (h : i < WIDTH) : (a.set i v).limb i = v := by
  simp [limb, set, h]

@[simp] theorem limb_set_ne (v : UInt32) (h : j ≠ i) : (a.set i v).limb j = a.limb j := by
  unfold limb set
  split <;> simp [h]

theorem toNat_limb_lt (a : base_uint WIDTH) (i : Nat) : (a.limb i).toNat < 2 ^ 32 :=
  UInt32.toNat_lt_size _

theorem seg_lt (a : base_uint WIDTH) (s n : Nat) : a.seg s n < 2 ^ (32 * n) :=
  Lib.Limbs.segment_lt (toNat_limb_lt a)

theorem toNat_lt (a : base_uint WIDTH) : a.toNat < 2 ^ (32 * WIDTH) := seg_lt a 0 WIDTH

/-- Setting a limb below `s` leaves the limbs from `s` on. -/
theorem seg_set_of_lt (v : UInt32) (h : i < s) : (a.set i v).seg s n = a.seg s n :=
  Lib.Limbs.segment_congr fun k _ => by rw [limb_set_ne v (by omega)]

/-- Limb `i` is digit `i` of the value in base `2 ^ 32`. -/
theorem toNat_limb (a : base_uint WIDTH) (i : Nat) :
    (a.limb i).toNat = a.toNat / 2 ^ (32 * i) % 2 ^ 32 := by
  by_cases hi : i < WIDTH
  · rw [toNat, Lib.Limbs.segment_div_mod (toNat_limb_lt a) hi, Nat.zero_add]
  · have hle : 2 ^ (32 * WIDTH) ≤ 2 ^ (32 * i) := Nat.pow_le_pow_right (by decide) (by omega)
    rw [limb_of_le (by omega), Nat.div_eq_of_lt (Nat.lt_of_lt_of_le a.toNat_lt hle)]
    rfl

/-- Bit `t` of limb `i` is bit `32 * i + t` of the value. -/
theorem testBit_toNat (a : base_uint WIDTH) (i : Nat) {t : Nat} (ht : t < 32) :
    a.toNat.testBit (32 * i + t) = (a.limb i).toNat.testBit t := by
  rw [toNat_limb, Nat.testBit_mod_two_pow, Nat.testBit_div_two_pow, Nat.add_comm t]
  simp [ht]

/-- Every bit position is bit `t` of limb `m`. -/
theorem exists_limb_bit (j : Nat) : ∃ m t, t < 32 ∧ j = 32 * m + t :=
  ⟨j / 32, j % 32, Nat.mod_lt _ (by decide), (Nat.div_add_mod j 32).symm⟩

/-- Two `base_uint`s with one value are equal. -/
theorem ext_toNat {a b : base_uint WIDTH} (h : a.toNat = b.toNat) : a = b := by
  have hlimb : ∀ i, a.limb i = b.limb i := fun i =>
    UInt32.toNat_inj.mp (by rw [toNat_limb, toNat_limb, h])
  cases a with
  | mk pa =>
    cases b with
    | mk pb =>
      congr
      funext k
      simpa [limb, k.isLt] using hlimb k.val

/-- A `base_uint` whose limbs are the digits of `x` holds `x` modulo `2 ^ (32 * WIDTH)`. -/
theorem toNat_eq_of_limbs {x : Nat}
    (h : ∀ i, i < WIDTH → (a.limb i).toNat = x / 2 ^ (32 * i) % 2 ^ 32) :
    a.toNat = x % 2 ^ (32 * WIDTH) := by
  rw [toNat, ← Lib.Limbs.segment_digits x]
  exact Lib.Limbs.segment_congr fun i hi => by rw [Nat.zero_add]; exact h i hi

theorem toNat_ofNat (x : Nat) : (ofNat x : base_uint WIDTH).toNat = x % 2 ^ (32 * WIDTH) :=
  toNat_eq_of_limbs fun i hi => by simp [limb, ofNat, hi, Nat.toUInt32_eq, UInt32.toNat_ofNat']

@[simp] theorem toNat_zero : (0 : base_uint WIDTH).toNat = 0 := by
  have h := toNat_eq_of_limbs (a := (0 : base_uint WIDTH)) (x := 0) fun i hi => by
    simp [limb, hi]
    rfl
  simpa using h

/-! ## The two halves of a `uint64_t` -/

/-- `n & 0xffffffff`, stored in a limb. -/
theorem toNat_low (x : UInt64) : (x &&& 0xffffffff).toUInt32.toNat = x.toNat % 2 ^ 32 := by
  rw [UInt64.toNat_toUInt32, UInt64.toNat_and]
  have hmask : (0xffffffff : UInt64).toNat = 2 ^ 32 - 1 := rfl
  rw [hmask, Nat.and_two_pow_sub_one_eq_mod, Nat.mod_mod]

/-- `n >> 32`, the carry. -/
theorem toNat_high (x : UInt64) : (x >>> 32).toNat = x.toNat / 2 ^ 32 := by
  rw [UInt64.toNat_shiftRight, Nat.shiftRight_eq_div_pow]
  rfl

/-- The carry `n >> 32` of any `uint64_t` fits a limb. -/
theorem toNat_high_lt (x : UInt64) : (x >>> 32).toNat < 2 ^ 32 := by
  have hx := x.toNat_lt
  rw [toNat_high]
  omega

/-- `base_uint (uint64_t b)` holds `b` when there are two limbs for it. -/
theorem toNat_ofUInt64 (b : UInt64) (hW : 2 ≤ WIDTH) : (ofUInt64 b : base_uint WIDTH).toNat = b.toNat := by
  have hb := b.toNat_lt
  have hfit : b.toNat < 2 ^ (32 * WIDTH) :=
    Nat.lt_of_lt_of_le hb (Nat.pow_le_pow_right (by decide) (by omega))
  rw [toNat_eq_of_limbs (x := b.toNat) fun i hi => ?_, Nat.mod_eq_of_lt hfit]
  rcases (by omega : i = 0 ∨ i = 1 ∨ 2 ≤ i) with rfl | rfl | hi2
  · -- `pn[0] = (unsigned int)b`
    have h0 : (ofUInt64 b : base_uint WIDTH).limb 0 = b.toUInt32 := by simp [limb, ofUInt64, hi]
    rw [h0, UInt64.toNat_toUInt32, Nat.mul_zero, Nat.pow_zero, Nat.div_one]
  · -- `pn[1] = (unsigned int)(b >> 32)`
    have h1 : (ofUInt64 b : base_uint WIDTH).limb 1 = (b >>> 32).toUInt32 := by simp [limb, ofUInt64, hi]
    rw [h1, UInt64.toNat_toUInt32, toNat_high, Nat.mul_one]
  · -- the limbs above are zero
    have hz : (ofUInt64 b : base_uint WIDTH).limb i = 0 := by
      simp [limb, ofUInt64, hi, show i ≠ 0 by omega, show i ≠ 1 by omega]
    have hlt : b.toNat < 2 ^ (32 * i) := Nat.lt_of_lt_of_le hb (Nat.pow_le_pow_right (by decide) (by omega))
    rw [hz, Nat.div_eq_of_lt hlt]
    rfl

end base_uint

end Namecoin.Arith
