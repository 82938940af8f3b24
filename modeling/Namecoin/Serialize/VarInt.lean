import Mathlib.Data.Nat.Bitwise
import Namecoin.Serialize.CompactSize

/-! # VarInt (serialize.h)

A VarInt is the number in base 128, the most significant digit first, with
the high bit set on every byte but the last; one is subtracted from every
digit but the last, which makes every number's encoding unique. The writer
computes the digits from the least significant one on into `tmp`, and writes
`tmp` backwards.

The reader accumulates `n := (n << 7) | (byte & 0x7F)`, adding one after
every byte with the high bit, and throws before its accumulator would leave
the type. It reads every encoding back (`ReadVarInt_WriteVarInt`), exactly
when the number fits the type, and every string it accepts is the encoding of
what it returns (`ReadVarInt_canonical`).

An unsigned integer type is given by its `sizeof`, and its values are the
numbers up to `max`. The writer's arithmetic never wraps: `(n >> 7) - 1` is
taken only for `n > 0x7F`. -/

namespace Namecoin.Serialize

open Lib.LittleEndian

/-- An unsigned integer type, by `sizeof (I)`. -/
structure UIntType where
  size : Nat
  size_pos : 0 < size

/-- `std::numeric_limits<I>::max ()`. -/
def UIntType.max (I : UIntType) : Nat := 2 ^ (8 * I.size) - 1

/-- `CeilDiv`. -/
def CeilDiv (dividend divisor : Nat) : Nat :=
  dividend / divisor + if dividend % divisor ≠ 0 then 1 else 0

/-- The `while` loop of `GetSizeOfVarInt`. -/
def sizeOfVarIntLoop (n nRet : Nat) : Nat :=
  let nRet := nRet + 1
  if n ≤ 0x7F then nRet else sizeOfVarIntLoop ((n >>> 7) - 1) nRet
termination_by n
decreasing_by
  rw [Nat.shiftRight_eq_div_pow]
  omega

/-- `GetSizeOfVarInt`. -/
def GetSizeOfVarInt (n : Nat) : Nat := sizeOfVarIntLoop n 0

/-- The `while` loop of `WriteVarInt`: the bytes it stores in `tmp [len]`,
`tmp [len + 1]`, and so on. -/
def varIntDigits (n len : Nat) : List UInt8 :=
  let b := UInt8.ofNat (n &&& 0x7F) ||| (if len ≠ 0 then 0x80 else 0x00)
  if n ≤ 0x7F then [b] else b :: varIntDigits ((n >>> 7) - 1) (len + 1)
termination_by n
decreasing_by
  rw [Nat.shiftRight_eq_div_pow]
  omega

/-- `WriteVarInt`: the bytes it writes, `tmp [len]` down to `tmp [0]`. -/
def WriteVarInt (n : Nat) : List UInt8 := (varIntDigits n 0).reverse

/-- The `while` loop of `ReadVarInt`, from the accumulator `n`; each turn
reads a byte as `ser_readdata8` does. -/
def readVarIntLoop (I : UIntType) (n : Nat) : List UInt8 → Except String (Nat × List UInt8)
  | [] => throw "DataStream::read(): end of data"
  | chData :: is =>
    if n > I.max >>> 7 then throw "ReadVarInt(): size too large"
    else
      let n := n <<< 7 ||| (chData &&& 0x7F).toNat
      if chData &&& 0x80 ≠ 0 then
        if n = I.max then throw "ReadVarInt(): size too large"
        else readVarIntLoop I (n + 1) is
      else pure (n, is)

/-- `ReadVarInt<I>`. -/
def ReadVarInt (I : UIntType) (is : List UInt8) : Except String (Nat × List UInt8) :=
  readVarIntLoop I 0 is

/-! ## Bytes and digits -/

/-- The maximum of a type of at least one byte is 127 modulo 128, and at least 255. -/
theorem UIntType.max_spec (I : UIntType) : I.max % 128 = 127 ∧ 255 ≤ I.max := by
  obtain ⟨k, hk⟩ := Nat.exists_eq_add_of_lt I.size_pos
  have hpow : 2 ^ (8 * I.size) = 2 ^ (8 * k) * 256 := by
    rw [hk, show 8 * (0 + k + 1) = 8 * k + 8 by omega, pow_add]
    rfl
  have := Nat.one_le_two_pow (n := 8 * k)
  unfold UIntType.max
  omega

/-- A digit with the high bit set. -/
theorem ofNat_or_0x80 {c : Nat} (hc : c < 128) : UInt8.ofNat c ||| 0x80 = UInt8.ofNat (c + 128) :=
  (by decide +kernel : ∀ c : Fin 128, UInt8.ofNat c.val ||| 0x80 = UInt8.ofNat (c.val + 128))
    ⟨c, hc⟩

/-- `(n << 7) | c` for a digit `c`. -/
theorem shiftLeft_or {n c : Nat} (hc : c < 128) : n <<< 7 ||| c = n * 128 + c := by
  rw [← Nat.shiftLeft_add_eq_or_of_lt (by simpa using hc), Nat.shiftLeft_eq]

theorem and_0x7F_nat (n : Nat) : n &&& 0x7F = n % 128 := Nat.and_two_pow_sub_one_eq_mod n 7

/-- Past `tmp [0]`, every digit has the high bit. -/
theorem varIntDigits_succ (n len : Nat) : varIntDigits n (len + 1) = varIntDigits n 1 := by
  induction n using Nat.strong_induction_on generalizing len with
  | _ n ih =>
    conv_lhs => rw [varIntDigits]
    conv_rhs => rw [varIntDigits]
    simp only [ne_eq, Nat.add_one_ne_zero, not_false_eq_true, if_true, one_ne_zero]
    split
    · rfl
    · next hn =>
      have hlt : (n >>> 7) - 1 < n := by
        rw [Nat.shiftRight_eq_div_pow]
        omega
      rw [ih _ hlt (len + 1), ih _ hlt 1]

/-- The bytes of `m` with the high bit on every one: what `WriteVarInt`
writes before its last byte. -/
def varIntCont (m : Nat) : List UInt8 := (varIntDigits m 1).reverse

theorem WriteVarInt_eq (n : Nat) : WriteVarInt n =
    if n ≤ 127 then [UInt8.ofNat n] else varIntCont (n / 128 - 1) ++ [UInt8.ofNat (n % 128)] := by
  rw [WriteVarInt, varIntDigits]
  simp only [and_0x7F_nat, ne_eq, not_true_eq_false, if_false, UInt8.or_zero,
    Nat.shiftRight_eq_div_pow, zero_add]
  split
  · next hn => rw [Nat.mod_eq_of_lt (by omega)]; rfl
  · simp [varIntCont]

theorem varIntCont_eq (m : Nat) : varIntCont m =
    if m ≤ 127 then [UInt8.ofNat (m + 128)]
    else varIntCont (m / 128 - 1) ++ [UInt8.ofNat (m % 128 + 128)] := by
  rw [varIntCont, varIntDigits]
  simp only [and_0x7F_nat, ne_eq, one_ne_zero, not_false_eq_true, if_true,
    ofNat_or_0x80 (Nat.mod_lt m (by decide)), Nat.shiftRight_eq_div_pow, varIntDigits_succ]
  split
  · next hm => rw [Nat.mod_eq_of_lt (by omega)]; rfl
  · simp [varIntCont]

/-- Two entries of the table in the comment above `VarIntMode`. -/
example : WriteVarInt 16511 = [0xFF, 0x7F] ∧ WriteVarInt 65535 = [0x82, 0xFE, 0x7F] := by
  simp [WriteVarInt_eq, varIntCont_eq]

/-! ## The reader -/

/-- One turn of the reader, on numbers. -/
theorem readVarIntLoop_cons (I : UIntType) (n : Nat) (b : UInt8) (is : List UInt8) :
    readVarIntLoop I n (b :: is) =
      if I.max / 128 < n then throw "ReadVarInt(): size too large"
      else if 128 ≤ b.toNat then
        if n * 128 + b.toNat % 128 = I.max then throw "ReadVarInt(): size too large"
        else readVarIntLoop I (n * 128 + b.toNat % 128 + 1) is
      else pure (n * 128 + b.toNat % 128, is) := by
  rw [readVarIntLoop]
  simp only [Nat.shiftRight_eq_div_pow, and_0x7F, shiftLeft_or (Nat.mod_lt _ (by decide : 0 < 128)),
    and_0x80_ne_zero]

/-- Past the bound, the next turn throws. -/
theorem readVarIntLoop_guard (I : UIntType) (k : Nat) (b : UInt8) (is : List UInt8) :
    readVarIntLoop I k (b :: is) =
      if k ≤ I.max / 128 then readVarIntLoop I k (b :: is)
      else throw "ReadVarInt(): size too large" := by
  split
  · rfl
  · next hk => rw [readVarIntLoop_cons, if_pos (by omega)]

theorem toNat_ofNat_digit {c : Nat} (hc : c < 256) : (UInt8.ofNat c).toNat = c := by
  simpa using Nat.mod_eq_of_lt hc

/-- Reading the bytes of `m` with the high bit on every one takes the
accumulator from 0 to `m + 1`, unless the turn after them would throw. -/
theorem readVarIntLoop_cont (I : UIntType) (m : Nat) (b : UInt8) (is : List UInt8) :
    readVarIntLoop I 0 (varIntCont m ++ b :: is) =
      if m + 1 ≤ I.max / 128 then readVarIntLoop I (m + 1) (b :: is)
      else throw "ReadVarInt(): size too large" := by
  obtain ⟨hmod, hge⟩ := I.max_spec
  induction m using Nat.strong_induction_on generalizing b is with
  | _ m ih =>
    rw [varIntCont_eq]
    split
    · next hm =>
      -- one byte takes the accumulator from 0 to `m + 1`
      rw [List.singleton_append, readVarIntLoop_cons, if_neg (by omega),
        toNat_ofNat_digit (by omega), if_pos (by omega), if_neg (by omega),
        show 0 * 128 + (m + 128) % 128 = m by omega]
      exact readVarIntLoop_guard I (m + 1) b is
    · next hm =>
      -- the bytes of `m / 128 - 1`, then the last digit `m % 128`
      have hq : m / 128 - 1 < m := by omega
      rw [List.append_assoc, List.singleton_append, ih _ hq, show m / 128 - 1 + 1 = m / 128 by omega]
      by_cases hfit : m / 128 ≤ I.max / 128
      · have hdigit : m / 128 * 128 + (m % 128 + 128) % 128 = m := by omega
        rw [if_pos hfit, readVarIntLoop_cons, if_neg (by omega), toNat_ofNat_digit (by omega),
          if_pos (by omega), hdigit]
        by_cases hmax : m = I.max
        · rw [if_pos hmax, if_neg (by omega)]
        · rw [if_neg hmax]
          exact readVarIntLoop_guard I (m + 1) b is
      · rw [if_neg hfit, if_neg (by omega)]

/-- The reader reads every encoding back, and throws exactly when the number
does not fit the type. -/
theorem ReadVarInt_WriteVarInt (I : UIntType) (v : Nat) (rest : List UInt8) :
    ReadVarInt I (WriteVarInt v ++ rest) =
      if v ≤ I.max then .ok (v, rest) else .error "ReadVarInt(): size too large" := by
  obtain ⟨hmod, hge⟩ := I.max_spec
  rw [ReadVarInt, WriteVarInt_eq]
  split
  · next hv =>
    rw [List.singleton_append, readVarIntLoop_cons, if_neg (by omega),
      toNat_ofNat_digit (by omega), if_neg (by omega), if_pos (by omega),
      show 0 * 128 + v % 128 = v by omega]
    rfl
  · next hv =>
    rw [List.append_assoc, List.singleton_append, readVarIntLoop_cont,
      show v / 128 - 1 + 1 = v / 128 by omega]
    by_cases hfit : v / 128 ≤ I.max / 128
    · rw [if_pos hfit, readVarIntLoop_cons, if_neg (by omega), toNat_ofNat_digit (by omega),
        if_neg (by omega), if_pos (by omega), show v / 128 * 128 + v % 128 % 128 = v by omega]
      rfl
    · rw [if_neg hfit, if_neg (by omega)]
      rfl

/-- The bytes the reader has taken when its accumulator is `n`. -/
def readSoFar : Nat → List UInt8
  | 0 => []
  | m + 1 => varIntCont m

theorem varIntCont_digit (acc : Nat) {c : Nat} (hc : c < 128) :
    varIntCont (acc * 128 + c) = readSoFar acc ++ [UInt8.ofNat (c + 128)] := by
  rw [varIntCont_eq]
  cases acc with
  | zero => rw [if_pos (by omega), show 0 * 128 + c = c by omega]; rfl
  | succ a =>
    rw [if_neg (by omega), show (a + 1) * 128 + c = a * 128 + c + 128 by omega,
      show (a * 128 + c + 128) / 128 - 1 = a by omega, show (a * 128 + c + 128) % 128 = c by omega]
    rfl

theorem WriteVarInt_digit (acc : Nat) {c : Nat} (hc : c < 128) :
    WriteVarInt (acc * 128 + c) = readSoFar acc ++ [UInt8.ofNat c] := by
  rw [WriteVarInt_eq]
  cases acc with
  | zero => rw [if_pos (by omega), show 0 * 128 + c = c by omega]; rfl
  | succ a =>
    rw [if_neg (by omega), show (a + 1) * 128 + c = a * 128 + c + 128 by omega,
      show (a * 128 + c + 128) / 128 - 1 = a by omega, show (a * 128 + c + 128) % 128 = c by omega]
    rfl

/-- What the loop accepts, after what it has taken, is the encoding of the
number it returns, and that number fits the type. -/
theorem readVarIntLoop_canonical (I : UIntType) (is : List UInt8) :
    ∀ {acc n : Nat} {rest : List UInt8}, readVarIntLoop I acc is = .ok (n, rest) →
      n ≤ I.max ∧ readSoFar acc ++ is = WriteVarInt n ++ rest := by
  obtain ⟨hmod, hge⟩ := I.max_spec
  induction is with
  | nil => intro acc n rest h; cases h
  | cons b is ih =>
    intro acc n rest h
    have hb := b.toNat_lt
    rw [readVarIntLoop_cons] at h
    by_cases h1 : I.max / 128 < acc
    · rw [if_pos h1] at h
      cases h
    rw [if_neg h1] at h
    by_cases h2 : 128 ≤ b.toNat
    · -- a byte with the high bit: the loop goes on from `acc * 128 + c + 1`
      rw [if_pos h2] at h
      by_cases h3 : acc * 128 + b.toNat % 128 = I.max
      · rw [if_pos h3] at h
        cases h
      rw [if_neg h3] at h
      obtain ⟨hn, heq⟩ := ih h
      have hbyte : UInt8.ofNat (b.toNat % 128 + 128) = b := by
        rw [show b.toNat % 128 + 128 = b.toNat by omega, UInt8.ofNat_toNat]
      refine ⟨hn, ?_⟩
      rw [← heq, readSoFar, varIntCont_digit acc (Nat.mod_lt _ (by decide)), hbyte]
      simp
    · -- the last byte
      rw [if_neg h2] at h
      obtain ⟨rfl, rfl⟩ := Prod.mk.inj (Except.ok.inj h)
      have hbyte : UInt8.ofNat (b.toNat % 128) = b := by
        rw [Nat.mod_eq_of_lt (by omega), UInt8.ofNat_toNat]
      refine ⟨by omega, ?_⟩
      rw [WriteVarInt_digit acc (Nat.mod_lt _ (by decide)), hbyte]
      simp

theorem ReadVarInt_canonical {I : UIntType} {is rest : List UInt8} {n : Nat}
    (h : ReadVarInt I is = .ok (n, rest)) : n ≤ I.max ∧ is = WriteVarInt n ++ rest := by
  simpa [readSoFar] using readVarIntLoop_canonical I is h

/-! ## Sizes -/

theorem sizeOfVarIntLoop_eq (n nRet len : Nat) :
    sizeOfVarIntLoop n nRet = nRet + (varIntDigits n len).length := by
  induction n using Nat.strong_induction_on generalizing nRet len with
  | _ n ih =>
    rw [sizeOfVarIntLoop, varIntDigits]
    split
    · simp
    · next hn =>
      have hlt : (n >>> 7) - 1 < n := by
        rw [Nat.shiftRight_eq_div_pow]
        omega
      rw [ih _ hlt (nRet + 1) (len + 1), List.length_cons]
      omega

theorem length_WriteVarInt (n : Nat) : (WriteVarInt n).length = GetSizeOfVarInt n := by
  rw [WriteVarInt, List.length_reverse, GetSizeOfVarInt, sizeOfVarIntLoop_eq n 0 0, zero_add]

/-- A number below `2 ^ (7 * j)` has at most `j` digits. -/
theorem length_varIntDigits_le {j n : Nat} (hj : 1 ≤ j) (hn : n < 2 ^ (7 * j)) (len : Nat) :
    (varIntDigits n len).length ≤ j := by
  induction n using Nat.strong_induction_on generalizing j len with
  | _ n ih =>
    rw [varIntDigits]
    split
    · simpa using hj
    · next hn' =>
      -- a second digit needs `j ≥ 2`, and the rest is below `2 ^ (7 * (j - 1))`
      have hpow : 2 ^ (7 * j) = 2 ^ (7 * (j - 1)) * 128 := by
        rw [show 7 * j = 7 * (j - 1) + 7 by omega, pow_add]
        rfl
      have hj2 : 2 ≤ j := by
        by_contra hlt
        obtain rfl : j = 1 := by omega
        omega
      have hlt : (n >>> 7) - 1 < n := by
        rw [Nat.shiftRight_eq_div_pow]
        omega
      have hrest : (n >>> 7) - 1 < 2 ^ (7 * (j - 1)) := by
        rw [Nat.shiftRight_eq_div_pow]
        omega
      have := ih _ hlt (by omega) hrest (len + 1)
      rw [List.length_cons]
      omega

/-- The encoding of a value of the type fits `tmp`. -/
theorem length_WriteVarInt_le {I : UIntType} {n : Nat} (hn : n ≤ I.max) :
    (WriteVarInt n).length ≤ CeilDiv (8 * I.size) 7 := by
  have hsize := I.size_pos
  have hceil : 8 * I.size ≤ 7 * CeilDiv (8 * I.size) 7 := by
    unfold CeilDiv
    split <;> omega
  have hpos : 1 ≤ CeilDiv (8 * I.size) 7 := by
    unfold CeilDiv
    split <;> omega
  have hlt : n < 2 ^ (7 * CeilDiv (8 * I.size) 7) := by
    have := Nat.one_le_two_pow (n := 8 * I.size)
    have := Nat.pow_le_pow_right (by decide : 0 < 2) hceil
    unfold UIntType.max at hn
    omega
  rw [WriteVarInt, List.length_reverse]
  exact length_varIntDigits_le hpos hlt 0

theorem VarInt_bijection (I : UIntType) :
    (∀ (n : Nat) (rest : List UInt8), n ≤ I.max →
      ReadVarInt I (WriteVarInt n ++ rest) = .ok (n, rest) ∧
        (WriteVarInt n).length = GetSizeOfVarInt n ∧
        (WriteVarInt n).length ≤ CeilDiv (8 * I.size) 7) ∧
    (∀ (is rest : List UInt8) (n : Nat), ReadVarInt I is = .ok (n, rest) →
      n ≤ I.max ∧ is = WriteVarInt n ++ rest) ∧
    (∀ (v : Nat) (rest : List UInt8),
      ReadVarInt I (WriteVarInt v ++ rest) =
        if v ≤ I.max then .ok (v, rest) else .error "ReadVarInt(): size too large") := by
  refine ⟨fun n rest hn => ⟨?_, length_WriteVarInt n, length_WriteVarInt_le hn⟩,
    fun is rest n h => ReadVarInt_canonical h, ReadVarInt_WriteVarInt I⟩
  rw [ReadVarInt_WriteVarInt, if_pos hn]

end Namecoin.Serialize
