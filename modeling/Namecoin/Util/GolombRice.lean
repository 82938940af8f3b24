import Namecoin.Lib.ExceptM
import Namecoin.Util.BitStream

/-! # Golomb-Rice coding (util/golombrice.h)

`GolombRiceEncode` writes `x >> P` in unary (that many ones, in writes of at
most 64, then a zero) and then the `P` low bits of `x`; `golombBits P x` is
that string of bits. `GolombRiceDecode` reads it back: on a reader whose bits
start with `golombBits P x` it returns `x` and leaves the bits after it
(`GolombRiceDecode_golombBits`). Both hold for `P < 64`; at larger `P` the
shifts `x >> P` and `q << P` of the code are undefined. -/

namespace Namecoin.Util
open Lib.Bits Lib.ExceptM

/-- The bits `GolombRiceEncode` writes for `x`. -/
def golombBits (P x : Nat) : List Bool :=
  List.replicate (x / 2 ^ P) true ++ false :: toBits P x

/-- The bits of a sequence of values, one code after another. -/
def golombStream (P : Nat) (xs : List UInt64) : List Bool :=
  xs.flatMap fun x => golombBits P x.toNat

@[simp] theorem golombStream_nil (P : Nat) : golombStream P [] = [] := rfl

@[simp] theorem golombStream_cons (P : Nat) (x : UInt64) (xs : List UInt64) :
    golombStream P (x :: xs) = golombBits P x.toNat ++ golombStream P xs := rfl

theorem unary_step_lt {q : UInt64} (h : q > 0) :
    (q - UInt64.ofNat (if q ≤ 64 then q.toNat else 64)).toNat < q.toNat := by
  by_cases hq : q ≤ 64
  · rw [if_pos hq, UInt64.ofNat_toNat, UInt64.sub_self]
    exact UInt64.lt_iff_toNat_lt.mp h
  · rw [if_neg hq]
    have hq' : 64 < q.toNat := by simpa using UInt64.lt_iff_toNat_lt.mp (UInt64.not_le.mp hq)
    have h64 : (64 : UInt64) ≤ q := UInt64.le_iff_toNat_le.mpr (by simp; omega)
    rw [show UInt64.ofNat 64 = 64 from rfl, UInt64.toNat_sub_of_le _ _ h64]
    simp
    omega

/-- The `while (q > 0)` loop of `GolombRiceEncode`. -/
def encodeUnary (w : BitStreamWriter) (q : UInt64) : Except String BitStreamWriter :=
  if q > 0 then
    let nbits := if q ≤ 64 then q.toNat else 64
    match w.Write (~~~0) nbits with
    | .error e => .error e
    | .ok w => encodeUnary w (q - UInt64.ofNat nbits)
  else pure w
termination_by q.toNat
decreasing_by exact unary_step_lt (by assumption)

/-- `GolombRiceEncode`. -/
def GolombRiceEncode (w : BitStreamWriter) (P : UInt8) (x : UInt64) :
    Except String BitStreamWriter := do
  let w ← encodeUnary w (x >>> P.toUInt64)
  let w ← w.Write 0 1
  w.Write x P.toNat

/-- The `while (bitreader.Read(1) == 1)` loop of `GolombRiceDecode`. -/
def decodeUnary (r : BitStreamReader) (q : UInt64) : Except String (UInt64 × BitStreamReader) :=
  match h : r.Read 1 with
  | .error e => .error e
  | .ok (bit, r') => if bit = 1 then decodeUnary r' (q + 1) else pure (q, r')
termination_by r.bits.length
decreasing_by have := BitStreamReader.Read_length h; omega

/-- `GolombRiceDecode`. -/
def GolombRiceDecode (r : BitStreamReader) (P : UInt8) : Except String (UInt64 × BitStreamReader) := do
  let (q, r) ← decodeUnary r 0
  let (rem, r) ← r.Read P.toNat
  pure ((q <<< P.toUInt64) + rem, r)

/-! ## Encoding -/

/-- One write of the unary loop: at most 64 bits, and all of `q` when it fits. -/
theorem unary_chunk {q : UInt64} (h : q > 0) {nbits : Nat}
    (hn : (if q ≤ 64 then q.toNat else 64) = nbits) :
    0 < nbits ∧ nbits ≤ 64 ∧ nbits ≤ q.toNat ∧ (q - UInt64.ofNat nbits).toNat = q.toNat - nbits := by
  have hq0 : 0 < q.toNat := UInt64.lt_iff_toNat_lt.mp h
  have hbound : nbits ≤ 64 ∧ nbits ≤ q.toNat ∧ 0 < nbits := by
    by_cases hq : q ≤ 64
    · rw [if_pos hq] at hn
      have := UInt64.le_iff_toNat_le.mp hq
      simp at this
      omega
    · rw [if_neg hq] at hn
      have := UInt64.lt_iff_toNat_lt.mp (UInt64.not_le.mp hq)
      simp at this
      omega
  have hle : UInt64.ofNat nbits ≤ q := by
    rw [UInt64.le_iff_toNat_le, UInt64.toNat_ofNat', Nat.mod_eq_of_lt (by omega)]
    exact hbound.2.1
  refine ⟨hbound.2.2, hbound.1, hbound.2.1, ?_⟩
  rw [UInt64.toNat_sub_of_le _ _ hle, UInt64.toNat_ofNat', Nat.mod_eq_of_lt (by omega)]

/-- The unary loop writes `q` ones. -/
theorem encodeUnary_bits (n : Nat) :
    ∀ (q : UInt64), q.toNat = n → ∀ w : BitStreamWriter, w.Clean →
      ∃ w', encodeUnary w q = .ok w' ∧ w'.bits = w.bits ++ List.replicate n true ∧ w'.Clean := by
  -- on the ones still to write
  induction n using Nat.strong_induction_on with
  | _ n ih =>
  intro q hq w hw
  rw [encodeUnary]
  by_cases h0 : q > 0
  · rw [if_pos h0]
    dsimp only
    obtain ⟨nbits, hn⟩ : ∃ nbits, (if q ≤ 64 then q.toNat else 64) = nbits := ⟨_, rfl⟩
    obtain ⟨hpos, h64, hle, hsub⟩ := unary_chunk h0 hn
    obtain ⟨hbits, hclean⟩ := BitStreamWriter.writeLoop_bits (~~~0) nbits w h64 hw
    obtain ⟨w', hrec, hbits', hclean'⟩ := ih (n - nbits) (by omega) _ (by rw [hsub, hq]) _ hclean
    refine ⟨w', ?_, ?_, hclean'⟩
    · rw [hn, BitStreamWriter.Write_eq w _ h64]
      exact hrec
    · have hones : toBits nbits (~~~(0 : UInt64)).toNat = List.replicate nbits true :=
        toBits_two_pow_sub_one h64
      rw [hbits', hbits, hones, List.append_assoc, List.replicate_append_replicate,
        Nat.add_sub_cancel' (by omega)]
  · have hq0 : q = 0 := by
      have := UInt64.lt_iff_toNat_lt.not.mp h0
      apply UInt64.toNat_inj.mp
      simp at this ⊢
      omega
    rw [if_neg h0]
    refine ⟨w, rfl, ?_, hw⟩
    rw [← hq, hq0]
    simp

theorem shiftRight_toNat (x : UInt64) {P : UInt8} (hP : P.toNat < 64) :
    (x >>> P.toUInt64).toNat = x.toNat / 2 ^ P.toNat := by
  rw [UInt64.toNat_shiftRight, UInt8.toNat_toUInt64, Nat.mod_eq_of_lt hP, Nat.shiftRight_eq_div_pow]

/-- `GolombRiceEncode` writes `golombBits`. -/
theorem GolombRiceEncode_bits (w : BitStreamWriter) (hw : w.Clean) {P : UInt8} (hP : P.toNat < 64)
    (x : UInt64) :
    ∃ w', GolombRiceEncode w P x = .ok w' ∧ w'.bits = w.bits ++ golombBits P.toNat x.toNat ∧
      w'.Clean := by
  obtain ⟨w1, h1, hbits1, hclean1⟩ :=
    encodeUnary_bits _ (x >>> P.toUInt64) (shiftRight_toNat x hP) w hw
  obtain ⟨hbits2, hclean2⟩ := BitStreamWriter.writeLoop_bits 0 1 w1 (by omega) hclean1
  obtain ⟨hbits3, hclean3⟩ :=
    BitStreamWriter.writeLoop_bits x P.toNat (BitStreamWriter.writeLoop 0 w1 1) (by omega) hclean2
  refine ⟨_, ?_, ?_, hclean3⟩
  · rw [GolombRiceEncode, h1, ok_bind, BitStreamWriter.Write_eq w1 0 (by omega), ok_bind,
      BitStreamWriter.Write_eq _ x (by omega)]
  · rw [hbits3, hbits2, hbits1, golombBits]
    simp [toBits]

/-! ## Decoding -/

theorem decodeUnary_of_Read {r r' : BitStreamReader} {bit : UInt64} (h : r.Read 1 = .ok (bit, r'))
    (q : UInt64) :
    decodeUnary r q = if bit = 1 then decodeUnary r' (q + 1) else pure (q, r') := by
  rw [decodeUnary]
  split
  · rename_i he
    rw [he] at h
    cases h
  · rename_i he
    rw [he] at h
    cases h
    rfl

/-- The unary loop counts the ones up to the first zero. -/
theorem decodeUnary_replicate (n : Nat) :
    ∀ (r : BitStreamReader) (q : UInt64) (rest : List Bool),
      r.bits = List.replicate n true ++ false :: rest →
      ∃ r', decodeUnary r q = .ok (q + UInt64.ofNat n, r') ∧ r'.bits = rest := by
  induction n with
  | zero =>
    intro r q rest h
    obtain ⟨r', hread, hbits⟩ := BitStreamReader.Read_one h
    refine ⟨r', ?_, hbits⟩
    rw [decodeUnary_of_Read hread, if_neg (by decide)]
    simp
  | succ n ih =>
    intro r q rest h
    obtain ⟨r1, hread, hbits⟩ := BitStreamReader.Read_one (b := true)
      (by rw [h, List.replicate_succ, List.cons_append])
    obtain ⟨r', hrec, hbits'⟩ := ih r1 (q + 1) rest hbits
    refine ⟨r', ?_, hbits'⟩
    have hsucc : q + 1 + UInt64.ofNat n = q + UInt64.ofNat (n + 1) := by
      rw [UInt64.add_assoc, UInt64.ofNat_add, UInt64.add_comm 1]
      rfl
    have hone : r.Read 1 = .ok (1, r1) := hread
    rw [decodeUnary_of_Read hone, if_pos rfl, hrec, hsucc]

/-- The quotient and the remainder put back together: `(q << P) + r` is `x`. -/
theorem quotient_shift_add (x : UInt64) {P : UInt8} (hP : P.toNat < 64) :
    (0 + UInt64.ofNat (x.toNat / 2 ^ P.toNat)) <<< P.toUInt64 + UInt64.ofNat (x.toNat % 2 ^ P.toNat) =
      x := by
  have hx := x.toNat_lt
  have hdiv : x.toNat / 2 ^ P.toNat ≤ x.toNat := Nat.div_le_self _ _
  have hle : x.toNat / 2 ^ P.toNat * 2 ^ P.toNat ≤ x.toNat := Nat.div_mul_le_self _ _
  have hsum : x.toNat / 2 ^ P.toNat * 2 ^ P.toNat + x.toNat % 2 ^ P.toNat = x.toNat :=
    Nat.div_add_mod' _ _
  apply UInt64.toNat_inj.mp
  rw [UInt64.zero_add, UInt64.toNat_add, UInt64.toNat_shiftLeft, UInt8.toNat_toUInt64,
    Nat.mod_eq_of_lt hP, UInt64.toNat_ofNat', UInt64.toNat_ofNat', Nat.shiftLeft_eq,
    Nat.mod_eq_of_lt (show x.toNat / 2 ^ P.toNat < 2 ^ 64 by omega),
    Nat.mod_eq_of_lt (show x.toNat / 2 ^ P.toNat * 2 ^ P.toNat < 2 ^ 64 by omega),
    Nat.mod_eq_of_lt (show x.toNat % 2 ^ P.toNat < 2 ^ 64 by omega), hsum, Nat.mod_eq_of_lt hx]

/-- `GolombRiceDecode` reads back what `GolombRiceEncode` wrote, and no more. -/
theorem GolombRiceDecode_golombBits (r : BitStreamReader) {P : UInt8} (hP : P.toNat < 64)
    (x : UInt64) (rest : List Bool) (h : r.bits = golombBits P.toNat x.toNat ++ rest) :
    ∃ r', GolombRiceDecode r P = .ok (x, r') ∧ r'.bits = rest := by
  rw [golombBits, List.append_assoc, List.cons_append] at h
  obtain ⟨r1, hunary, hbits1⟩ := decodeUnary_replicate _ r 0 _ h
  have hlen : P.toNat ≤ r1.bits.length := by rw [hbits1]; simp
  obtain ⟨r2, hread, hbits2⟩ := BitStreamReader.Read_spec r1 (show P.toNat ≤ 64 by omega) hlen
  have htake : r1.bits.take P.toNat = toBits P.toNat x.toNat := by
    rw [hbits1]
    exact List.take_left' (length_toBits _ _)
  refine ⟨r2, ?_, ?_⟩
  · rw [GolombRiceDecode, hunary, ok_bind]
    dsimp only
    rw [hread, ok_bind, htake, ofBits_toBits, quotient_shift_add x hP]
    rfl
  · rw [hbits2, hbits1]
    exact List.drop_left' (length_toBits _ _)

end Namecoin.Util
