import Namecoin.Lib.ExceptM
import Namecoin.Lib.LittleEndian

/-! # CompactSize (serialize.h)

A CompactSize is one byte below 253, and otherwise a marker byte 253, 254 or
255 followed by the number in 2, 4 or 8 little-endian bytes. The reader
throws on a marker whose number would have fitted a shorter form, so every
string it accepts is the writer's encoding of what it returns
(`ReadCompactSize_canonical`), and the writer's encoding reads back
(`ReadCompactSize_WriteCompactSize`). With `range_check` the reader also
throws above `MAX_SIZE`, and changes nothing else (`ReadCompactSize_range_check`).

The stream is the list of its unread bytes: a read returns what it read and
the bytes after it, or fails as `DataStream::read` does at the end of the
data. -/

namespace Namecoin.Serialize
open Lib.LittleEndian Lib.ExceptM

/-- `MAX_SIZE`. -/
def MAX_SIZE : UInt64 := 0x02000000

/-- `ser_readdata8`. -/
def ser_readdata8 : List UInt8 → Except String (UInt8 × List UInt8)
  | [] => throw "DataStream::read(): end of data"
  | b :: is => pure (b, is)

/-- The read of `k` bytes in `ser_readdata16`, `ser_readdata32` and
`ser_readdata64`, with the little-endian number they hold. -/
def readLE (k : Nat) (is : List UInt8) : Except String (Nat × List UInt8) :=
  if k ≤ is.length then pure (decodeLE (is.take k), is.drop k)
  else throw "DataStream::read(): end of data"

/-- `GetSizeOfCompactSize`. -/
def GetSizeOfCompactSize (nSize : UInt64) : Nat :=
  if nSize < 253 then 1
  else if nSize ≤ 0xffff then 1 + 2
  else if nSize ≤ 0xffffffff then 1 + 4
  else 1 + 8

/-- `WriteCompactSize`: the bytes it writes. -/
def WriteCompactSize (nSize : UInt64) : List UInt8 :=
  if nSize < 253 then [nSize.toUInt8]
  else if nSize ≤ 0xffff then 253 :: encodeLE 2 nSize.toNat
  else if nSize ≤ 0xffffffff then 254 :: encodeLE 4 nSize.toNat
  else 255 :: encodeLE 8 nSize.toNat

/-- The number after a marker: `k` bytes, non-canonical below `lower`. -/
def readMarked (k lower : Nat) (is : List UInt8) : Except String (UInt64 × List UInt8) := do
  let (nSizeRet, is) ← readLE k is
  if nSizeRet < lower then throw "non-canonical ReadCompactSize()"
  pure (UInt64.ofNat nSizeRet, is)

/-- The number that `ReadCompactSize` reads after the byte `chSize`. -/
def readCompactValue (chSize : UInt8) (is : List UInt8) : Except String (UInt64 × List UInt8) :=
  if chSize < 253 then pure (chSize.toUInt64, is)
  else if chSize = 253 then readMarked 2 253 is
  else if chSize = 254 then readMarked 4 0x10000 is
  else readMarked 8 0x100000000 is

/-- `ReadCompactSize`. -/
def ReadCompactSize (is : List UInt8) (range_check : Bool) :
    Except String (UInt64 × List UInt8) := do
  let (chSize, is) ← ser_readdata8 is
  let (nSizeRet, is) ← readCompactValue chSize is
  if range_check && nSizeRet > MAX_SIZE then throw "ReadCompactSize(): size too large"
  pure (nSizeRet, is)

/-! ## Fixed-width reads -/

theorem readLE_encodeLE {k n : Nat} (h : n < 256 ^ k) (rest : List UInt8) :
    readLE k (encodeLE k n ++ rest) = .ok (n, rest) := by
  have htake : (encodeLE k n ++ rest).take k = encodeLE k n :=
    List.take_left' (length_encodeLE k n)
  simp [readLE, htake, decodeLE_encodeLE h]

/-- What a fixed-width read accepts is the encoding of what it returns. -/
theorem readLE_eq_ok {k v : Nat} {is rest : List UInt8} (h : readLE k is = .ok (v, rest)) :
    v < 256 ^ k ∧ is = encodeLE k v ++ rest := by
  unfold readLE at h
  split at h
  · next hk =>
    obtain ⟨rfl, rfl⟩ := Prod.mk.inj (Except.ok.inj h)
    have hlen : (is.take k).length = k := List.length_take_of_le hk
    have hlt := decodeLE_lt (is.take k)
    rw [hlen] at hlt
    have henc : encodeLE k (decodeLE (is.take k)) = is.take k := by
      have := encodeLE_decodeLE (is.take k)
      rwa [hlen] at this
    refine ⟨hlt, ?_⟩
    rw [henc, List.take_append_drop]
  · cases h

theorem readMarked_encodeLE {k lower n : Nat} (hlo : lower ≤ n) (hhi : n < 256 ^ k)
    (rest : List UInt8) :
    readMarked k lower (encodeLE k n ++ rest) = .ok (UInt64.ofNat n, rest) := by
  simp [readMarked, readLE_encodeLE hhi, Nat.not_lt.2 hlo]

/-- What a marker read accepts is at least `lower`, fits its `k` bytes, and
is their encoding. -/
theorem readMarked_eq_ok {k lower : Nat} (hk : 256 ^ k ≤ 2 ^ 64) {is rest : List UInt8}
    {v : UInt64} (h : readMarked k lower is = .ok (v, rest)) :
    lower ≤ v.toNat ∧ v.toNat < 256 ^ k ∧ is = encodeLE k v.toNat ++ rest := by
  cases hr : readLE k is with
  | error e => simp [readMarked, hr] at h
  | ok p =>
    obtain ⟨m, r⟩ := p
    obtain ⟨hm, rfl⟩ := readLE_eq_ok hr
    simp only [readMarked, hr, ok_bind] at h
    split at h
    · cases h
    · next hlo =>
      obtain ⟨rfl, rfl⟩ := Prod.mk.inj (Except.ok.inj h)
      have hv : (UInt64.ofNat m).toNat = m := by
        simpa using Nat.mod_eq_of_lt (lt_of_lt_of_le hm hk)
      rw [hv]
      exact ⟨Nat.not_lt.1 hlo, hm, rfl⟩

/-! ## The reader -/

/-- The range check only adds the bound: it throws above `MAX_SIZE` and
changes nothing else. -/
theorem ReadCompactSize_range_check (is : List UInt8) :
    ReadCompactSize is true = (ReadCompactSize is false >>= fun p =>
      if p.1 > MAX_SIZE then throw "ReadCompactSize(): size too large" else pure p) := by
  cases is with
  | nil => rfl
  | cons b is =>
    simp only [ReadCompactSize, ser_readdata8, pure_bind]
    cases readCompactValue b is with
    | error e => rfl
    | ok p =>
      simp only [Bool.true_and, Bool.false_and, Bool.false_eq_true, if_false, ok_bind, pure_bind]
      by_cases hmax : p.1 > MAX_SIZE
      · simp only [hmax, decide_true, if_true]
        rfl
      · simp only [hmax, decide_false, Bool.false_eq_true, if_false]

/-- The writer's cases, on the number. -/
theorem WriteCompactSize_toNat (nSize : UInt64) : WriteCompactSize nSize =
    if nSize.toNat < 253 then [nSize.toUInt8]
    else if nSize.toNat ≤ 0xffff then 253 :: encodeLE 2 nSize.toNat
    else if nSize.toNat ≤ 0xffffffff then 254 :: encodeLE 4 nSize.toNat
    else 255 :: encodeLE 8 nSize.toNat := by
  simp only [WriteCompactSize, UInt64.lt_iff_toNat_lt, UInt64.le_iff_toNat_le, UInt64.reduceToNat]

theorem length_WriteCompactSize (nSize : UInt64) :
    (WriteCompactSize nSize).length = GetSizeOfCompactSize nSize := by
  unfold WriteCompactSize GetSizeOfCompactSize
  split_ifs <;> simp

/-- The encoding reads back, whatever follows it. -/
theorem readCompactValue_WriteCompactSize (nSize : UInt64) (rest : List UInt8) :
    ∃ b t, WriteCompactSize nSize = b :: t ∧ readCompactValue b (t ++ rest) = .ok (nSize, rest) := by
  have hlt := nSize.toNat_lt
  rw [WriteCompactSize_toNat]
  split_ifs with h1 h2 h3
  · refine ⟨_, _, rfl, ?_⟩
    -- one byte: it is below 253, and widens back to `nSize`
    have hb : nSize.toUInt8.toUInt64 = nSize := by
      apply UInt64.toNat_inj.1
      simp only [UInt8.toNat_toUInt64, UInt64.toNat_toUInt8]
      omega
    have hb' : nSize.toUInt8 < 253 := by
      simp only [UInt8.lt_iff_toNat_lt, UInt64.toNat_toUInt8, UInt8.reduceToNat]
      omega
    simp [readCompactValue, hb, hb']
  all_goals refine ⟨_, _, rfl, ?_⟩
  · rw [readCompactValue, if_neg (by decide), if_pos rfl,
      readMarked_encodeLE (by omega) (by omega), UInt64.ofNat_toNat]
  · rw [readCompactValue, if_neg (by decide), if_neg (by decide), if_pos rfl,
      readMarked_encodeLE (by omega) (by omega), UInt64.ofNat_toNat]
  · rw [readCompactValue, if_neg (by decide), if_neg (by decide), if_neg (by decide),
      readMarked_encodeLE (by omega) (by omega), UInt64.ofNat_toNat]

theorem ReadCompactSize_WriteCompactSize (nSize : UInt64) (rest : List UInt8) :
    ReadCompactSize (WriteCompactSize nSize ++ rest) false = .ok (nSize, rest) := by
  obtain ⟨b, t, hw, hr⟩ := readCompactValue_WriteCompactSize nSize rest
  rw [hw, List.cons_append]
  simp [ReadCompactSize, ser_readdata8, hr]

/-- With the range check, the writer's encoding reads back up to `MAX_SIZE`. -/
theorem ReadCompactSize_WriteCompactSize_checked (nSize : UInt64) (rest : List UInt8) :
    ReadCompactSize (WriteCompactSize nSize ++ rest) true =
      if nSize > MAX_SIZE then .error "ReadCompactSize(): size too large" else .ok (nSize, rest) := by
  rw [ReadCompactSize_range_check, ReadCompactSize_WriteCompactSize, ok_bind]
  rfl

/-- What the reader accepts after its first byte makes, with that byte, the
encoding of the number it returns. -/
theorem readCompactValue_eq_ok {b : UInt8} {is rest : List UInt8} {nSize : UInt64}
    (h : readCompactValue b is = .ok (nSize, rest)) : b :: is = WriteCompactSize nSize ++ rest := by
  have hb256 := b.toNat_lt
  rw [WriteCompactSize_toNat]
  unfold readCompactValue at h
  split_ifs at h with h1 h2 h3
  · -- one byte below 253
    obtain ⟨rfl, rfl⟩ := Prod.mk.inj (Except.ok.inj h)
    simp only [UInt8.lt_iff_toNat_lt, UInt8.reduceToNat] at h1
    have hb : b.toUInt64.toUInt8 = b := by
      apply UInt8.toNat_inj.1
      simp only [UInt64.toNat_toUInt8, UInt8.toNat_toUInt64]
      omega
    rw [if_pos (by simpa using h1), hb]
    rfl
  all_goals
    obtain ⟨hlo, hhi, rfl⟩ := readMarked_eq_ok (by decide) h
  · -- 253 and two bytes, from 253 on
    subst h2
    rw [if_neg (by omega), if_pos (by omega)]
    rfl
  · -- 254 and four bytes, from 2^16 on
    subst h3
    rw [if_neg (by omega), if_neg (by omega), if_pos (by omega)]
    rfl
  · -- any other byte is 255, with eight bytes from 2^32 on
    have h255 : b = 255 := by
      simp only [UInt8.lt_iff_toNat_lt, UInt8.reduceToNat, Nat.not_lt] at h1
      have h2' : b.toNat ≠ 253 := fun h => h2 (UInt8.toNat_inj.1 h)
      have h3' : b.toNat ≠ 254 := fun h => h3 (UInt8.toNat_inj.1 h)
      apply UInt8.toNat_inj.1
      simp only [UInt8.reduceToNat]
      omega
    subst h255
    rw [if_neg (by omega), if_neg (by omega), if_neg (by omega)]
    rfl

/-- Every string the reader accepts without the range check is the encoding
of what it returns. -/
theorem ReadCompactSize_canonical {is rest : List UInt8} {nSize : UInt64}
    (h : ReadCompactSize is false = .ok (nSize, rest)) : is = WriteCompactSize nSize ++ rest := by
  cases is with
  | nil => cases h
  | cons b is =>
    apply readCompactValue_eq_ok
    simp only [ReadCompactSize, ser_readdata8, pure_bind] at h
    cases hv : readCompactValue b is with
    | error e => rw [hv] at h; cases h
    | ok p => rw [hv] at h; simpa using h

theorem CompactSize_canonical :
    (∀ (nSize : UInt64) (rest : List UInt8),
      ReadCompactSize (WriteCompactSize nSize ++ rest) false = .ok (nSize, rest)) ∧
    (∀ nSize : UInt64, (WriteCompactSize nSize).length = GetSizeOfCompactSize nSize) ∧
    (∀ (is : List UInt8) (range_check : Bool) (nSize : UInt64) (rest : List UInt8),
      ReadCompactSize is range_check = .ok (nSize, rest) → is = WriteCompactSize nSize ++ rest) ∧
    (∀ (is : List UInt8) (nSize : UInt64) (rest : List UInt8),
      ReadCompactSize is false = .ok (nSize, rest) →
        ReadCompactSize is true =
          if MAX_SIZE < nSize then .error "ReadCompactSize(): size too large"
          else .ok (nSize, rest)) ∧
    (∀ (is : List UInt8) (e : String),
      ReadCompactSize is false = .error e → ReadCompactSize is true = .error e) := by
  refine ⟨ReadCompactSize_WriteCompactSize, length_WriteCompactSize, ?_, ?_, ?_⟩
  · intro is range_check nSize rest h
    cases range_check with
    | false => exact ReadCompactSize_canonical h
    | true =>
      -- the check passed, so the read without it returned the same
      rw [ReadCompactSize_range_check] at h
      cases hf : ReadCompactSize is false with
      | error e => rw [hf] at h; cases h
      | ok p =>
        rw [hf, ok_bind] at h
        split at h
        · cases h
        · cases h
          exact ReadCompactSize_canonical hf
  · intro is nSize rest h
    rw [ReadCompactSize_range_check, h, ok_bind]
    rfl
  · intro is e h
    rw [ReadCompactSize_range_check, h]
    rfl

end Namecoin.Serialize
