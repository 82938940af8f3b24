import Mathlib.Algebra.Order.Group.Nat
import Mathlib.Tactic.Ring
import Namecoin.Lib.Bits

/-! # Bit streams (streams.h)

`BitStreamWriter` packs bits into bytes, the most significant bit first: it
keeps the byte being filled in `m_buffer`, with `m_offset` of its high bits
written, and sends it out when it is full or on `Flush`, padded with zeros.
`BitStreamReader` reads bytes back one at a time into its buffer.

Each side stands for a string of bits (`BitStreamWriter.bits`,
`BitStreamReader.bits`). Writing `nbits` bits of `data` appends their
`nbits` low bits (`BitStreamWriter.writeLoop_bits`), and reading `nbits`
bits returns, and removes, the first `nbits` (`BitStreamReader.readLoop_spec`).
The shifts of the code are exact there: `chunk_toNat` and `readChunk_toNat`
say which bits each turn moves. -/

namespace Namecoin.Util
open Lib.Bits

/-- `BitStreamWriter`: the bytes it has written, and `m_buffer` with its
`m_offset` high bits written. -/
structure BitStreamWriter where
  ostream : List UInt8
  buffer : UInt8
  offset : Nat
  offset_lt : offset < 8

namespace BitStreamWriter

/-- A writer on an empty stream. -/
def init : BitStreamWriter := ⟨[], 0, 0, by decide⟩

/-- `Flush`. -/
def Flush (w : BitStreamWriter) : BitStreamWriter :=
  if w.offset = 0 then w else ⟨w.ostream ++ [w.buffer], 0, 0, by decide⟩

/-- What a turn of `Write` ORs into the buffer:
`(data << (64 - nbits)) >> (64 - 8 + m_offset)`. -/
def chunk (data : UInt64) (nbits offset : Nat) : UInt8 :=
  ((data <<< UInt64.ofNat (64 - nbits)) >>> UInt64.ofNat (64 - 8 + offset)).toUInt8

/-- The `while (nbits > 0)` loop of `Write`; at `m_offset == 8` it flushes. -/
def writeLoop (data : UInt64) (w : BitStreamWriter) (nbits : Nat) : BitStreamWriter :=
  if nbits = 0 then w
  else
    let bits := min (8 - w.offset) nbits
    let buffer := w.buffer ||| chunk data nbits w.offset
    if h : w.offset + bits = 8 then
      writeLoop data ⟨w.ostream ++ [buffer], 0, 0, by decide⟩ (nbits - bits)
    else
      writeLoop data ⟨w.ostream, buffer, w.offset + bits, by have := w.offset_lt; omega⟩
        (nbits - bits)
termination_by nbits
decreasing_by
  all_goals
    have h := w.offset_lt
    omega

/-- `Write`. -/
def Write (w : BitStreamWriter) (data : UInt64) (nbits : Nat) : Except String BitStreamWriter :=
  if nbits > 64 then throw "nbits must be between 0 and 64" else pure (writeLoop data w nbits)

/-- The bits written so far: those of the bytes out, then the high bits of the buffer. -/
def bits (w : BitStreamWriter) : List Bool :=
  bytesToBits w.ostream ++ toBits w.offset (w.buffer.toNat / 2 ^ (8 - w.offset))

/-- The bits of the buffer below the written ones are 0. -/
def Clean (w : BitStreamWriter) : Prop := w.buffer.toNat % 2 ^ (8 - w.offset) = 0

theorem init_clean : init.Clean := rfl

@[simp] theorem init_bits : init.bits = [] := rfl

/-! ## The writer appends bits -/

/-- `data << (64 - nbits)`: the `nbits` low bits of `data`, at the top of the word. -/
theorem shiftLeft_toNat (data : UInt64) {nbits : Nat} (h0 : 0 < nbits) (h64 : nbits ≤ 64) :
    (data <<< UInt64.ofNat (64 - nbits)).toNat = data.toNat % 2 ^ nbits * 2 ^ (64 - nbits) := by
  have hs : (UInt64.ofNat (64 - nbits)).toNat % 64 = 64 - nbits := by
    rw [UInt64.toNat_ofNat']; omega
  have hsplit : (2 : Nat) ^ 64 = 2 ^ nbits * 2 ^ (64 - nbits) := by
    rw [← pow_add, Nat.add_sub_cancel' h64]
  rw [UInt64.toNat_shiftLeft, hs, Nat.shiftLeft_eq, hsplit, Nat.mul_mod_mul_right]

/-- What the shift right by `64 - 8 + o` keeps of `v` at the top of the word: the
next `min (8 - o) nbits` bits of `v`, just below the `o` bits already written. -/
theorem window_eq {v nbits o : Nat} (hv : v < 2 ^ nbits) (h64 : nbits ≤ 64) (ho : o < 8) :
    v * 2 ^ (64 - nbits) / 2 ^ (64 - 8 + o) % 2 ^ 8 =
      v / 2 ^ (nbits - min (8 - o) nbits) * 2 ^ (8 - o - min (8 - o) nbits) := by
  by_cases hle : 8 - o ≤ nbits
  · -- the byte fills up with the top `8 - o` bits of `v`
    rw [Nat.min_eq_left hle, Nat.sub_self, pow_zero, Nat.mul_one]
    have hsplit : 2 ^ (64 - 8 + o) = 2 ^ (64 - nbits) * 2 ^ (nbits - (8 - o)) := by
      rw [← pow_add]; congr 1; omega
    have hv' : v < 2 ^ 8 * 2 ^ (nbits - (8 - o)) :=
      calc v < 2 ^ nbits := hv
        _ = 2 ^ (8 - o) * 2 ^ (nbits - (8 - o)) := by rw [← pow_add]; congr 1; omega
        _ ≤ 2 ^ 8 * 2 ^ (nbits - (8 - o)) :=
          Nat.mul_le_mul_right _ (Nat.pow_le_pow_right (by omega) (by omega))
    rw [hsplit, Nat.mul_comm v, Nat.mul_div_mul_left _ _ (Nat.two_pow_pos _)]
    exact Nat.mod_eq_of_lt ((Nat.div_lt_iff_lt_mul (Nat.two_pow_pos _)).mpr hv')
  · -- all of `v` goes in, above `8 - o - nbits` zero bits
    have hlt : nbits < 8 - o := by omega
    rw [Nat.min_eq_right hlt.le, Nat.sub_self, pow_zero, Nat.div_one]
    have hsplit : 2 ^ (64 - nbits) = 2 ^ (64 - 8 + o) * 2 ^ (8 - o - nbits) := by
      rw [← pow_add]; congr 1; omega
    have hv' : v * 2 ^ (8 - o - nbits) < 2 ^ 8 :=
      calc v * 2 ^ (8 - o - nbits) < 2 ^ nbits * 2 ^ (8 - o - nbits) :=
            Nat.mul_lt_mul_of_pos_right hv (Nat.two_pow_pos _)
        _ = 2 ^ (8 - o) := by rw [← pow_add]; congr 1; omega
        _ ≤ 2 ^ 8 := Nat.pow_le_pow_right (by omega) (by omega)
    rw [hsplit, Nat.mul_left_comm, Nat.mul_div_cancel_left _ (Nat.two_pow_pos _)]
    exact Nat.mod_eq_of_lt hv'

theorem chunk_toNat (data : UInt64) {nbits o : Nat} (h0 : 0 < nbits) (h64 : nbits ≤ 64)
    (ho : o < 8) :
    (chunk data nbits o).toNat =
      data.toNat % 2 ^ nbits / 2 ^ (nbits - min (8 - o) nbits) * 2 ^ (8 - o - min (8 - o) nbits) := by
  have hs : (UInt64.ofNat (64 - 8 + o)).toNat % 64 = 64 - 8 + o := by
    rw [UInt64.toNat_ofNat']; omega
  rw [chunk, UInt64.toNat_toUInt8, UInt64.toNat_shiftRight, shiftLeft_toNat data h0 h64, hs,
    Nat.shiftRight_eq_div_pow]
  exact window_eq (Nat.mod_lt _ (Nat.two_pow_pos _)) h64 ho

/-- One turn of the loop on the buffer: the next `bits` bits of `data` go in below the
written ones, and the bits below those stay 0. -/
theorem buffer_step (w : BitStreamWriter) (hw : w.Clean) (data : UInt64) {nbits : Nat}
    (h0 : 0 < nbits) (h64 : nbits ≤ 64) :
    toBits (w.offset + min (8 - w.offset) nbits)
        ((w.buffer ||| chunk data nbits w.offset).toNat /
          2 ^ (8 - (w.offset + min (8 - w.offset) nbits))) =
      toBits w.offset (w.buffer.toNat / 2 ^ (8 - w.offset)) ++
        toBits (min (8 - w.offset) nbits) (data.toNat / 2 ^ (nbits - min (8 - w.offset) nbits)) ∧
    (w.buffer ||| chunk data nbits w.offset).toNat %
      2 ^ (8 - (w.offset + min (8 - w.offset) nbits)) = 0 := by
  have ho := w.offset_lt
  obtain ⟨bits, hbits⟩ : ∃ bits, min (8 - w.offset) nbits = bits := ⟨_, rfl⟩
  obtain ⟨k, hk⟩ : ∃ k, 8 - (w.offset + bits) = k := ⟨_, rfl⟩
  have hpow : 2 ^ (8 - w.offset) = 2 ^ k * 2 ^ bits := by
    rw [← pow_add]; congr 1; omega
  -- the part of `data` that goes in this turn
  obtain ⟨c, hcdef⟩ : ∃ c, data.toNat % 2 ^ nbits / 2 ^ (nbits - bits) = c := ⟨_, rfl⟩
  have hc : c < 2 ^ bits := by
    rw [← hcdef, Nat.div_lt_iff_lt_mul (Nat.two_pow_pos _), ← pow_add,
      show bits + (nbits - bits) = nbits by omega]
    exact Nat.mod_lt _ (Nat.two_pow_pos _)
  have hchunk : (chunk data nbits w.offset).toNat = c * 2 ^ k := by
    rw [chunk_toNat data h0 h64 ho, hbits, hcdef, Nat.sub_sub, hk]
  obtain ⟨H, hH⟩ : ∃ H, w.buffer.toNat / 2 ^ (8 - w.offset) = H := ⟨_, rfl⟩
  have hbuffer : w.buffer.toNat = 2 ^ (8 - w.offset) * H := by
    rw [← hH]; exact (Nat.mul_div_cancel' (Nat.dvd_of_mod_eq_zero hw)).symm
  have hor : (w.buffer ||| chunk data nbits w.offset).toNat = 2 ^ k * (2 ^ bits * H + c) := by
    have hlt : c * 2 ^ k < 2 ^ (8 - w.offset) := by
      rw [hpow, Nat.mul_comm (2 ^ k)]
      exact Nat.mul_lt_mul_of_pos_right hc (Nat.two_pow_pos _)
    rw [UInt8.toNat_or, hchunk, hbuffer, ← Nat.two_pow_add_eq_or_of_lt hlt, hpow]
    ring
  have hlow : toBits bits c = toBits bits (data.toNat / 2 ^ (nbits - bits)) := by
    have h := toBits_mod_div (nbits - bits) bits data.toNat
    rwa [Nat.sub_add_cancel (show bits ≤ nbits by omega), hcdef] at h
  rw [hbits, hk, hor, hH, Nat.mul_div_cancel_left _ (Nat.two_pow_pos _), Nat.mul_mod_right,
    toBits_add_mul _ _ _ _ hc, hlow]
  exact ⟨rfl, rfl⟩

/-- The write loop appends the `nbits` low bits of `data`, and keeps the buffer clean. -/
theorem writeLoop_bits (data : UInt64) (nbits : Nat) :
    ∀ w : BitStreamWriter, nbits ≤ 64 → w.Clean →
      (writeLoop data w nbits).bits = w.bits ++ toBits nbits data.toNat ∧
        (writeLoop data w nbits).Clean := by
  -- on the bits still to write, as the loop's `nbits -= bits`
  induction nbits using Nat.strong_induction_on with
  | _ nbits ih =>
  intro w h64 hw
  by_cases h0 : nbits = 0
  · subst h0
    rw [writeLoop, if_pos rfl]
    exact ⟨by simp [toBits], hw⟩
  have ho := w.offset_lt
  obtain ⟨hstep, hclean⟩ := buffer_step w hw data (Nat.pos_of_ne_zero h0) h64
  have hsplit : toBits nbits data.toNat =
      toBits (min (8 - w.offset) nbits) (data.toNat / 2 ^ (nbits - min (8 - w.offset) nbits)) ++
        toBits (nbits - min (8 - w.offset) nbits) data.toNat := by
    rw [← toBits_add, Nat.add_sub_cancel' (Nat.min_le_right _ _)]
  have hlt : nbits - min (8 - w.offset) nbits < nbits := by omega
  rw [writeLoop, if_neg h0]
  dsimp only
  by_cases hfull : w.offset + min (8 - w.offset) nbits = 8
  · -- the buffer is full and goes out; the rest starts on a fresh byte
    rw [dif_pos hfull]
    rw [hfull, Nat.sub_self, pow_zero, Nat.div_one] at hstep
    obtain ⟨ih1, ih2⟩ := ih _ hlt ⟨w.ostream ++ [w.buffer ||| chunk data nbits w.offset], 0, 0,
      by decide⟩ (by omega) rfl
    refine ⟨?_, ih2⟩
    rw [ih1, hsplit, bits, bits]
    simp only [bytesToBits_append, bytesToBits_cons, bytesToBits_nil, List.append_nil, hstep,
      toBits.eq_1, List.append_assoc]
  · rw [dif_neg hfull]
    obtain ⟨ih1, ih2⟩ := ih _ hlt ⟨w.ostream, w.buffer ||| chunk data nbits w.offset,
      w.offset + min (8 - w.offset) nbits, by omega⟩ (by omega) hclean
    refine ⟨?_, ih2⟩
    rw [ih1, hsplit, bits, bits]
    simp only [hstep, List.append_assoc]

theorem Write_eq (w : BitStreamWriter) (data : UInt64) {nbits : Nat} (h64 : nbits ≤ 64) :
    w.Write data nbits = .ok (writeLoop data w nbits) := by
  rw [Write, if_neg (by omega)]
  rfl

/-- `Flush` pads the bits written with fewer than 8 zeros up to a byte. -/
theorem Flush_bits (w : BitStreamWriter) (hw : w.Clean) :
    bytesToBits (Flush w).ostream = w.bits ++ List.replicate ((8 - w.offset) % 8) false ∧
      (Flush w).offset = 0 := by
  by_cases h0 : w.offset = 0
  · rw [Flush, if_pos h0, bits, h0]
    simp [toBits]
  · have ho := w.offset_lt
    -- the buffer's last `8 - offset` bits are the zeros of `Clean`
    have hbyte : toBits 8 w.buffer.toNat =
        toBits w.offset (w.buffer.toNat / 2 ^ (8 - w.offset)) ++ List.replicate (8 - w.offset) false := by
      rw [← toBits_zero, ← hw, toBits_mod, ← toBits_add, Nat.add_sub_cancel' ho.le]
    rw [Flush, if_neg h0, bits, Nat.mod_eq_of_lt (show 8 - w.offset < 8 by omega)]
    simp [hbyte]

end BitStreamWriter

/-- `BitStreamReader`: the bytes not read yet, and `m_buffer` with its
`m_offset` high bits returned; at 8 the buffer is used up. -/
structure BitStreamReader where
  istream : List UInt8
  buffer : UInt8
  offset : Nat
  offset_le : offset ≤ 8

namespace BitStreamReader

/-- A reader on `istream`. -/
def init (istream : List UInt8) : BitStreamReader := ⟨istream, 0, 8, le_rfl⟩

/-- `m_istream >> m_buffer` once the buffer is used up. -/
def refill (r : BitStreamReader) : Except String {r' : BitStreamReader // r'.offset < 8} :=
  if h : r.offset = 8 then
    match r.istream with
    | [] => throw "SpanReader::read(): end of data"
    | b :: is => pure ⟨⟨is, b, 0, Nat.zero_le 8⟩, Nat.zero_lt_succ 7⟩
  else pure ⟨r, Nat.lt_of_le_of_ne r.offset_le h⟩

/-- What a turn of `Read` takes from the buffer:
`static_cast<uint8_t>(m_buffer << m_offset) >> (8 - bits)`. -/
def readChunk (buffer : UInt8) (offset bits : Nat) : UInt8 :=
  UInt8.ofNat (buffer.toNat <<< offset) >>> UInt8.ofNat (8 - bits)

/-- The `while (nbits > 0)` loop of `Read`, with the bits read so far in `data`. -/
def readLoop (r : BitStreamReader) (nbits : Nat) (data : UInt64) :
    Except String (UInt64 × BitStreamReader) :=
  if nbits = 0 then pure (data, r)
  else
    match r.refill with
    | .error e => .error e
    | .ok ⟨r, hr⟩ =>
      let bits := min (8 - r.offset) nbits
      let data := (data <<< UInt64.ofNat bits) ||| (readChunk r.buffer r.offset bits).toUInt64
      readLoop ⟨r.istream, r.buffer, r.offset + bits, by omega⟩ (nbits - bits) data
termination_by nbits
decreasing_by omega

/-- `Read`. -/
def Read (r : BitStreamReader) (nbits : Nat) : Except String (UInt64 × BitStreamReader) :=
  if nbits > 64 then throw "nbits must be between 0 and 64" else readLoop r nbits 0

/-- The bits not read yet: those left in the buffer, then those of the bytes. -/
def bits (r : BitStreamReader) : List Bool :=
  toBits (8 - r.offset) r.buffer.toNat ++ bytesToBits r.istream

@[simp] theorem init_bits (istream : List UInt8) : (init istream).bits = bytesToBits istream := rfl

theorem length_bits (r : BitStreamReader) :
    r.bits.length = 8 - r.offset + 8 * r.istream.length := by
  simp [bits]

/-! ## The reader takes bits off the front -/

/-- A refill changes no bit, and fails only with no bits left. -/
theorem refill_bits (r : BitStreamReader) (h : r.bits ≠ []) :
    ∃ r' : {r' : BitStreamReader // r'.offset < 8}, r.refill = .ok r' ∧ r'.1.bits = r.bits := by
  by_cases h8 : r.offset = 8
  · match hs : r.istream with
    | [] => exact absurd (by simp [bits, h8, hs, toBits]) h
    | b :: is =>
      refine ⟨⟨⟨is, b, 0, Nat.zero_le 8⟩, Nat.zero_lt_succ 7⟩, ?_, ?_⟩
      · rw [refill, dif_pos h8]
        simp only [hs]
        rfl
      · simp [bits, h8, hs, toBits]
  · exact ⟨⟨r, Nat.lt_of_le_of_ne r.offset_le h8⟩, by rw [refill, dif_neg h8]; rfl, rfl⟩

theorem readChunk_toNat (b : UInt8) {o bits : Nat} (h1 : 0 < bits) (h : o + bits ≤ 8) :
    (readChunk b o bits).toNat = b.toNat % 2 ^ (8 - o) / 2 ^ (8 - o - bits) := by
  have hs : (8 - bits) % 2 ^ 8 % 8 = 8 - bits := by omega
  have h256 : (2 : Nat) ^ 8 = 2 ^ (8 - o) * 2 ^ o := by
    rw [← pow_add]; congr 1; omega
  have hsplit : 2 ^ (8 - bits) = 2 ^ o * 2 ^ (8 - o - bits) := by
    rw [← pow_add]; congr 1; omega
  rw [readChunk, UInt8.toNat_shiftRight, UInt8.toNat_ofNat', UInt8.toNat_ofNat', hs,
    Nat.shiftLeft_eq, Nat.shiftRight_eq_div_pow, h256, Nat.mul_mod_mul_right, hsplit,
    Nat.mul_comm _ (2 ^ o), Nat.mul_div_mul_left _ _ (Nat.two_pow_pos _)]

/-- `data <<= bits; data |= x` for a chunk `x` of `bits` bits. -/
theorem shift_or_eq (data : UInt64) (x : UInt8) {bits : Nat} (h : bits < 64)
    (hx : x.toNat < 2 ^ bits) :
    (data <<< UInt64.ofNat bits ||| x.toUInt64) = UInt64.ofNat (data.toNat * 2 ^ bits + x.toNat) := by
  have hs : (UInt64.ofNat bits).toNat % 64 = bits := by
    rw [UInt64.toNat_ofNat']; omega
  have h64 : (2 : Nat) ^ 64 = 2 ^ bits * 2 ^ (64 - bits) := by
    rw [← pow_add]; congr 1; omega
  apply UInt64.toNat_inj.mp
  rw [UInt64.toNat_or, UInt64.toNat_shiftLeft, hs, Nat.shiftLeft_eq, UInt8.toNat_toUInt64,
    UInt64.toNat_ofNat', h64, Nat.mul_comm _ (2 ^ bits), Nat.mul_mod_mul_left,
    ← Nat.two_pow_add_eq_or_of_lt hx, Nat.mod_mul, Nat.mul_add_mod, Nat.mod_eq_of_lt hx,
    Nat.mul_add_div (Nat.two_pow_pos _), Nat.div_eq_of_lt hx, Nat.add_zero, Nat.add_comm]

/-- A later shift of the accumulator does not see its earlier wrap-around. -/
theorem ofNat_toNat_mul_add (x p c : Nat) :
    UInt64.ofNat ((UInt64.ofNat x).toNat * p + c) = UInt64.ofNat (x * p + c) := by
  apply UInt64.toNat_inj.mp
  rw [UInt64.toNat_ofNat', UInt64.toNat_ofNat', UInt64.toNat_ofNat', Nat.add_mod, Nat.mod_mul_mod,
    ← Nat.add_mod]

/-- A turn that takes `k` bits off a refilled buffer takes the first `k` bits. -/
theorem bits_turn (r : BitStreamReader) {k : Nat} (h1 : 0 < k) (h : r.offset + k ≤ 8) :
    r.bits = toBits k (readChunk r.buffer r.offset k).toNat ++
      (⟨r.istream, r.buffer, r.offset + k, h⟩ : BitStreamReader).bits := by
  have hsplit : toBits (8 - r.offset) r.buffer.toNat =
      toBits k (r.buffer.toNat / 2 ^ (8 - r.offset - k)) ++ toBits (8 - r.offset - k) r.buffer.toNat := by
    rw [← toBits_add]; congr 1; omega
  have hchunk := toBits_mod_div (8 - r.offset - k) k r.buffer.toNat
  rw [show 8 - r.offset - k + k = 8 - r.offset by omega] at hchunk
  rw [readChunk_toNat _ h1 h, hchunk, bits, bits, hsplit, List.append_assoc, Nat.sub_sub]

theorem readChunk_lt (b : UInt8) {o bits : Nat} (h1 : 0 < bits) (h : o + bits ≤ 8) :
    (readChunk b o bits).toNat < 2 ^ bits := by
  rw [readChunk_toNat _ h1 h, Nat.div_lt_iff_lt_mul (Nat.two_pow_pos _), ← pow_add,
    show bits + (8 - o - bits) = 8 - o by omega]
  exact Nat.mod_lt _ (Nat.two_pow_pos _)

/-- The read loop, given enough bits, appends the next `nbits` bits to `data` and
removes them. -/
theorem readLoop_spec (nbits : Nat) :
    ∀ (r : BitStreamReader) (data : UInt64), nbits ≤ r.bits.length →
      ∃ r', r.readLoop nbits data =
          .ok (UInt64.ofNat (data.toNat * 2 ^ nbits + ofBits (r.bits.take nbits)), r') ∧
        r'.bits = r.bits.drop nbits := by
  -- on the bits still to read, as the loop's `nbits -= bits`
  induction nbits using Nat.strong_induction_on with
  | _ nbits ih =>
  intro r data hlen
  by_cases h0 : nbits = 0
  · subst h0
    refine ⟨r, ?_, rfl⟩
    have hdata : UInt64.ofNat (data.toNat * 2 ^ 0 + ofBits (r.bits.take 0)) = data := by
      simp only [pow_zero, Nat.mul_one, List.take_zero, ofBits, Nat.add_zero, UInt64.ofNat_toNat]
    rw [readLoop, if_pos rfl, hdata]
    rfl
  have hne : r.bits ≠ [] := fun h => by rw [h] at hlen; simp at hlen; omega
  obtain ⟨⟨r1, hr1⟩, hrefill, hbits1⟩ := refill_bits r hne
  obtain ⟨bits, hbits⟩ : ∃ bits, min (8 - r1.offset) nbits = bits := ⟨_, rfl⟩
  have h1 : 0 < bits := by omega
  have hle : r1.offset + bits ≤ 8 := by omega
  have hsplit := bits_turn r1 h1 hle
  have hc := readChunk_lt r1.buffer h1 hle
  obtain ⟨c, hcdef⟩ : ∃ c, (readChunk r1.buffer r1.offset bits).toNat = c := ⟨_, rfl⟩
  rw [hcdef] at hsplit hc
  have hlen' : nbits - bits ≤ (⟨r1.istream, r1.buffer, r1.offset + bits, hle⟩ : BitStreamReader).bits.length := by
    rw [← hbits1, hsplit] at hlen
    simp only [List.length_append, length_toBits] at hlen
    omega
  obtain ⟨r', hr', hbits'⟩ := ih (nbits - bits) (by omega) _
    (UInt64.ofNat (data.toNat * 2 ^ bits + c)) hlen'
  -- the first `bits` bits, then the rest of the `nbits`
  have htake : ofBits (r.bits.take nbits) =
      c * 2 ^ (nbits - bits) +
        ofBits ((⟨r1.istream, r1.buffer, r1.offset + bits, hle⟩ : BitStreamReader).bits.take
          (nbits - bits)) := by
    rw [← hbits1, hsplit, List.take_append, List.take_of_length_le (by simp; omega),
      ofBits_append, ofBits_toBits, Nat.mod_eq_of_lt hc, length_toBits, List.length_take,
      Nat.min_eq_left hlen']
  refine ⟨r', ?_, ?_⟩
  · rw [readLoop, if_neg h0, hrefill]
    dsimp only
    simp only [hbits]
    rw [shift_or_eq data _ (by omega) (hcdef ▸ hc), hcdef, hr', ofNat_toNat_mul_add, htake,
      show 2 ^ nbits = 2 ^ bits * 2 ^ (nbits - bits) by rw [← pow_add]; congr 1; omega]
    congr 3
    ring
  · have hdrop : (toBits bits c).drop nbits = [] :=
      List.drop_of_length_le (by rw [length_toBits]; omega)
    rw [hbits', ← hbits1, hsplit, List.drop_append, hdrop, length_toBits, List.nil_append]

theorem refill_ok_bits {r : BitStreamReader} {r' : {r' : BitStreamReader // r'.offset < 8}}
    (h : r.refill = .ok r') : r'.1.bits = r.bits := by
  by_cases hne : r.bits = []
  · -- an empty reader has nothing to refill from
    have hlen : 8 - r.offset + 8 * r.istream.length = 0 := by rw [← length_bits, hne]; rfl
    have h8 : r.offset = 8 := by have := r.offset_le; omega
    have his : r.istream = [] := List.eq_nil_of_length_eq_zero (by omega)
    rw [refill, dif_pos h8] at h
    simp only [his] at h
    cases h
  · obtain ⟨r1, h1, hbits⟩ := refill_bits r hne
    rw [h1] at h
    cases h
    exact hbits

/-- Every successful read loop takes exactly `nbits` bits. -/
theorem readLoop_length (nbits : Nat) :
    ∀ (r : BitStreamReader) (data v : UInt64) (r' : BitStreamReader),
      r.readLoop nbits data = .ok (v, r') → r'.bits.length + nbits = r.bits.length := by
  induction nbits using Nat.strong_induction_on with
  | _ nbits ih =>
  intro r data v r' h
  rw [readLoop] at h
  by_cases h0 : nbits = 0
  · rw [if_pos h0] at h
    cases h
    omega
  rw [if_neg h0] at h
  match hr : r.refill with
  | .error e => rw [hr] at h; cases h
  | .ok ⟨r1, hr1⟩ =>
    rw [hr] at h
    have hle : r1.offset + min (8 - r1.offset) nbits ≤ 8 := by omega
    have hsplit := bits_turn r1 (show 0 < min (8 - r1.offset) nbits by omega) hle
    have hlen := congrArg List.length hsplit
    have hnext := ih _ (by omega) _ _ v r' h
    rw [← refill_ok_bits hr]
    simp only [List.length_append, length_toBits, length_bits] at hlen hnext ⊢
    omega

theorem Read_eq (r : BitStreamReader) {nbits : Nat} (h64 : nbits ≤ 64) :
    r.Read nbits = r.readLoop nbits 0 := by
  rw [Read, if_neg (by omega)]

theorem Read_spec (r : BitStreamReader) {nbits : Nat} (h64 : nbits ≤ 64)
    (hlen : nbits ≤ r.bits.length) :
    ∃ r', r.Read nbits = .ok (UInt64.ofNat (ofBits (r.bits.take nbits)), r') ∧
      r'.bits = r.bits.drop nbits := by
  obtain ⟨r', h, hbits⟩ := readLoop_spec nbits r 0 hlen
  exact ⟨r', by rw [Read_eq r h64, h]; simp, hbits⟩

theorem Read_length {r r' : BitStreamReader} {nbits : Nat} {v : UInt64}
    (h : r.Read nbits = .ok (v, r')) : r'.bits.length + nbits = r.bits.length := by
  by_cases h64 : nbits ≤ 64
  · rw [Read_eq r h64] at h
    exact readLoop_length nbits r 0 v r' h
  · rw [Read, if_pos (by omega)] at h
    cases h

/-- One bit: 1 or 0. -/
theorem Read_one {r : BitStreamReader} {b : Bool} {rest : List Bool} (h : r.bits = b :: rest) :
    ∃ r', r.Read 1 = .ok (if b then 1 else 0, r') ∧ r'.bits = rest := by
  obtain ⟨r', hread, hbits⟩ := Read_spec r (show 1 ≤ 64 by omega) (by rw [h]; simp)
  refine ⟨r', ?_, by rw [hbits, h]; rfl⟩
  rw [hread, h]
  cases b <;> rfl

end BitStreamReader

end Namecoin.Util
