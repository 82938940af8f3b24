import Namecoin.Consensus.AuxPow

/-! # Hex strings (crypto/hex_base.cpp, util/strencodings, uint256)

A string is its bytes. `HexStr` writes each byte as two lower-case digits, and
`HexDigit` reads a digit of either case, `-1` for any other character.
`GetHex` writes the bytes of a `uint256` from the last to the first, and
`FromHex` reads 64 digits of either case back. So `FromHex` reads back what
`GetHex` wrote (`FromHex_GetHex`). What `FromHex` accepts is what `GetHex`
writes for the result once its letters are made lower-case
(`GetHex_FromHex`): two spellings of one hash that differ in case name the
same number (`FromHex_map_ToUpper`). -/

namespace Namecoin.Util
open Namecoin.Consensus.AuxPow

/-- `HexDigit (c)`: the table `p_util_hexdigit`, which maps `'0'`…`'9'`,
`'A'`…`'F'` and `'a'`…`'f'` to their values and every other byte to `-1`. -/
def HexDigit (c : UInt8) : Int :=
  if 0x30 ≤ c.toNat ∧ c.toNat ≤ 0x39 then (c.toNat : Int) - 0x30
  else if 0x41 ≤ c.toNat ∧ c.toNat ≤ 0x46 then (c.toNat : Int) - 0x41 + 10
  else if 0x61 ≤ c.toNat ∧ c.toNat ≤ 0x66 then (c.toNat : Int) - 0x61 + 10
  else -1

/-- The digits `hexmap` of `CreateByteToHexMap`: `'0'`…`'9'`, `'a'`…`'f'`. -/
def hexmap : List UInt8 :=
  [0x30, 0x31, 0x32, 0x33, 0x34, 0x35, 0x36, 0x37, 0x38, 0x39, 0x61, 0x62, 0x63, 0x64, 0x65, 0x66]

/-- `byte_to_hex[v]`: `hexmap[v >> 4]`, then `hexmap[v & 15]`. -/
def byteToHex (v : UInt8) : List UInt8 := [hexmap.getD (v.toNat / 16) 0, hexmap.getD (v.toNat % 16) 0]

def HexStr (s : List UInt8) : List UInt8 := s.flatMap byteToHex

def IsHex (str : List UInt8) : Bool :=
  str.all (fun c => 0 ≤ HexDigit c) && 0 < str.length && str.length % 2 == 0

def ToLower (c : UInt8) : UInt8 := if 0x41 ≤ c ∧ c ≤ 0x5a then c - 0x41 + 0x61 else c

def ToUpper (c : UInt8) : UInt8 := if 0x61 ≤ c ∧ c ≤ 0x7a then c - 0x61 + 0x41 else c

/-- A `signed char` stored in an `unsigned char`. -/
def toUChar (d : Int) : UInt8 := (d % 256).toNat.toUInt8

/-- `base_blob::GetHex`: the bytes from the last to the first. -/
def GetHex (h : uint256) : List UInt8 := HexStr h.data.reverse

/-- The loop of `FromHex` over the digits from the last: each byte takes the
lower digit, then `|=` the upper one shifted by four. -/
def fromHexDigits : List UInt8 → List UInt8
  | lo :: hi :: rest => (toUChar (HexDigit lo) ||| (toUChar (HexDigit hi) <<< 4)) :: fromHexDigits rest
  | [lo] => [toUChar (HexDigit lo)]
  | [] => []

theorem length_fromHexDigits : ∀ l : List UInt8, (fromHexDigits l).length = (l.length + 1) / 2
  | _ :: _ :: rest => by
    simp only [fromHexDigits, List.length_cons, length_fromHexDigits rest]
    omega
  | [_] => by simp [fromHexDigits]
  | [] => rfl

/-- `uint256::FromHex (str)`: exactly `uint256::size () * 2 = 64` digits. -/
def FromHex (str : List UInt8) : Option uint256 :=
  if h : 32 * 2 = str.length ∧ IsHex str then
    some ⟨fromHexDigits str.reverse, by rw [length_fromHexDigits, List.length_reverse, ← h.1]⟩
  else none

/-! ## One digit and one byte

Each fact ranges over the 256 bytes or the sixteen digits and is decided case
by case. -/

theorem forall_uint8 {P : UInt8 → Prop} (h : ∀ n < 256, P n.toUInt8) (v : UInt8) : P v := by
  simpa using h v.toNat v.toNat_lt

set_option maxRecDepth 4000 in
theorem fromHexDigits_byteToHex_table : ∀ n < 256, (fun v : UInt8 =>
    toUChar (HexDigit (hexmap.getD (v.toNat % 16) 0)) |||
      (toUChar (HexDigit (hexmap.getD (v.toNat / 16) 0)) <<< 4) = v) n.toUInt8 := by
  decide

set_option maxRecDepth 4000 in
theorem hexDigit_table : ∀ n < 256, (fun c : UInt8 => 0 ≤ HexDigit c →
    (toUChar (HexDigit c)).toNat < 16 ∧
      hexmap.getD (toUChar (HexDigit c)).toNat 0 = ToLower c) n.toUInt8 := by
  decide

set_option maxRecDepth 4000 in
theorem hexDigit_toUpper_table : ∀ n < 256,
    (fun c : UInt8 => HexDigit (ToUpper c) = HexDigit c) n.toUInt8 := by
  decide

set_option maxRecDepth 4000 in
theorem combine_table : ∀ a < 16, ∀ b < 16, (fun x : UInt8 => x.toNat / 16 = b ∧ x.toNat % 16 = a)
    (a.toUInt8 ||| (b.toUInt8 <<< (4 : UInt8))) := by
  decide

theorem hexDigit_hexmap : ∀ n < 16, 0 ≤ HexDigit (hexmap.getD n 0) := by
  decide

theorem hexDigit_toUpper (c : UInt8) : HexDigit (ToUpper c) = HexDigit c :=
  forall_uint8 (P := fun c => HexDigit (ToUpper c) = HexDigit c) hexDigit_toUpper_table c

/-- Reading the two digits `HexStr` writes for a byte gives the byte. -/
theorem combine_byteToHex (v : UInt8) :
    toUChar (HexDigit (hexmap.getD (v.toNat % 16) 0)) |||
      (toUChar (HexDigit (hexmap.getD (v.toNat / 16) 0)) <<< 4) = v :=
  forall_uint8 (P := fun v => toUChar (HexDigit (hexmap.getD (v.toNat % 16) 0)) |||
    (toUChar (HexDigit (hexmap.getD (v.toNat / 16) 0)) <<< 4) = v) fromHexDigits_byteToHex_table v

/-- Writing the byte that two digits make gives the digits back, lower-case. -/
theorem byteToHex_combine {lo hi : UInt8} (hlo : 0 ≤ HexDigit lo) (hhi : 0 ≤ HexDigit hi) :
    byteToHex (toUChar (HexDigit lo) ||| (toUChar (HexDigit hi) <<< 4)) = [ToLower hi, ToLower lo] := by
  have hdigit := forall_uint8 (P := fun c => 0 ≤ HexDigit c →
    (toUChar (HexDigit c)).toNat < 16 ∧ hexmap.getD (toUChar (HexDigit c)).toNat 0 = ToLower c)
    hexDigit_table
  obtain ⟨hlo16, hlo'⟩ := hdigit lo hlo
  obtain ⟨hhi16, hhi'⟩ := hdigit hi hhi
  have hcomb := combine_table _ hlo16 _ hhi16
  simp only [UInt8.ofNat_toNat, Nat.toUInt8_eq] at hcomb
  rw [byteToHex, hcomb.1, hcomb.2, hlo', hhi']

/-! ## Round trips -/

theorem IsHex_iff {str : List UInt8} :
    IsHex str = true ↔ (∀ c ∈ str, 0 ≤ HexDigit c) ∧ 0 < str.length ∧ str.length % 2 = 0 := by
  simp [IsHex, and_assoc]

theorem length_HexStr (s : List UInt8) : (HexStr s).length = 2 * s.length := by
  induction s with
  | nil => rfl
  | cons v s ih =>
    simp only [HexStr, List.flatMap_cons, List.length_append] at ih ⊢
    rw [ih]
    simp [byteToHex]
    omega

theorem hexDigit_of_mem_HexStr {s : List UInt8} {c : UInt8} (hc : c ∈ HexStr s) :
    0 ≤ HexDigit c := by
  obtain ⟨v, -, hv⟩ := List.mem_flatMap.mp hc
  have hv256 := v.toNat_lt
  simp only [byteToHex, List.mem_cons, List.not_mem_nil, or_false] at hv
  rcases hv with rfl | rfl
  · exact hexDigit_hexmap _ (by omega)
  · exact hexDigit_hexmap _ (by omega)

theorem reverse_HexStr_reverse_cons (v : UInt8) (l : List UInt8) :
    (HexStr (v :: l).reverse).reverse =
      hexmap.getD (v.toNat % 16) 0 :: hexmap.getD (v.toNat / 16) 0 :: (HexStr l.reverse).reverse := by
  simp [HexStr, byteToHex]

theorem fromHexDigits_reverse_HexStr_reverse : ∀ l : List UInt8,
    fromHexDigits (HexStr l.reverse).reverse = l
  | [] => rfl
  | v :: l => by
    rw [reverse_HexStr_reverse_cons, fromHexDigits, combine_byteToHex,
      fromHexDigits_reverse_HexStr_reverse l]

theorem HexStr_reverse_fromHexDigits : ∀ r : List UInt8, (∀ c ∈ r, 0 ≤ HexDigit c) →
    r.length % 2 = 0 → HexStr (fromHexDigits r).reverse = (r.map ToLower).reverse
  | [], _, _ => rfl
  | [_], _, h => absurd h (by simp)
  | lo :: hi :: rest, hr, hlen => by
    have ih := HexStr_reverse_fromHexDigits rest (fun c hc => hr c (by simp [hc]))
      (by simp only [List.length_cons] at hlen; omega)
    rw [fromHexDigits, List.reverse_cons, HexStr, List.flatMap_append, ← HexStr, ih,
      List.flatMap_singleton, byteToHex_combine (hr lo (by simp)) (hr hi (by simp))]
    simp

/-- `FromHex` reads back what `GetHex` writes. -/
theorem FromHex_GetHex (h : uint256) : FromHex (GetHex h) = some h := by
  have hlen : 32 * 2 = (GetHex h).length := by
    rw [GetHex, length_HexStr, List.length_reverse, h.length_data]
  have hhex : IsHex (GetHex h) = true := IsHex_iff.mpr
    ⟨fun c hc => hexDigit_of_mem_HexStr hc, by omega, by omega⟩
  rw [FromHex, dif_pos ⟨hlen, hhex⟩]
  exact congrArg some (uint256.ext_data (fromHexDigits_reverse_HexStr_reverse h.data))

/-- What `FromHex` accepts, `GetHex` writes back in lower case. -/
theorem GetHex_FromHex {str : List UInt8} {h : uint256} (hstr : FromHex str = some h) :
    GetHex h = str.map ToLower := by
  unfold FromHex at hstr
  split at hstr
  · rename_i hcond
    cases hstr
    obtain ⟨hdigits, -, heven⟩ := IsHex_iff.mp hcond.2
    rw [GetHex, HexStr_reverse_fromHexDigits str.reverse (fun c hc => hdigits c (List.mem_reverse.mp hc))
      (by rw [List.length_reverse]; exact heven), List.map_reverse, List.reverse_reverse]
  · cases hstr

theorem fromHexDigits_map_ToUpper : ∀ l : List UInt8, fromHexDigits (l.map ToUpper) = fromHexDigits l
  | lo :: hi :: rest => by
    simp only [List.map_cons, fromHexDigits, hexDigit_toUpper, fromHexDigits_map_ToUpper rest]
  | [lo] => by simp only [List.map_cons, List.map_nil, fromHexDigits, hexDigit_toUpper]
  | [] => rfl

/-- The upper-case spelling of a hex string names the same number. -/
theorem FromHex_map_ToUpper (str : List UInt8) : FromHex (str.map ToUpper) = FromHex str := by
  have hhex : IsHex (str.map ToUpper) = IsHex str := by
    simp [IsHex, Function.comp_def, hexDigit_toUpper]
  unfold FromHex
  simp only [List.length_map, hhex, ← List.map_reverse, fromHexDigits_map_ToUpper]

end Namecoin.Util
