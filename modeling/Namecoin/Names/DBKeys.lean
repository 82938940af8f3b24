import Namecoin.Names.NameCache
import Namecoin.Serialize.CompactSize
import Namecoin.Lib.Bytewise

/-! # The keys of the name database (txdb.cpp)

The chain state database orders its keys bytewise (`<` on `List UInt8`). A name's
entry is under `(DB_NAME, name)`: the prefix byte, the CompactSize of the length,
the bytes. Up to the 255 bytes of `MAX_NAME_LENGTH` the length takes one byte
below 253 and `fd`, the low byte and `00` from 253 on, so a shorter name sorts
first and names of one length by their bytes: the order of `NameComparator`
(`NameComparator_iff_dbNameKey_lt`), in which the cache keeps its entries. Beyond
255 it breaks: the length 256 is written `fd 00 01`, below `fd fd 00` of 253.

An expire-index entry is under `(DB_NAME_EXPIRY, ExpireEntry)` with the height in
big endian, so the keys of a height come after those of every lower height and
before those of every higher one (`dbExpireKey_lt_of_nHeight_lt`), and at or after
the key of that height and the empty name (`dbExpireKey_empty_le`). The keys of
one height form one block, which `GetNamesForHeight` reads from a seek to that
key until the height changes. -/

namespace Namecoin.Names
open Namecoin.Script Namecoin.Serialize Lib.Bytewise Lib.LittleEndian

/-- `DB_NAME`, the byte `'n'`. -/
def DB_NAME : UInt8 := 0x6e

/-- `DB_NAME_EXPIRY`, the byte `'x'`. -/
def DB_NAME_EXPIRY : UInt8 := 0x78

/-- `Serialize` of a `valtype`: the CompactSize of its size, then its bytes. -/
def serializeValtype (v : valtype) : List UInt8 := WriteCompactSize v.length.toUInt64 ++ v

/-- The key of a name's entry, `std::make_pair (DB_NAME, name)`. -/
def dbNameKey (name : valtype) : List UInt8 := DB_NAME :: serializeValtype name

/-- `ExpireEntry::Serialize`: the `unsigned` height flipped to big endian by
`htobe32_internal` and written as a `uint32_t`, then the name. -/
def ExpireEntry.Serialize (e : ExpireEntry) : List UInt8 :=
  (encodeLE 4 e.nHeight.toUInt32.toNat).reverse ++ serializeValtype e.name

/-- The key of an expire-index entry, `std::make_pair (DB_NAME_EXPIRY, entry)`. -/
def dbExpireKey (e : ExpireEntry) : List UInt8 := DB_NAME_EXPIRY :: e.Serialize

/-! ## Name keys -/

/-- The CompactSize of a length up to 255. -/
theorem WriteCompactSize_of_le {n : Nat} (h : n ≤ 255) :
    WriteCompactSize n.toUInt64 = if n < 253 then [n.toUInt8] else [253, n.toUInt8, 0] := by
  have hn : n.toUInt64.toNat = n := by
    rw [Nat.toUInt64, UInt64.toNat_ofNat']
    exact Nat.mod_eq_of_lt (by omega)
  have hlt : n.toUInt64 < 253 ↔ n < 253 := by
    rw [UInt64.lt_iff_toNat_lt, hn]
    rfl
  have hle : n.toUInt64 ≤ 0xffff := by
    rw [UInt64.le_iff_toNat_le, hn]
    show n ≤ 65535
    omega
  have hbyte : n.toUInt64.toUInt8 = n.toUInt8 := by
    rw [← UInt8.toNat_inj, UInt64.toNat_toUInt8, hn, Nat.toUInt8, UInt8.toNat_ofNat']
  rw [WriteCompactSize]
  by_cases hsmall : n < 253
  · rw [if_pos (hlt.mpr hsmall), if_pos hsmall, hbyte]
  · rw [if_neg (mt hlt.mp hsmall), if_pos hle, if_neg hsmall, hn]
    -- the two little-endian bytes of a number below 256
    show [253, UInt8.ofNat (n % 256), UInt8.ofNat (n / 256 % 256)] = _
    rw [Nat.mod_eq_of_lt (by omega : n < 256), Nat.div_eq_of_lt (by omega : n < 256)]
    rfl

theorem toNat_toUInt8_of_le {n : Nat} (h : n ≤ 255) : n.toUInt8.toNat = n := by
  rw [Nat.toUInt8, UInt8.toNat_ofNat']
  exact Nat.mod_eq_of_lt (by omega)

/-- Serialized names up to 255 bytes sort by length, then by bytes. -/
theorem serializeValtype_lt_iff {a b : valtype} (ha : a.length ≤ 255) (hb : b.length ≤ 255) :
    serializeValtype a < serializeValtype b ↔
      a.length < b.length ∨ (a.length = b.length ∧ a < b) := by
  have hla := toNat_toUInt8_of_le ha
  have hlb := toNat_toUInt8_of_le hb
  rw [serializeValtype, serializeValtype, WriteCompactSize_of_le ha, WriteCompactSize_of_le hb]
  by_cases hsa : a.length < 253 <;> by_cases hsb : b.length < 253
  · -- one length byte each
    rw [if_pos hsa, if_pos hsb, List.singleton_append, List.singleton_append,
      List.cons_lt_cons_iff, UInt8.lt_iff_toNat_lt, hla, hlb, ← UInt8.toNat_inj, hla, hlb]
  · -- a short length against the marker `fd`
    rw [if_pos hsa, if_neg hsb, List.singleton_append, List.cons_append, List.cons_lt_cons_iff,
      UInt8.lt_iff_toNat_lt, hla]
    exact ⟨fun _ => .inl (by omega), fun _ => .inl (by show a.length < 253; exact hsa)⟩
  · rw [if_neg hsa, if_pos hsb, List.cons_append, List.singleton_append, List.cons_lt_cons_iff,
      UInt8.lt_iff_toNat_lt, hlb, ← UInt8.toNat_inj, hlb]
    have h253 : (253 : UInt8).toNat = 253 := rfl
    rw [h253]
    exact ⟨fun h => by omega, fun h => by omega⟩
  · -- the marker, then the low byte of each length
    rw [if_neg hsa, if_neg hsb]
    simp only [List.cons_append, List.nil_append, List.cons_lt_cons_iff, lt_self_iff_false,
      true_and, false_or, UInt8.lt_iff_toNat_lt, hla, hlb, ← UInt8.toNat_inj]

/-- The cache's order of names is the database's order of their keys. -/
theorem NameComparator_iff_dbNameKey_lt {a b : valtype} (ha : a.length ≤ MAX_NAME_LENGTH)
    (hb : b.length ≤ MAX_NAME_LENGTH) : NameComparator a b = true ↔ dbNameKey a < dbNameKey b := by
  rw [dbNameKey, dbNameKey, List.cons_lt_cons_iff, serializeValtype_lt_iff ha hb]
  have hself : ¬ DB_NAME < DB_NAME := fun h => absurd h (by decide)
  rw [← nameLess_iff]
  exact ⟨fun h => .inr ⟨rfl, h⟩, fun h => h.elim (fun h' => absurd h' hself) And.right⟩

/-! ## Expire-index keys -/

theorem ExpireEntry.Serialize_eq (e : ExpireEntry) :
    e.Serialize = encodeBE 4 e.nHeight.toUInt32.toNat ++ serializeValtype e.name := rfl

theorem toNat_toUInt32_of_lt {n : Nat} (h : n < 2 ^ 32) : n.toUInt32.toNat = n := by
  rw [Nat.toUInt32, UInt32.toNat_ofNat']
  exact Nat.mod_eq_of_lt h

/-- The keys of a lower height come first, whatever the names. -/
theorem dbExpireKey_lt_of_nHeight_lt {e e' : ExpireEntry} (hh' : e'.nHeight < 2 ^ 32)
    (h : e.nHeight < e'.nHeight) : dbExpireKey e < dbExpireKey e' := by
  have hbe : encodeBE 4 e.nHeight.toUInt32.toNat < encodeBE 4 e'.nHeight.toUInt32.toNat := by
    rw [encodeBE_lt_encodeBE_iff (UInt32.toNat_lt _) (UInt32.toNat_lt _),
      toNat_toUInt32_of_lt (Nat.lt_trans h hh'), toNat_toUInt32_of_lt hh']
    exact h
  rw [dbExpireKey, dbExpireKey, List.cons_lt_cons_iff, ExpireEntry.Serialize_eq,
    ExpireEntry.Serialize_eq, append_lt_append_iff_of_length_eq (by simp)]
  exact .inr ⟨rfl, .inl hbe⟩

/-- No serialized name sorts below that of the empty name, the single byte `00`. -/
theorem not_serializeValtype_lt_nil (v : valtype) : ¬ serializeValtype v < serializeValtype [] := by
  obtain ⟨x, rest, hx⟩ : ∃ x rest, WriteCompactSize v.length.toUInt64 = x :: rest := by
    rw [WriteCompactSize]
    split_ifs <;> exact ⟨_, _, rfl⟩
  have hnil : serializeValtype ([] : valtype) = [0] := rfl
  rw [hnil, serializeValtype, hx, List.cons_append, List.cons_lt_cons_iff]
  rintro (hlt | ⟨-, hlt⟩)
  · exact absurd hlt (by rw [UInt8.lt_iff_toNat_lt]; exact Nat.not_lt_zero _)
  · exact List.not_lt_nil _ hlt

/-- The key of a height and the empty name is the first of that height. -/
theorem dbExpireKey_empty_le (e : ExpireEntry) : dbExpireKey ⟨e.nHeight, []⟩ ≤ dbExpireKey e := by
  show ¬ dbExpireKey e < dbExpireKey ⟨e.nHeight, []⟩
  rw [dbExpireKey, dbExpireKey, List.cons_lt_cons_iff, ExpireEntry.Serialize_eq,
    ExpireEntry.Serialize_eq, append_lt_append_iff_of_length_eq rfl]
  rintro (hlt | ⟨-, hlt | ⟨-, hlt⟩⟩)
  · exact absurd hlt (by decide)
  · exact List.lt_irrefl _ hlt
  · exact not_serializeValtype_lt_nil _ hlt

/-- The database orders the name keys as the cache orders names, for every name up
to `MAX_NAME_LENGTH`; and the expire-index keys of one height form one block, after
the lower heights, before the higher ones and from the key of the empty name on. -/
theorem dbKeys_order :
    (∀ a b : valtype, a.length ≤ MAX_NAME_LENGTH → b.length ≤ MAX_NAME_LENGTH →
      (NameComparator a b = true ↔ dbNameKey a < dbNameKey b)) ∧
    (∀ e e' : ExpireEntry, e'.nHeight < 2 ^ 32 → e.nHeight < e'.nHeight →
      dbExpireKey e < dbExpireKey e') ∧
    (∀ e : ExpireEntry, dbExpireKey ⟨e.nHeight, []⟩ ≤ dbExpireKey e) ∧
    (∀ (h : Nat) (e : ExpireEntry), h < 2 ^ 32 → dbExpireKey ⟨h, []⟩ ≤ dbExpireKey e →
      h ≤ e.nHeight) ∧
    (∀ e₁ e e₂ : ExpireEntry, e₁.nHeight < 2 ^ 32 → e.nHeight < 2 ^ 32 →
      e₁.nHeight = e₂.nHeight → dbExpireKey e₁ ≤ dbExpireKey e → dbExpireKey e ≤ dbExpireKey e₂ →
      e.nHeight = e₁.nHeight) := by
  -- a key at or after that of height `h` has a height of at least `h`
  have hafter : ∀ e₁ e : ExpireEntry, e₁.nHeight < 2 ^ 32 →
      dbExpireKey e₁ ≤ dbExpireKey e → e₁.nHeight ≤ e.nHeight := by
    intro e₁ e hh hle
    refine Nat.not_lt.mp fun hlt => hle ?_
    exact dbExpireKey_lt_of_nHeight_lt hh hlt
  refine ⟨fun a b ha hb => NameComparator_iff_dbNameKey_lt ha hb,
    fun e e' hh' h => dbExpireKey_lt_of_nHeight_lt hh' h, dbExpireKey_empty_le,
    fun h e hh hle => hafter ⟨h, []⟩ e hh hle, ?_⟩
  intro e₁ e e₂ hh₁ hh heq hle₁ hle₂
  have hlow := hafter e₁ e hh₁ hle₁
  have hhigh := hafter e e₂ hh hle₂
  omega

theorem dbKeys_order_marker :
    dbNameKey (List.replicate 252 0) < dbNameKey (List.replicate 253 0) := by
  have hshort : NameComparator (List.replicate 252 0) (List.replicate 253 0) = true := by
    rw [NameComparator, List.length_replicate, List.length_replicate]
    decide
  exact (dbKeys_order.1 _ _ (by rw [List.length_replicate]; decide)
    (by rw [List.length_replicate]; decide)).mp hshort

/-- Past `MAX_NAME_LENGTH` the orders part: 256 is written `fd 00 01`. -/
example : NameComparator (List.replicate 253 0) (List.replicate 256 0) = true ∧
    dbNameKey (List.replicate 256 0) < dbNameKey (List.replicate 253 0) := by
  have h256 : WriteCompactSize (256 : Nat).toUInt64 = [253, 0, 1] := by decide
  have h253 : WriteCompactSize (253 : Nat).toUInt64 = [253, 253, 0] := by decide
  refine ⟨by rw [NameComparator, List.length_replicate, List.length_replicate]; decide, ?_⟩
  rw [dbNameKey, dbNameKey, serializeValtype, serializeValtype, List.length_replicate,
    List.length_replicate, h256, h253]
  simp only [List.cons_append, List.cons_lt_cons_iff]
  exact .inr ⟨trivial, .inr ⟨trivial, .inl (by decide)⟩⟩

end Namecoin.Names
