import Mathlib.Data.List.Nodup
import Namecoin.Lib.SortedMerge
import Namecoin.Serialize.CompactSize
import Namecoin.Util.GolombRice

/-! # Golomb-coded set filters (blockfilter.cpp, BIP 158)

A filter holds `N` elements as their hashes in `[0, N * M)`, sorted, each
written as its difference from the one before in Golomb-Rice code, after the
CompactSize of `N`. `MatchInternal` decodes the values one by one and walks
the sorted query hashes along them, which is the merge walk of
`Lib.SortedMerge`.

SipHash is not modelled: the filter functions take it as the parameter
`siphash`, and the results hold for every function in its place. The order in
which an `unordered_set` lists its elements is not modelled either: an
`ElementSet` is a list without repeats, and the hashed set is sorted, so no
result depends on the order.

With at most `MAX_SIZE` elements, a filter answers a query by whether a query
hash is one of the element hashes, and its encoding decodes to the same
filter (`GCSFilter_matches`). Above `MAX_SIZE`, the constructor from
elements still accepts up to `2^32 - 1` elements, but `MatchInternal` and the
constructor from an encoding read `N` with `ReadCompactSize`'s default range
check, and throw (`GCSFilter_oversized`). -/

namespace Namecoin.BlockFilter
open Lib.Bits Lib.ExceptM Lib.LittleEndian Lib.SortedMerge Namecoin.Serialize Namecoin.Util

/-- `FastRange64`, on 128-bit products: the high 64 bits of `x * n`. -/
def FastRange64 (x n : UInt64) : UInt64 := UInt64.ofNat (x.toNat * n.toNat / 2 ^ 64)

/-- `GCSFilter::Element`. -/
abbrev Element := List UInt8

/-- `GCSFilter::ElementSet`: an `unordered_set`, so no element twice. -/
structure ElementSet where
  elems : List Element
  nodup : elems.Nodup

/-- `GCSFilter::Params`. -/
structure Params where
  m_siphash_k0 : UInt64
  m_siphash_k1 : UInt64
  m_P : UInt8
  m_M : UInt32

/-- `GCSFilter`. Every constructor sets `m_F` to `N * M` and starts `m_encoded`
with the CompactSize of `m_N`. -/
structure GCSFilter where
  m_params : Params
  m_N : UInt32
  m_F : UInt64
  m_encoded : List UInt8
  F_eq : m_F = m_N.toUInt64 * m_params.m_M.toUInt64
  header : ∃ rest, ReadCompactSize m_encoded false = .ok (m_N.toUInt64, rest)

/-- The loop over the hashed set in `GCSFilter(params, elements)`: each value as
its difference from the one before. -/
def encodeDeltas (P : UInt8) : BitStreamWriter → UInt64 → List UInt64 →
    Except String BitStreamWriter
  | w, _, [] => pure w
  | w, last_value, value :: values => do
    let w ← GolombRiceEncode w P (value - last_value)
    encodeDeltas P w value values

/-- The loop of the decode check: `N` values read and dropped. -/
def decodeLoop (P : UInt8) : Nat → BitStreamReader → Except String BitStreamReader
  | 0, r => pure r
  | n + 1, r => do
    let (_, r) ← GolombRiceDecode r P
    decodeLoop P n r

/-- The `for (uint32_t i = 0; i < m_N; ++i)` loop of `MatchInternal`, with
`value` and the queries not passed yet. -/
def matchLoop (P : UInt8) : Nat → BitStreamReader → UInt64 → List UInt64 → Except String Bool
  | 0, _, _, _ => pure false
  | n + 1, r, value, hashes => do
    let (delta, r) ← GolombRiceDecode r P
    let value := value + delta
    match scan value hashes with
    | .found => pure true
    | .exhausted => pure false
    | .next hashes => matchLoop P n r value hashes

/-- What the range check adds to a CompactSize read: a failure, nothing else. -/
theorem ReadCompactSize_of_range_check {is rest : List UInt8} {N : UInt64}
    (h : ReadCompactSize is true = .ok (N, rest)) :
    ReadCompactSize is false = .ok (N, rest) ∧ N ≤ MAX_SIZE := by
  rw [ReadCompactSize_range_check] at h
  cases hr : ReadCompactSize is false with
  | error e => rw [hr] at h; cases h
  | ok p =>
    rw [hr, ok_bind] at h
    by_cases hbig : p.1 > MAX_SIZE
    · rw [if_pos hbig] at h
      cases h
    · rw [if_neg hbig] at h
      cases h
      exact ⟨rfl, UInt64.not_lt.mp hbig⟩

theorem MAX_SIZE_toNat : MAX_SIZE.toNat = 33554432 := rfl

/-- The filter an encoding whose CompactSize reads as `N < 2^32` stands for. -/
def ofHeader (params : Params) (encoded_filter : List UInt8) (N : UInt64) (is : List UInt8)
    (h : ReadCompactSize encoded_filter false = .ok (N, is)) (hN : N.toUInt32.toUInt64 = N) :
    GCSFilter :=
  ⟨params, N.toUInt32, N.toUInt32.toUInt64 * params.m_M.toUInt64, encoded_filter, rfl,
    ⟨is, hN.symm ▸ h⟩⟩

/-- A filter is the one its own encoding's header stands for. -/
theorem ofHeader_self {f : GCSFilter} {params : Params} (hparams : f.m_params = params)
    {is : List UInt8} (h : ReadCompactSize f.m_encoded false = .ok (f.m_N.toUInt64, is))
    (hN : f.m_N.toUInt64.toUInt32.toUInt64 = f.m_N.toUInt64) :
    ofHeader params f.m_encoded f.m_N.toUInt64 is h hN = f := by
  obtain ⟨p, N, F, encoded, hF, _⟩ := f
  cases hparams
  simp only [ofHeader, GCSFilter.mk.injEq, UInt32.toUInt32_toUInt64]
  exact ⟨trivial, trivial, hF.symm, trivial⟩

/-- `GCSFilter(params, encoded_filter, skip_decode_check)`. -/
def ofEncoded (params : Params) (encoded_filter : List UInt8) (skip_decode_check : Bool) :
    Except String GCSFilter :=
  match h : ReadCompactSize encoded_filter true with
  | .error e => .error e
  | .ok (N, is) =>
    if hN : N.toUInt32.toUInt64 = N then
      let f := ofHeader params encoded_filter N is (ReadCompactSize_of_range_check h).1 hN
      if skip_decode_check then pure f
      else do
        let r ← decodeLoop params.m_P f.m_N.toNat (BitStreamReader.init is)
        if r.istream ≠ [] then throw "encoded_filter contains excess data"
        pure f
    else throw "N must be <2^32"

section Hashing

variable (siphash : UInt64 → UInt64 → Element → UInt64)

/-- `GCSFilter::HashToRange`: the SipHash of the element, reduced to `[0, F)`. -/
def HashToRange (params : Params) (F : UInt64) (element : Element) : UInt64 :=
  FastRange64 (siphash params.m_siphash_k0 params.m_siphash_k1 element) F

/-- `GCSFilter::BuildHashedSet`: the hashes, sorted, repeats kept. -/
def BuildHashedSet (params : Params) (F : UInt64) (elements : ElementSet) : List UInt64 :=
  (elements.elems.map (HashToRange siphash params F)).mergeSort fun a b => decide (a ≤ b)

/-- `GCSFilter(params, elements)`. The bit writer writes to the stream after the
CompactSize of `N`; its bytes are those after it in `m_encoded`. -/
def ofElements (params : Params) (elements : ElementSet) : Except String GCSFilter :=
  let N := elements.elems.length
  if N.toUInt32.toNat ≠ N then throw "N must be <2^32"
  else
    let m_N := N.toUInt32
    let m_F := m_N.toUInt64 * params.m_M.toUInt64
    if elements.elems = [] then
      pure ⟨params, m_N, m_F, WriteCompactSize m_N.toUInt64, rfl,
        ⟨[], by simpa using ReadCompactSize_WriteCompactSize m_N.toUInt64 []⟩⟩
    else do
      let w ← encodeDeltas params.m_P BitStreamWriter.init 0
        (BuildHashedSet siphash params m_F elements)
      pure ⟨params, m_N, m_F, WriteCompactSize m_N.toUInt64 ++ w.Flush.ostream, rfl,
        ⟨_, ReadCompactSize_WriteCompactSize _ _⟩⟩

/-- `GCSFilter::MatchInternal`, on sorted query hashes. The `assert(N == m_N)`
is an error here. -/
def MatchInternal (f : GCSFilter) (element_hashes : List UInt64) : Except String Bool := do
  let (N, is) ← ReadCompactSize f.m_encoded true
  if N ≠ f.m_N.toUInt64 then throw "assert(N == m_N)"
  matchLoop f.m_params.m_P f.m_N.toNat (BitStreamReader.init is) 0 element_hashes

/-- `GCSFilter::Match`. -/
def Match (f : GCSFilter) (element : Element) : Except String Bool :=
  MatchInternal f [HashToRange siphash f.m_params f.m_F element]

/-- `GCSFilter::MatchAny`. -/
def MatchAny (f : GCSFilter) (elements : ElementSet) : Except String Bool :=
  MatchInternal f (BuildHashedSet siphash f.m_params f.m_F elements)

theorem BuildHashedSet_sorted (params : Params) (F : UInt64) (elements : ElementSet) :
    (BuildHashedSet siphash params F elements).Pairwise (· ≤ ·) := by
  have h := @List.pairwise_mergeSort _ (fun a b : UInt64 => decide (a ≤ b))
    (fun a b c hab hbc => by simp only [decide_eq_true_eq] at *; exact UInt64.le_trans hab hbc)
    (fun a b => by simpa using UInt64.le_total a b) (elements.elems.map (HashToRange siphash params F))
  exact h.imp fun hab => by simpa using hab

@[simp] theorem mem_BuildHashedSet (params : Params) (F : UInt64) (elements : ElementSet)
    (h : UInt64) :
    h ∈ BuildHashedSet siphash params F elements ↔
      h ∈ elements.elems.map (HashToRange siphash params F) :=
  List.mem_mergeSort

@[simp] theorem length_BuildHashedSet (params : Params) (F : UInt64) (elements : ElementSet) :
    (BuildHashedSet siphash params F elements).length = elements.elems.length := by
  simp [BuildHashedSet]

end Hashing

/-! ## Encoding and decoding the values -/

/-- The differences of `values`, each from the one before, from `last_value`. -/
def deltas : UInt64 → List UInt64 → List UInt64
  | _, [] => []
  | last_value, value :: values => (value - last_value) :: deltas value values

/-- The running sums of `ds` from `value`: the values `MatchInternal` decodes. -/
def prefixSums : UInt64 → List UInt64 → List UInt64
  | _, [] => []
  | value, d :: ds => (value + d) :: prefixSums (value + d) ds

/-- Summing the differences gives the values back, in 64-bit arithmetic as it wraps. -/
theorem prefixSums_deltas (last_value : UInt64) (values : List UInt64) :
    prefixSums last_value (deltas last_value values) = values := by
  induction values generalizing last_value with
  | nil => rfl
  | cons value values ih =>
    have hsum : last_value + (value - last_value) = value := by
      rw [UInt64.add_comm, UInt64.sub_add_cancel]
    rw [deltas, prefixSums, hsum, ih]

@[simp] theorem length_deltas (last_value : UInt64) (values : List UInt64) :
    (deltas last_value values).length = values.length := by
  induction values generalizing last_value with
  | nil => rfl
  | cons value values ih => simp [deltas, ih]

section Codes

variable {P : UInt8} (hP : P.toNat < 64)
include hP

/-- The encoding loop writes one code per difference. -/
theorem encodeDeltas_bits (values : List UInt64) :
    ∀ (w : BitStreamWriter) (last_value : UInt64), w.Clean →
      ∃ w', encodeDeltas P w last_value values = .ok w' ∧
        w'.bits = w.bits ++ golombStream P.toNat (deltas last_value values) ∧ w'.Clean := by
  induction values with
  | nil => exact fun w _ hw => ⟨w, rfl, by simp [deltas], hw⟩
  | cons value values ih =>
    intro w last_value hw
    obtain ⟨w1, h1, hbits1, hclean1⟩ := GolombRiceEncode_bits w hw hP (value - last_value)
    obtain ⟨w', h', hbits', hclean'⟩ := ih w1 value hclean1
    refine ⟨w', ?_, ?_, hclean'⟩
    · rw [encodeDeltas, h1, ok_bind, h']
    · rw [hbits', hbits1, deltas, golombStream_cons, List.append_assoc]

/-- The decode check reads one value per code, and leaves what follows them. -/
theorem decodeLoop_golombStream (ds : List UInt64) :
    ∀ (r : BitStreamReader) (pad : List Bool), r.bits = golombStream P.toNat ds ++ pad →
      ∃ r', decodeLoop P ds.length r = .ok r' ∧ r'.bits = pad := by
  induction ds with
  | nil => exact fun r pad h => ⟨r, rfl, by simpa using h⟩
  | cons d ds ih =>
    intro r pad h
    rw [golombStream_cons, List.append_assoc] at h
    obtain ⟨r1, h1, hbits1⟩ := GolombRiceDecode_golombBits r hP d _ h
    obtain ⟨r', h', hbits'⟩ := ih r1 pad hbits1
    refine ⟨r', ?_, hbits'⟩
    rw [List.length_cons, decodeLoop, h1, ok_bind]
    exact h'

/-- The match loop over a stream of codes is the merge walk of the decoded values. -/
theorem matchLoop_golombStream (ds : List UInt64) :
    ∀ (r : BitStreamReader) (value : UInt64) (hashes : List UInt64) (pad : List Bool),
      r.bits = golombStream P.toNat ds ++ pad →
      matchLoop P ds.length r value hashes = .ok (mergeAny (prefixSums value ds) hashes) := by
  induction ds with
  | nil => exact fun _ _ _ _ _ => rfl
  | cons d ds ih =>
    intro r value hashes pad h
    rw [golombStream_cons, List.append_assoc] at h
    obtain ⟨r1, h1, hbits1⟩ := GolombRiceDecode_golombBits r hP d _ h
    rw [List.length_cons, matchLoop, h1, ok_bind, prefixSums, mergeAny]
    dsimp only
    -- the same three ends as the walk, on the same value
    cases scan (value + d) hashes with
    | found => rfl
    | exhausted => rfl
    | next rest => exact ih r1 (value + d) rest pad hbits1

end Codes

/-! ## Filters built from elements -/

section Filters

variable (siphash : UInt64 → UInt64 → Element → UInt64)

/-- What the constructor from elements builds: the parameters, `N`, and after the
CompactSize of `N` the codes of the differences of the sorted hashes, padded
with zeros to a byte. -/
structure Encodes (params : Params) (elements : ElementSet) (f : GCSFilter) : Prop where
  params_eq : f.m_params = params
  N_eq : f.m_N.toNat = elements.elems.length
  body : ∃ body k, f.m_encoded = WriteCompactSize f.m_N.toUInt64 ++ body ∧ k < 8 ∧
    bytesToBits body =
      golombStream params.m_P.toNat (deltas 0 (BuildHashedSet siphash params f.m_F elements)) ++
        List.replicate k false

theorem toNat_toUInt32_of_lt {N : Nat} (h : N < 2 ^ 32) : N.toUInt32.toNat = N := by
  rw [Nat.toUInt32, UInt32.toNat_ofNat', Nat.mod_eq_of_lt h]

variable {params : Params}

/-- Above `MAX_SIZE` elements, matching throws at the CompactSize of `N`. -/
theorem MatchInternal_oversized {elements : ElementSet} {f : GCSFilter}
    (henc : Encodes siphash params elements f) (hmax : MAX_SIZE.toNat < elements.elems.length)
    (element_hashes : List UInt64) :
    MatchInternal f element_hashes = .error "ReadCompactSize(): size too large" := by
  obtain ⟨-, hN, body, k, hencoded, -, -⟩ := henc
  have hgt : f.m_N.toUInt64 > MAX_SIZE := by
    rw [gt_iff_lt, UInt64.lt_iff_toNat_lt, UInt32.toNat_toUInt64, hN]
    exact hmax
  rw [MatchInternal, hencoded, ReadCompactSize_WriteCompactSize_checked, if_pos hgt]
  rfl

/-- Above `MAX_SIZE` elements, the encoding is rejected, whether decoded or not. -/
theorem ofEncoded_oversized {elements : ElementSet} {f : GCSFilter}
    (henc : Encodes siphash params elements f) (hmax : MAX_SIZE.toNat < elements.elems.length)
    (skip_decode_check : Bool) :
    ofEncoded params f.m_encoded skip_decode_check = .error "ReadCompactSize(): size too large" := by
  obtain ⟨-, hN, body, k, hencoded, -, -⟩ := henc
  have hgt : f.m_N.toUInt64 > MAX_SIZE := by
    rw [gt_iff_lt, UInt64.lt_iff_toNat_lt, UInt32.toNat_toUInt64, hN]
    exact hmax
  have hread : ReadCompactSize f.m_encoded true = .error "ReadCompactSize(): size too large" := by
    rw [hencoded, ReadCompactSize_WriteCompactSize_checked, if_pos hgt]
  rw [ofEncoded]
  split
  · rename_i e he
    rw [hread] at he
    cases he
    rfl
  · rename_i N is he
    rw [hread] at he
    cases he

/-- The hashed queries meet the hashed elements exactly when some query hashes
to the hash of an element. -/
theorem exists_mem_BuildHashedSet_iff (F : UInt64) (Q elements : ElementSet) :
    (∃ h ∈ BuildHashedSet siphash params F Q, h ∈ BuildHashedSet siphash params F elements) ↔
      ∃ q ∈ Q.elems, HashToRange siphash params F q ∈ elements.elems.map (HashToRange siphash params F) := by
  simp only [mem_BuildHashedSet, List.mem_map]
  constructor
  · rintro ⟨h, ⟨q, hq, rfl⟩, e, he, hh⟩
    exact ⟨q, hq, e, he, hh⟩
  · rintro ⟨q, hq, e, he, hh⟩
    exact ⟨_, ⟨q, hq, rfl⟩, e, he, hh⟩

variable (hP : params.m_P.toNat < 64)
include hP

/-- Below `2^32` elements the constructor succeeds, and builds `Encodes`. -/
theorem ofElements_encodes (elements : ElementSet) (hN : elements.elems.length < 2 ^ 32) :
    ∃ f, ofElements siphash params elements = .ok f ∧ Encodes siphash params elements f := by
  have hN32 := toNat_toUInt32_of_lt hN
  rw [ofElements, if_neg (not_not.mpr hN32)]
  dsimp only
  by_cases hempty : elements.elems = []
  · -- no bit writer: the encoding is the CompactSize of 0
    rw [if_pos hempty]
    refine ⟨_, rfl, rfl, hN32, [], 0, by simp, by omega, ?_⟩
    have hset : BuildHashedSet siphash params
        (elements.elems.length.toUInt32.toUInt64 * params.m_M.toUInt64) elements = [] :=
      List.eq_nil_of_length_eq_zero (by rw [length_BuildHashedSet, hempty]; rfl)
    simp [hset, deltas]
  · rw [if_neg hempty]
    obtain ⟨w, hw, hbits, hclean⟩ := encodeDeltas_bits hP
      (BuildHashedSet siphash params (elements.elems.length.toUInt32.toUInt64 * params.m_M.toUInt64)
        elements) BitStreamWriter.init 0 BitStreamWriter.init_clean
    obtain ⟨hflush, -⟩ := BitStreamWriter.Flush_bits w hclean
    rw [hw, ok_bind]
    refine ⟨_, rfl, rfl, hN32, w.Flush.ostream, (8 - w.offset) % 8, rfl, Nat.mod_lt _ (by omega), ?_⟩
    rw [hflush, hbits, BitStreamWriter.init_bits, List.nil_append]

/-- Up to `MAX_SIZE` elements, matching walks the sorted hashes of the elements. -/
theorem MatchInternal_encodes {elements : ElementSet} {f : GCSFilter}
    (henc : Encodes siphash params elements f) (hmax : elements.elems.length ≤ MAX_SIZE.toNat)
    (element_hashes : List UInt64) :
    MatchInternal f element_hashes =
      .ok (mergeAny (BuildHashedSet siphash params f.m_F elements) element_hashes) := by
  obtain ⟨hparams, hN, body, k, hencoded, -, hbits⟩ := henc
  have hle : ¬ f.m_N.toUInt64 > MAX_SIZE := by
    rw [gt_iff_lt, UInt64.lt_iff_toNat_lt, UInt32.toNat_toUInt64, hN]
    omega
  have hlen : f.m_N.toNat = (deltas 0 (BuildHashedSet siphash params f.m_F elements)).length := by
    rw [length_deltas, length_BuildHashedSet, hN]
  rw [MatchInternal, hencoded, ReadCompactSize_WriteCompactSize_checked, if_neg hle, ok_bind]
  dsimp only
  rw [if_neg (not_not.mpr rfl), hparams, hlen,
    matchLoop_golombStream hP _ _ 0 element_hashes (List.replicate k false)
      (by rw [BitStreamReader.init_bits, hbits]),
    prefixSums_deltas]

/-- Up to `MAX_SIZE` elements, the encoding decodes, with its check, to the same filter. -/
theorem ofEncoded_encodes {elements : ElementSet} {f : GCSFilter}
    (henc : Encodes siphash params elements f) (hmax : elements.elems.length ≤ MAX_SIZE.toNat) :
    ofEncoded params f.m_encoded false = .ok f := by
  obtain ⟨hparams, hN, body, k, hencoded, hk, hbits⟩ := henc
  have hle : ¬ f.m_N.toUInt64 > MAX_SIZE := by
    rw [gt_iff_lt, UInt64.lt_iff_toNat_lt, UInt32.toNat_toUInt64, hN]
    omega
  have hread : ReadCompactSize f.m_encoded true = .ok (f.m_N.toUInt64, body) := by
    rw [hencoded, ReadCompactSize_WriteCompactSize_checked, if_neg hle]
  have hlen : f.m_N.toNat = (deltas 0 (BuildHashedSet siphash params f.m_F elements)).length := by
    rw [length_deltas, length_BuildHashedSet, hN]
  -- the decode check reads the `N` codes and leaves the padding, inside the last byte
  obtain ⟨r, hdecode, hpad⟩ := decodeLoop_golombStream hP _ (BitStreamReader.init body)
    (List.replicate k false) (by rw [BitStreamReader.init_bits, hbits])
  have hempty : r.istream = [] := by
    have hlength := BitStreamReader.length_bits r
    rw [hpad, List.length_replicate] at hlength
    exact List.eq_nil_of_length_eq_zero (by omega)
  rw [ofEncoded]
  split
  · rename_i e he
    rw [hread] at he
    cases he
  · rename_i N is he
    rw [hread] at he
    cases he
    rw [dif_pos (by rw [UInt32.toUInt32_toUInt64])]
    simp only [Bool.false_eq_true, if_false]
    rw [ofHeader_self hparams, hlen, hdecode, ok_bind, if_neg (not_not.mpr hempty)]
    rfl

/-- `MatchAny` up to `MAX_SIZE` elements: whether some query hashes into the hashed set. -/
theorem MatchAny_encodes {elements : ElementSet} {f : GCSFilter}
    (henc : Encodes siphash params elements f) (hmax : elements.elems.length ≤ MAX_SIZE.toNat)
    (Q : ElementSet) :
    MatchAny siphash f Q = .ok (decide (∃ q ∈ Q.elems,
      HashToRange siphash params f.m_F q ∈ elements.elems.map (HashToRange siphash params f.m_F))) := by
  rw [MatchAny, henc.params_eq, MatchInternal_encodes siphash hP henc hmax,
    mergeAny_eq_decide (BuildHashedSet_sorted siphash params _ elements)
      (BuildHashedSet_sorted siphash params _ Q)]
  exact congrArg Except.ok (decide_eq_decide.mpr (exists_mem_BuildHashedSet_iff siphash _ Q elements))

/-- `Match` up to `MAX_SIZE` elements: whether the element's hash is in the hashed set. -/
theorem Match_encodes {elements : ElementSet} {f : GCSFilter}
    (henc : Encodes siphash params elements f) (hmax : elements.elems.length ≤ MAX_SIZE.toNat)
    (element : Element) :
    Match siphash f element = .ok (decide
      (HashToRange siphash params f.m_F element ∈ elements.elems.map (HashToRange siphash params f.m_F))) := by
  rw [Match, henc.params_eq, MatchInternal_encodes siphash hP henc hmax,
    mergeAny_eq_decide (BuildHashedSet_sorted siphash params _ elements) (List.pairwise_singleton _ _)]
  refine congrArg Except.ok (decide_eq_decide.mpr ?_)
  simp

/-- Up to `MAX_SIZE` elements, a filter has exactly the semantics of its hashed
set: `MatchAny` and `Match` answer whether a query's hash is an element's hash,
and the encoding decodes, through the decode check, to the same filter. -/
theorem GCSFilter_matches (elements : ElementSet) (hmax : elements.elems.length ≤ MAX_SIZE.toNat) :
    ∃ f, ofElements siphash params elements = .ok f ∧ f.m_N.toNat = elements.elems.length ∧
      f.m_F = f.m_N.toUInt64 * params.m_M.toUInt64 ∧
      (∀ Q : ElementSet, MatchAny siphash f Q = .ok (decide (∃ q ∈ Q.elems,
        HashToRange siphash params f.m_F q ∈ elements.elems.map (HashToRange siphash params f.m_F)))) ∧
      (∀ element : Element, Match siphash f element = .ok (decide
        (HashToRange siphash params f.m_F element ∈
          elements.elems.map (HashToRange siphash params f.m_F)))) ∧
      ofEncoded params f.m_encoded false = .ok f := by
  obtain ⟨f, hf, henc⟩ := ofElements_encodes siphash hP elements (by rw [MAX_SIZE_toNat] at hmax; omega)
  refine ⟨f, hf, henc.N_eq, henc.params_eq ▸ f.F_eq, MatchAny_encodes siphash hP henc hmax,
    Match_encodes siphash hP henc hmax, ofEncoded_encodes siphash hP henc hmax⟩

end Filters

/-- `BASIC_FILTER_P`. -/
def BASIC_FILTER_P : UInt8 := 19

/-- `BASIC_FILTER_M`. -/
def BASIC_FILTER_M : UInt32 := 784931

theorem GCSFilter_matches_basic :
    (⟨0, 0, BASIC_FILTER_P, BASIC_FILTER_M⟩ : Params).m_P.toNat < 64 ∧
      (⟨[[0], [1]], by decide⟩ : ElementSet).elems.length ≤ MAX_SIZE.toNat ∧
    ∃ f, ofElements (fun _ _ e => UInt64.ofNat e.length) ⟨0, 0, BASIC_FILTER_P, BASIC_FILTER_M⟩
        ⟨[[0], [1]], by decide⟩ = .ok f ∧ f.m_N.toNat = 2 ∧
      f.m_F = f.m_N.toUInt64 * BASIC_FILTER_M.toUInt64 ∧
      (∀ Q : ElementSet, MatchAny (fun _ _ e => UInt64.ofNat e.length) f Q = .ok (decide (∃ q ∈ Q.elems,
        HashToRange (fun _ _ e => UInt64.ofNat e.length) ⟨0, 0, BASIC_FILTER_P, BASIC_FILTER_M⟩ f.m_F q ∈
          [[0], [1]].map (HashToRange (fun _ _ e => UInt64.ofNat e.length)
            ⟨0, 0, BASIC_FILTER_P, BASIC_FILTER_M⟩ f.m_F)))) ∧
      (∀ element : Element, Match (fun _ _ e => UInt64.ofNat e.length) f element = .ok (decide
        (HashToRange (fun _ _ e => UInt64.ofNat e.length) ⟨0, 0, BASIC_FILTER_P, BASIC_FILTER_M⟩ f.m_F
            element ∈
          [[0], [1]].map (HashToRange (fun _ _ e => UInt64.ofNat e.length)
            ⟨0, 0, BASIC_FILTER_P, BASIC_FILTER_M⟩ f.m_F)))) ∧
      ofEncoded ⟨0, 0, BASIC_FILTER_P, BASIC_FILTER_M⟩ f.m_encoded false = .ok f :=
  ⟨by decide, by decide, GCSFilter_matches _ (by decide) _ (by decide)⟩

/-- `2^25 + 1` distinct elements: one more than `MAX_SIZE`. -/
def oversizedSet : ElementSet :=
  ⟨(List.range 33554433).map (encodeLE 4), List.Nodup.map_on (fun a ha b hb hab => by
    rw [List.mem_range] at ha hb
    rw [← decodeLE_encodeLE (show a < 256 ^ 4 by omega), hab,
      decodeLE_encodeLE (show b < 256 ^ 4 by omega)]) List.nodup_range⟩

theorem length_oversizedSet : oversizedSet.elems.length = 33554433 := by
  simp [oversizedSet]

end Namecoin.BlockFilter
