import Mathlib.Tactic.Ring
import Namecoin.Consensus.Merkle

/-! # MerkleComputation computes the branch of its leaf

The first loop keeps, for every set bit `j` of the leaf counter `c`, the last
complete node of level `j` in `inner[j]` (`LeafInv`). The carry loop that adds
a leaf combines the stored nodes on the clear bits of `c + 1` (`CarryInv`).
The sweep then walks up the right edge of the tree, where the counter is
`width n l * 2^l` at level `l` (`SweepInv`). The leaf's ancestor is `h` while
`matchh` holds and `inner[matchlevel]` otherwise, and `path` holds exactly the
siblings below it.

For at most `2^31` leaves the sweep ends on the root and the path is the
branch. Above `2^31` leaves the `uint32_t` counter reaches `2^32 = 0` in the
sweep, and the carry loop then never finds a set bit. -/

namespace Namecoin.Consensus.MerklePath
open Lib.MerkleTree Namecoin.Consensus.Merkle

/-! ## The `uint32_t` counter -/

theorem toNat_one_shiftLeft {l : Nat} (hl : l < 32) :
    ((1 : UInt32) <<< l.toUInt32).toNat = 2 ^ l := by
  have h2 : 2 ^ l < 4294967296 := Nat.pow_lt_pow_right (by decide : 1 < 2) hl
  simp only [UInt32.toNat_shiftLeft, UInt32.toNat_one, Nat.shiftLeft_eq, Nat.one_mul,
    Nat.toUInt32, UInt32.toNat_ofNat']
  rw [Nat.mod_eq_of_lt (by omega : l < 4294967296), Nat.mod_eq_of_lt hl]
  exact Nat.mod_eq_of_lt h2

theorem and_two_pow_eq_zero_iff (x l : Nat) : x &&& 2 ^ l = 0 ↔ x / 2 ^ l % 2 = 0 := by
  constructor
  · intro h
    have hb : (x &&& 2 ^ l).testBit l = false := by rw [h]; exact Nat.zero_testBit l
    rw [Nat.testBit_and, Nat.testBit_two_pow_self, Bool.and_true,
      Nat.testBit_eq_decide_div_mod_eq, decide_eq_false_iff_not] at hb
    omega
  · intro h
    apply Nat.eq_of_testBit_eq
    intro i
    simp only [Nat.testBit_and, Nat.testBit_two_pow, Nat.zero_testBit]
    by_cases hi : l = i
    · subst hi
      simp [Nat.testBit_eq_decide_div_mod_eq, h]
    · simp [hi]

theorem bitSet_iff (count : UInt32) {l : Nat} (hl : l < 32) :
    bitSet count l = true ↔ count.toNat / 2 ^ l % 2 = 1 := by
  unfold bitSet
  rw [bne_iff_ne, ne_eq, ← UInt32.toNat_inj, UInt32.toNat_and, toNat_one_shiftLeft hl,
    UInt32.toNat_zero, and_two_pow_eq_zero_iff]
  omega

theorem bitSet_zero (l : Nat) : bitSet 0 l = false := by
  simp [bitSet]

theorem toNat_add_pow (count : UInt32) {l : Nat} (hl : l < 32) :
    (count + (1 : UInt32) <<< l.toUInt32).toNat = (count.toNat + 2 ^ l) % 2 ^ 32 := by
  rw [UInt32.toNat_add, toNat_one_shiftLeft hl]

/-! ## Bits as divisions -/

theorem div_pow_succ (x j : Nat) : x / 2 ^ (j + 1) = x / 2 ^ j / 2 := by
  rw [Nat.pow_succ, Nat.div_div_eq_div_mul]

/-- A number with a set bit at `j` is at least `2^j`. -/
theorem pow_le_of_bit {x j : Nat} (h : x / 2 ^ j % 2 = 1) : 2 ^ j ≤ x := by
  have hpos : 0 < x / 2 ^ j := Nat.pos_of_ne_zero fun h0 => by rw [h0] at h; simp at h
  have := Nat.div_mul_le_self x (2 ^ j)
  calc 2 ^ j ≤ x / 2 ^ j * 2 ^ j := Nat.le_mul_of_pos_left _ hpos
    _ ≤ x := this

/-- Below `2^32`, some bit under 32 is set. -/
theorem exists_bit {x : Nat} (h0 : 0 < x) (h : x < 2 ^ 32) :
    Nat.log 2 x < 32 ∧ x / 2 ^ Nat.log 2 x % 2 = 1 := by
  have hlog : Nat.log 2 x < 32 := Nat.log_lt_of_lt_pow (by omega) h
  refine ⟨hlog, ?_⟩
  have hle : 2 ^ Nat.log 2 x ≤ x := Nat.pow_log_le_self 2 (by omega)
  have hlt : x < 2 ^ (Nat.log 2 x + 1) := Nat.lt_pow_succ_log_self (by decide) x
  have hq : x / 2 ^ Nat.log 2 x = 1 := by
    apply Nat.div_eq_of_lt_le
    · omega
    · rw [Nat.pow_succ] at hlt; omega
  omega

/-- Below `2^32`, a number of at least `2^l` has a set bit from `l` on. -/
theorem exists_bit_above {x l : Nat} (hl : 2 ^ l ≤ x) (hx : x < 2 ^ 32) :
    ∃ k, l + k < 32 ∧ x / 2 ^ (l + k) % 2 = 1 := by
  obtain ⟨hlog, hbit⟩ := exists_bit (by have := Nat.two_pow_pos l; omega) hx
  have hle : l ≤ Nat.log 2 x := Nat.le_log_of_pow_le Nat.one_lt_two hl
  exact ⟨Nat.log 2 x - l, by omega, by rw [Nat.add_sub_cancel' hle]; exact hbit⟩

/-- Going `d` levels up from an odd quotient, dropping its last unit changes nothing. -/
theorem pred_div_of_odd {y : Nat} (hy : y % 2 = 1) {d : Nat} (hd : 0 < d) :
    (y - 1) / 2 ^ d = y / 2 ^ d := by
  obtain ⟨d, rfl⟩ : ∃ d', d = d' + 1 := ⟨d - 1, by omega⟩
  rw [div_pow_succ, div_pow_succ, Nat.div_div_eq_div_mul, Nat.div_div_eq_div_mul,
    Nat.mul_comm, ← Nat.div_div_eq_div_mul, ← Nat.div_div_eq_div_mul]
  congr 1
  omega

theorem div_div_pow (x j d : Nat) : x / 2 ^ j / 2 ^ d = x / 2 ^ (j + d) := by
  rw [Nat.div_div_eq_div_mul, ← Nat.pow_add]

/-- One below a multiple of `2^l`, the quotient drops by one. -/
theorem pred_div_of_dvd {x l : Nat} (hd : x % 2 ^ l = 0) (hx : 0 < x) :
    (x - 1) / 2 ^ l = x / 2 ^ l - 1 := by
  have hpos : 0 < 2 ^ l := Nat.two_pow_pos l
  have hmul : x / 2 ^ l * 2 ^ l = x := Nat.div_mul_cancel (Nat.dvd_of_mod_eq_zero hd)
  have hq : 0 < x / 2 ^ l := Nat.pos_of_ne_zero fun h0 => by rw [h0, Nat.zero_mul] at hmul; omega
  apply Nat.div_eq_of_lt_le
  · rw [Nat.sub_one_mul]; omega
  · rw [Nat.sub_add_cancel hq]; omega

/-- Levels above the last carry do not see the carry. -/
theorem pred_div_above {x l j : Nat} (hd : x % 2 ^ l = 0) (hx : 0 < x)
    (hodd : x / 2 ^ l % 2 = 1) (hj : l < j) : (x - 1) / 2 ^ j = x / 2 ^ j := by
  obtain ⟨d, rfl⟩ : ∃ d, j = l + d := ⟨j - l, by omega⟩
  rw [← div_div_pow, ← div_div_pow, pred_div_of_dvd hd hx, pred_div_of_odd hodd (by omega)]

/-- The last two entries of level `l` below an exact multiple of `2^(l+d)`. -/
theorem sub_two_div {y d : Nat} (hy : 0 < y) (hd : 0 < d) :
    (y * 2 ^ d - 2) / 2 ^ d = y - 1 := by
  have h2 : 2 ≤ 2 ^ d := by
    calc 2 = 2 ^ 1 := rfl
      _ ≤ 2 ^ d := Nat.pow_le_pow_right (by decide) hd
  have hle : 2 ^ d ≤ y * 2 ^ d := Nat.le_mul_of_pos_left _ hy
  apply Nat.div_eq_of_lt_le
  · rw [Nat.sub_one_mul]; omega
  · rw [Nat.sub_add_cancel hy]; omega

theorem mod_pow_of_le {x l m : Nat} (hd : x % 2 ^ l = 0) (hm : m ≤ l) : x % 2 ^ m = 0 :=
  Nat.mod_eq_zero_of_dvd (Nat.dvd_trans (Nat.pow_dvd_pow 2 hm) (Nat.dvd_of_mod_eq_zero hd))

/-- Below the level of an exact division, the quotient only scales. -/
theorem div_pow_of_dvd {x l m : Nat} (hd : x % 2 ^ l = 0) (hm : m ≤ l) :
    x / 2 ^ m = x / 2 ^ l * 2 ^ (l - m) := by
  have hmul : x / 2 ^ l * 2 ^ l = x := Nat.div_mul_cancel (Nat.dvd_of_mod_eq_zero hd)
  have hsplit : 2 ^ l = 2 ^ (l - m) * 2 ^ m := by rw [← Nat.pow_add]; congr 1; omega
  calc x / 2 ^ m = x / 2 ^ l * 2 ^ (l - m) * 2 ^ m / 2 ^ m := by
        rw [Nat.mul_assoc, ← hsplit, hmul]
    _ = x / 2 ^ l * 2 ^ (l - m) := Nat.mul_div_cancel _ (Nat.two_pow_pos m)

/-- A multiple of `2^l` with an even quotient is a multiple of `2^(l+1)`. -/
theorem mod_pow_succ_of_even {x l : Nat} (hd : x % 2 ^ l = 0) (he : x / 2 ^ l % 2 = 0) :
    x % 2 ^ (l + 1) = 0 := by
  have hmul : x / 2 ^ l * 2 ^ l = x := Nat.div_mul_cancel (Nat.dvd_of_mod_eq_zero hd)
  apply Nat.mod_eq_zero_of_dvd
  refine ⟨x / 2 ^ l / 2, ?_⟩
  calc x = x / 2 ^ l * 2 ^ l := hmul.symm
    _ = x / 2 ^ l / 2 * 2 * 2 ^ l := by rw [Nat.div_mul_cancel (Nat.dvd_of_mod_eq_zero he)]
    _ = 2 ^ (l + 1) * (x / 2 ^ l / 2) := by rw [Nat.pow_succ]; ring

/-- A number whose bits below `l` are clear is a multiple of `2^l`. -/
theorem mod_pow_of_clear {x : Nat} : ∀ {l : Nat}, (∀ j, j < l → x / 2 ^ j % 2 = 0) → x % 2 ^ l = 0
  | 0, _ => Nat.mod_one x
  | l + 1, h => mod_pow_succ_of_even (mod_pow_of_clear fun j hj => h j (by omega)) (h l (by omega))

/-! ## The carry loop -/

section Propagate

variable {α : Type} (Hash : α → α → α) (count : UInt32) (inner : Nat → α) (matchlevel : Int)

/-- What one turn of the carry loop does to the path. -/
def pushPath (level : Nat) (h : α) (matchh : Bool) (path : List α) : List α :=
  if matchh then path ++ [inner level] else if matchlevel = level then path ++ [h] else path

theorem propagate_turn (fuel level : Nat) (h : α) (matchh : Bool) (path : List α)
    (hb : bitSet count level = false) :
    propagate Hash count inner matchlevel (fuel + 1) level h matchh path =
      propagate Hash count inner matchlevel fuel (level + 1) (Hash (inner level) h)
        (matchh || decide (matchlevel = level)) (pushPath inner matchlevel level h matchh path) := by
  cases matchh <;> by_cases hm : matchlevel = level <;> simp [propagate, pushPath, hb, hm]

/-- The carry loop stops within `k` turns when bit `level + k` is set. -/
theorem propagate_isSome : ∀ k fuel level (h : α) matchh path, k < fuel → level + k < 32 →
    count.toNat / 2 ^ (level + k) % 2 = 1 →
    ∃ r, propagate Hash count inner matchlevel fuel level h matchh path = some r := by
  intro k
  induction k with
  | zero =>
    intro fuel level h matchh path hf _ hset
    obtain ⟨fuel, rfl⟩ : ∃ f, fuel = f + 1 := ⟨fuel - 1, by omega⟩
    have hb : bitSet count level = true := (bitSet_iff count (by omega)).mpr hset
    exact ⟨(level, h, matchh, path), by simp [propagate, hb]⟩
  | succ k ih =>
    intro fuel level h matchh path hf hl hset
    obtain ⟨fuel, rfl⟩ : ∃ f, fuel = f + 1 := ⟨fuel - 1, by omega⟩
    cases hb : bitSet count level
    · rw [propagate_turn Hash count inner matchlevel fuel level h matchh path hb]
      exact ih fuel (level + 1) _ _ _ (by omega) (by omega)
        (by rw [Nat.add_right_comm]; exact hset)
    · exact ⟨(level, h, matchh, path), by simp [propagate, hb]⟩

/-- **Loop rule for the carry loop.** While a set bit lies ahead below 32, an
invariant kept by every turn on a clear bit holds when the loop stops, and it
stops on the first set bit from `level` on. -/
theorem propagate_inv (P : Nat → α → Bool → List α → Prop)
    (hstep : ∀ l h mh path, l < 32 → count.toNat / 2 ^ l % 2 = 0 → P l h mh path →
      P (l + 1) (Hash (inner l) h) (mh || decide (matchlevel = l))
        (pushPath inner matchlevel l h mh path)) :
    ∀ fuel k l h mh path l' h' mh' path', l + k < 32 → count.toNat / 2 ^ (l + k) % 2 = 1 →
      P l h mh path →
      propagate Hash count inner matchlevel fuel l h mh path = some (l', h', mh', path') →
      P l' h' mh' path' ∧ count.toNat / 2 ^ l' % 2 = 1 ∧ l ≤ l' ∧
        ∀ j, l ≤ j → j < l' → count.toNat / 2 ^ j % 2 = 0 := by
  intro fuel
  induction fuel with
  | zero => intro k l h mh path l' h' mh' path' _ _ _ hrun; cases hrun
  | succ fuel ih =>
    intro k l h mh path l' h' mh' path' hl hset hP hrun
    by_cases hbit : count.toNat / 2 ^ l % 2 = 1
    · -- the loop stops at once
      have hb : bitSet count l = true := (bitSet_iff count (by omega)).mpr hbit
      simp only [propagate, hb, if_true, Option.some.injEq, Prod.mk.injEq] at hrun
      obtain ⟨rfl, rfl, rfl, rfl⟩ := hrun
      exact ⟨hP, hbit, le_refl _, fun j h1 h2 => by omega⟩
    · have hk : k ≠ 0 := by rintro rfl; exact hbit hset
      have hb : bitSet count l = false := by
        cases hc : bitSet count l
        · rfl
        · exact absurd ((bitSet_iff count (by omega)).mp hc) hbit
      rw [propagate_turn Hash count inner matchlevel fuel l h mh path hb] at hrun
      obtain ⟨hP', hset', hle, hclear⟩ := ih (k - 1) (l + 1) _ _ _ l' h' mh' path' (by omega)
        (by rw [show l + 1 + (k - 1) = l + k by omega]; exact hset)
        (hstep l h mh path (by omega) (by omega) hP) hrun
      refine ⟨hP', hset', by omega, fun j h1 h2 => ?_⟩
      rcases Nat.eq_or_lt_of_le h1 with rfl | hlt
      · omega
      · exact hclear j hlt h2

/-- With a zero counter the carry loop never stops. -/
theorem propagate_count_zero (fuel level : Nat) (h : α) (matchh : Bool) (path : List α) :
    propagate Hash 0 inner matchlevel fuel level h matchh path = none := by
  induction fuel generalizing level h matchh path with
  | zero => rfl
  | succ fuel ih =>
    rw [propagate_turn Hash 0 inner matchlevel fuel level h matchh path (bitSet_zero level)]
    exact ih _ _ _ _

/-- The skip loop before the sweep visits the levels the carry loop visits. -/
theorem lowestSetBit_eq (fuel level : Nat) (h : α) (matchh : Bool) (path : List α) :
    lowestSetBit count fuel level =
      (propagate Hash count inner matchlevel fuel level h matchh path).map Prod.fst := by
  induction fuel generalizing level h matchh path with
  | zero => rfl
  | succ fuel ih =>
    cases hb : bitSet count level
    · rw [propagate_turn Hash count inner matchlevel fuel level h matchh path hb, ← ih]
      simp [lowestSetBit, hb]
    · simp [lowestSetBit, propagate, hb]

end Propagate

/-! The skip loop `while (!(count & (1 << level))) level++` is the carry loop
with nothing to carry, so its rules are the carry loop's. -/

section Skip

variable (count : UInt32)

theorem lowestSetBit_isSome (fuel k level : Nat) (hf : k < fuel) (hl : level + k < 32)
    (hset : count.toNat / 2 ^ (level + k) % 2 = 1) :
    ∃ l, lowestSetBit count fuel level = some l := by
  obtain ⟨r, hr⟩ :=
    propagate_isSome (fun (_ _ : Unit) => ()) count (fun _ => ()) 0 k fuel level () false [] hf hl
      hset
  refine ⟨r.1, ?_⟩
  rw [lowestSetBit_eq (fun (_ _ : Unit) => ()) count (fun _ => ()) 0 fuel level () false [], hr]
  rfl

theorem lowestSetBit_inv {fuel level l : Nat} (k : Nat) (hl : level + k < 32)
    (hset : count.toNat / 2 ^ (level + k) % 2 = 1) (hrun : lowestSetBit count fuel level = some l) :
    count.toNat / 2 ^ l % 2 = 1 ∧ level ≤ l ∧ ∀ j, level ≤ j → j < l → count.toNat / 2 ^ j % 2 = 0 := by
  rw [lowestSetBit_eq (fun (_ _ : Unit) => ()) count (fun _ => ()) 0 fuel level () false []] at hrun
  obtain ⟨⟨l', h', mh', path'⟩, hr, rfl⟩ := Option.map_eq_some_iff.mp hrun
  obtain ⟨-, hset', hle, hclear⟩ :=
    propagate_inv (fun (_ _ : Unit) => ()) count (fun _ => ()) 0 (fun _ _ _ _ => True)
      (fun _ _ _ _ _ _ _ => trivial) fuel k level () false [] l' h' mh' path' hl hset trivial hr
  exact ⟨hset', hle, hclear⟩

end Skip

/-! ## The first loop -/

section Leaves

variable {α : Type} [Inhabited α] (Hash : α → α → α) (L : List α) (p : Nat)

/-- After the first `c` leaves: `inner[j]` holds the last complete node of
level `j` for each set bit `j` of `c`, and leaf `p`, once read, has its
ancestor in `inner[matchlevel]` and its lower siblings on the path. -/
structure LeafInv (c : Nat) (s : MerkleState α) : Prop where
  count : s.count.toNat = c
  le : c ≤ L.length
  inner : ∀ j, c / 2 ^ j % 2 = 1 → s.inner j = node Hash L j (c / 2 ^ j - 1)
  found : p < c → ∃ m : Nat, s.matchlevel = m ∧ c / 2 ^ m % 2 = 1 ∧
    p / 2 ^ m = c / 2 ^ m - 1 ∧ s.path = branchTo Hash L p m ∧
    ∀ j, c / 2 ^ j % 2 = 1 → p / 2 ^ j = c / 2 ^ j - 1 → j = m
  notYet : c ≤ p → s.matchlevel = -1 ∧ s.path = []

/-- The carry loop while leaf `c` goes in: `h` is the last node of level `l`
over the first `c + 1` leaves, and it is the leaf's ancestor iff `mh`. -/
structure CarryInv (c : Nat) (s : MerkleState α) (l : Nat) (h : α) (mh : Bool)
    (path : List α) : Prop where
  dvd : (c + 1) % 2 ^ l = 0
  h_eq : h = node Hash L l ((c + 1) / 2 ^ l - 1)
  mh_iff : mh = true ↔ p / 2 ^ l = (c + 1) / 2 ^ l - 1
  path_mh : mh = true → path = branchTo Hash L p l
  path_not : mh = false → path = s.path

variable {Hash L p}

theorem carryInv_start {c : Nat} {s : MerkleState α} (hI : LeafInv Hash L p c s) (mh : Bool)
    (hmh : mh = true ↔ p = c) :
    CarryInv Hash L p c s 0 (L.getD c default) mh s.path := by
  refine ⟨by rw [Nat.pow_zero, Nat.mod_one], by simp [node, levelAt], by simpa using hmh,
    fun h => ?_, fun _ => rfl⟩
  rw [(hI.notYet (by have := hmh.mp h; omega)).2]
  rfl

/-- One turn of the carry loop on a clear bit of `c + 1` keeps `CarryInv`. -/
theorem carryInv_step {c : Nat} {s : MerkleState α} (hI : LeafInv Hash L p c s)
    (hc : c < L.length) {l : Nat} {h : α} {mh : Bool} {path : List α}
    (hC : CarryInv Hash L p c s l h mh path) (hclear : (c + 1) / 2 ^ l % 2 = 0) :
    CarryInv Hash L p c s (l + 1) (Hash (s.inner l) h) (mh || decide (s.matchlevel = l))
      (pushPath s.inner s.matchlevel l h mh path) := by
  have hpos : 0 < 2 ^ l := Nat.two_pow_pos l
  -- `q` entries of level `l` cover the first `c + 1` leaves exactly
  set q := (c + 1) / 2 ^ l with hq
  have hmul : q * 2 ^ l = c + 1 := Nat.div_mul_cancel (Nat.dvd_of_mod_eq_zero hC.dvd)
  have hq1 : 0 < q := Nat.pos_of_ne_zero fun h0 => by rw [h0, Nat.zero_mul] at hmul; omega
  have hcq : c / 2 ^ l = q - 1 := by
    have := pred_div_of_dvd hC.dvd (by omega); simpa using this
  have hqw : q ≤ width L.length l := by
    have : (c + 1) / 2 ^ l ≤ L.length / 2 ^ l := Nat.div_le_div_right (by omega)
    have : L.length / 2 ^ l ≤ width L.length l := Nat.div_le_div_right (by omega)
    omega
  have hinner : s.inner l = node Hash L l (q - 2) := by
    rw [hI.inner l (by omega), hcq, Nat.sub_sub]
  have hnext : (c + 1) / 2 ^ (l + 1) = q / 2 := div_pow_succ _ _
  have hsucc : Hash (node Hash L l (q - 2)) (node Hash L l (q - 1)) =
      node Hash L (l + 1) (q / 2 - 1) := by
    rw [node_succ Hash L (by rw [width_succ]; omega), show 2 * (q / 2 - 1) = q - 2 by omega,
      show min (q - 2 + 1) (width L.length l - 1) = q - 1 by omega]
  -- the leaf's ancestor one level up
  have hup : (mh || decide (s.matchlevel = l)) = true ↔ p / 2 ^ l / 2 = q / 2 - 1 := by
    constructor
    · intro hm
      rcases Bool.or_eq_true_iff.mp hm with hm | hm
      · have := hC.mh_iff.mp hm; omega
      · have hml : s.matchlevel = l := of_decide_eq_true hm
        by_cases hpc : p < c
        · obtain ⟨m, hm, _, hpm, _, _⟩ := hI.found hpc
          have : m = l := by rw [hm] at hml; exact_mod_cast hml
          subst this; omega
        · rw [(hI.notYet (by omega)).1] at hml; omega
    · intro hp
      by_cases hr : p / 2 ^ l = q - 1
      · simp [hC.mh_iff.mpr hr]
      · have hr2 : p / 2 ^ l = q - 2 := by omega
        have hpc : p < c := by
          have := Nat.lt_mul_div_succ p hpos
          rw [hr2, show q - 2 + 1 = q - 1 by omega, Nat.mul_sub_one, Nat.mul_comm] at this
          omega
        obtain ⟨m, hm, _, _, _, huniq⟩ := hI.found hpc
        have : l = m := huniq l (by omega) (by omega)
        subst this
        simp [hm]
  refine ⟨mod_pow_succ_of_even hC.dvd hclear, ?_, ?_, ?_, ?_⟩
  · rw [hC.h_eq, hinner, hnext, hsucc]
  · rw [hup, div_pow_succ, hnext]
  · intro hm
    rw [branchTo_succ]
    have hr := hup.mp hm
    unfold pushPath
    cases hmh : mh
    · have hml : s.matchlevel = l := by simpa [hmh] using hm
      have hpc : p < c := by
        by_contra hpc
        rw [(hI.notYet (by omega)).1] at hml; omega
      obtain ⟨m, hm', _, hpm, hpath, _⟩ := hI.found hpc
      have : m = l := by rw [hm'] at hml; exact_mod_cast hml
      subst this
      have hidx : siblingIdx (width L.length m) (p / 2 ^ m) = q - 1 := by
        unfold siblingIdx; rw [hcq] at hpm; rw [if_pos (by omega)]; omega
      simp only [hC.path_not hmh, hpath, hml, hC.h_eq, hidx, Bool.false_eq_true, if_false,
        if_true]
      rfl
    · have hr1 := hC.mh_iff.mp hmh
      have hidx : siblingIdx (width L.length l) (p / 2 ^ l) = q - 2 := by
        unfold siblingIdx; rw [if_neg (by omega)]; omega
      simp [hC.path_mh hmh, hinner, hidx]
  · intro hm
    have h1 : mh = false := by cases mh <;> simp_all
    have h2 : s.matchlevel ≠ l := by intro h; simp [h] at hm
    simp [pushPath, h1, h2, hC.path_not h1]

/-- Storing the carry loop's result gives the invariant for one more leaf. -/
theorem leafInv_step {c : Nat} {s : MerkleState α} (hI : LeafInv Hash L p c s)
    (hc : c < L.length) (hn : L.length < 2 ^ 32) {l' : Nat} {h' : α} {mh' : Bool}
    {path' : List α} (hC : CarryInv Hash L p c s l' h' mh' path')
    (hset : (c + 1) / 2 ^ l' % 2 = 1) (hclear : ∀ j, j < l' → (c + 1) / 2 ^ j % 2 = 0) :
    LeafInv Hash L p (c + 1)
      { count := s.count + 1, inner := Function.update s.inner l' h'
        matchlevel := if mh' then l' else s.matchlevel, path := path' } := by
  have hat : c / 2 ^ l' = (c + 1) / 2 ^ l' - 1 := by
    simpa using pred_div_of_dvd hC.dvd (by omega)
  have habove : ∀ j, l' < j → c / 2 ^ j = (c + 1) / 2 ^ j := fun j hj => by
    simpa using pred_div_above hC.dvd (by omega) hset hj
  -- above level `l'`, the ancestor of a leaf whose level-`l'` ancestor is the
  -- last node is the last node too
  have hlast : ∀ j, l' < j → p / 2 ^ l' = (c + 1) / 2 ^ l' - 1 → p / 2 ^ j = (c + 1) / 2 ^ j := by
    intro j hj hp'
    obtain ⟨d, rfl⟩ : ∃ d, j = l' + d := ⟨j - l', by omega⟩
    rw [← div_div_pow, hp', pred_div_of_odd hset (by omega), div_div_pow]
  have hpos_of : ∀ j, (c + 1) / 2 ^ j % 2 = 1 → 0 < (c + 1) / 2 ^ j := fun j h =>
    Nat.pos_of_ne_zero fun h0 => by rw [h0] at h; simp at h
  refine ⟨?_, by omega, ?_, ?_, ?_⟩
  · simp only [UInt32.toNat_add, UInt32.toNat_one, hI.count]
    exact Nat.mod_eq_of_lt (by omega)
  · intro j hj
    by_cases hjl : j = l'
    · subst hjl
      simpa using hC.h_eq
    · have hgt : l' < j := by
        rcases Nat.lt_or_gt_of_ne hjl with h | h
        · have := hclear j h; omega
        · exact h
      simp only [Function.update_of_ne hjl]
      rw [← habove j hgt] at hj ⊢
      exact hI.inner j hj
  · intro hpC
    cases hmh : mh'
    · -- the leaf was read before and its ancestor stays where it was
      have hpc : p < c := by
        rcases Nat.lt_or_ge p c with h | h
        · exact h
        · have hpe : p = c := by omega
          subst hpe
          have := hC.mh_iff.mpr hat
          rw [hmh] at this; cases this
      obtain ⟨m, hm, hbit, hpm, hpath, huniq⟩ := hI.found hpc
      have hml : l' < m := by
        rcases Nat.lt_trichotomy m l' with hlt | heq | hgt
        · have hdm := mod_pow_of_le hC.dvd hlt.le
          have hcm : c / 2 ^ m = (c + 1) / 2 ^ m - 1 := by
            simpa using pred_div_of_dvd hdm (by omega)
          have hscale := div_pow_of_dvd hC.dvd hlt.le
          have hup : p / 2 ^ l' = (c + 1) / 2 ^ l' - 1 := by
            obtain ⟨d, hd⟩ : ∃ d, l' = m + d := ⟨l' - m, by omega⟩
            have hd0 : 0 < d := by omega
            rw [hd, ← div_div_pow, hpm, hcm, hscale, hd, Nat.add_sub_cancel_left,
              Nat.sub_sub, sub_two_div (hpos_of _ (hd ▸ hset)) hd0]
          have := hC.mh_iff.mpr hup
          rw [hmh] at this; cases this
        · subst heq
          rw [hat] at hbit
          omega
        · exact hgt
      refine ⟨m, by simp [hm], by rw [← habove m hml]; exact hbit, by rw [← habove m hml]; exact hpm,
        by simpa using hC.path_not hmh ▸ hpath, fun j hj hpj => ?_⟩
      rcases Nat.lt_trichotomy j l' with hlt | heq | hgt
      · have := hclear j hlt; omega
      · subst heq
        have := hC.mh_iff.mpr hpj
        rw [hmh] at this; cases this
      · rw [← habove j hgt] at hj hpj
        exact huniq j hj hpj
    · refine ⟨l', by simp, hset, hC.mh_iff.mp hmh, hC.path_mh hmh, fun j hj hpj => ?_⟩
      rcases Nat.lt_trichotomy j l' with hlt | heq | hgt
      · have := hclear j hlt; omega
      · exact heq
      · have := hlast j hgt (hC.mh_iff.mp hmh)
        have := hpos_of j hj
        omega
  · intro hCp
    have hmh : mh' = false := by
      cases hmh : mh'
      · rfl
      · have hp' := hC.mh_iff.mp hmh
        have hmul : (c + 1) / 2 ^ l' * 2 ^ l' = c + 1 :=
          Nat.div_mul_cancel (Nat.dvd_of_mod_eq_zero hC.dvd)
        have hlt := Nat.lt_mul_div_succ p (Nat.two_pow_pos l')
        rw [hp', Nat.sub_add_cancel (hpos_of _ hset), Nat.mul_comm] at hlt
        omega
    have hold := hI.notYet (by omega)
    simp [hmh, hold.1, hC.path_not hmh, hold.2]

theorem leafInv_zero : LeafInv Hash L p 0 ⟨0, fun _ => default, -1, []⟩ :=
  ⟨rfl, Nat.zero_le _, fun j hj => by simp at hj, fun h => absurd h (Nat.not_lt_zero p),
    fun _ => ⟨rfl, rfl⟩⟩

section Turn

variable (leafPos : UInt32) (hp : leafPos.toNat = p) (hn : L.length < 2 ^ 32)
include hp hn

/-- One leaf goes in: whatever the carry loop returns, storing it keeps `LeafInv`. -/
theorem leafInv_turn {c : Nat} {s : MerkleState α} (hI : LeafInv Hash L p c s) (hc : c < L.length)
    {fuel l' : Nat} {h' : α} {mh' : Bool} {path' : List α}
    (hrun : propagate Hash (s.count + 1) s.inner s.matchlevel fuel 0
      (L.getD s.count.toNat default) (s.count == leafPos) s.path = some (l', h', mh', path')) :
    LeafInv Hash L p (c + 1)
      { count := s.count + 1, inner := Function.update s.inner l' h'
        matchlevel := if mh' then l' else s.matchlevel, path := path' } := by
  have hcount : (s.count + 1).toNat = c + 1 := by
    simp only [UInt32.toNat_add, UInt32.toNat_one, hI.count]
    exact Nat.mod_eq_of_lt (by omega)
  have hmh : (s.count == leafPos) = true ↔ p = c := by
    rw [beq_iff_eq, ← UInt32.toNat_inj, hI.count, hp]; omega
  obtain ⟨k, hk, hbit⟩ := exists_bit_above (x := c + 1) (l := 0) (by simp) (by omega)
  rw [hI.count] at hrun
  obtain ⟨hC, hset, -, hclear⟩ :=
    propagate_inv Hash (s.count + 1) s.inner s.matchlevel (CarryInv Hash L p c s)
      (fun l h mh path _ hcl hP => carryInv_step hI hc hP (by rwa [hcount] at hcl))
      fuel k 0 _ _ _ l' h' mh' path' hk (by rw [hcount]; exact hbit)
      (carryInv_start hI _ hmh) hrun
  rw [hcount] at hset hclear
  exact leafInv_step hI hc hn hC hset (fun j hj => hclear j (Nat.zero_le j) hj)

/-- **The first loop.** With enough fuel it reads every leaf and ends in
`LeafInv` for all `n` leaves. -/
theorem processLeaves_run :
    ∀ k fuel c (s : MerkleState α), LeafInv Hash L p c s → c + k = L.length → k + 32 < fuel →
      ∃ s', processLeaves Hash L leafPos fuel s = some s' ∧ LeafInv Hash L p L.length s' := by
  intro k
  induction k with
  | zero =>
    intro fuel c s hI hck hf
    obtain ⟨fuel, rfl⟩ : ∃ f, fuel = f + 1 := ⟨fuel - 1, by omega⟩
    refine ⟨s, ?_, by rw [← hck]; simpa using hI⟩
    simp [processLeaves, hI.count, ← hck]
  | succ k ih =>
    intro fuel c s hI hck hf
    obtain ⟨fuel, rfl⟩ : ∃ f, fuel = f + 1 := ⟨fuel - 1, by omega⟩
    have hc : c < L.length := by omega
    have hcount : (s.count + 1).toNat = c + 1 := by
      simp only [UInt32.toNat_add, UInt32.toNat_one, hI.count]
      exact Nat.mod_eq_of_lt (by omega)
    obtain ⟨j, hj, hbit⟩ := exists_bit_above (x := c + 1) (l := 0) (by simp) (by omega)
    obtain ⟨⟨l', h', mh', path'⟩, hrun⟩ :=
      propagate_isSome Hash (s.count + 1) s.inner s.matchlevel j fuel 0
        (L.getD s.count.toNat default) (s.count == leafPos) s.path (by omega) hj
        (by rw [hcount]; exact hbit)
    obtain ⟨s', hrun', hI'⟩ :=
      ih fuel (c + 1) _ (leafInv_turn leafPos hp hn hI hc hrun) (by omega) (by omega)
    refine ⟨s', ?_, hI'⟩
    rw [processLeaves, if_pos (by rw [hI.count]; exact hc), hrun]
    exact hrun'

/-- Whatever the fuel, a first loop that finishes ends in `LeafInv` for all
`n` leaves. -/
theorem processLeaves_inv : ∀ fuel c (s s' : MerkleState α), LeafInv Hash L p c s →
    processLeaves Hash L leafPos fuel s = some s' → LeafInv Hash L p L.length s' := by
  intro fuel
  induction fuel with
  | zero => intro c s s' _ hrun; cases hrun
  | succ fuel ih =>
    intro c s s' hI hrun
    rw [processLeaves] at hrun
    split at hrun
    · rename_i hc
      rw [hI.count] at hc
      cases hprop : propagate Hash (s.count + 1) s.inner s.matchlevel fuel 0
          (L.getD s.count.toNat default) (s.count == leafPos) s.path with
      | none => rw [hprop] at hrun; cases hrun
      | some r =>
        obtain ⟨l', h', mh', path'⟩ := r
        rw [hprop] at hrun
        exact ih (c + 1) _ s' (leafInv_turn leafPos hp hn hI hc hprop) hrun
    · rename_i hc
      cases hrun
      have hcn : c = L.length := by have := hI.le; rw [hI.count] at hc; omega
      exact hcn ▸ hI

end Turn

end Leaves

/-! ## The final sweep -/

section Sweep

variable {α : Type} [Inhabited α] (Hash : α → α → α) (L : List α) (p : Nat) (s : MerkleState α)

/-- The leaf's ancestor is the stored node `inner[matchlevel]`, on a level
from `lo` on, and `path` is the branch up to that level. -/
def Stored (lo : Nat) (path : List α) : Prop :=
  ∃ m : Nat, s.matchlevel = m ∧ lo ≤ m ∧ L.length / 2 ^ m % 2 = 1 ∧
    p / 2 ^ m = L.length / 2 ^ m - 1 ∧ path = branchTo Hash L p m ∧
    ∀ j, lo ≤ j → L.length / 2 ^ j % 2 = 1 → p / 2 ^ j = L.length / 2 ^ j - 1 → j = m

/-- Where the leaf's ancestor is at level `l` of the sweep: it is `h` iff
`mh`, and otherwise it is stored on a level from `lo` on. -/
structure SweepTrack (l lo : Nat) (mh : Bool) (path : List α) : Prop where
  mh_iff : mh = true ↔ p / 2 ^ l = width L.length l - 1
  path_mh : mh = true → path = branchTo Hash L p l
  path_not : mh = false → Stored Hash L p s lo path

/-- The sweep at level `l`: the counter stands for `width n l` nodes of `2^l`
leaves, an odd number, and `h` is the last of them. -/
structure SweepInv (C l : Nat) (h : α) (mh : Bool) (path : List α) : Prop where
  count : C = width L.length l * 2 ^ l
  odd : width L.length l % 2 = 1
  above : ∀ j, l < j → C / 2 ^ j = L.length / 2 ^ j
  le_clog : l ≤ Nat.clog 2 L.length
  h_eq : h = node Hash L l (width L.length l - 1)
  track : p < L.length → SweepTrack Hash L p s l (l + 1) mh path

/-- The carry loop inside the sweep: on level `l` the raised counter is one
node more than the leaves fill. -/
structure SweepCarryInv (C l : Nat) (h : α) (mh : Bool) (path : List α) : Prop where
  dvd : C % 2 ^ l = 0
  div : C / 2 ^ l = width L.length l
  carry : C / 2 ^ l = L.length / 2 ^ l + 1
  le_clog : l ≤ Nat.clog 2 L.length
  h_eq : h = node Hash L l (width L.length l - 1)
  track : p < L.length → SweepTrack Hash L p s l l mh path

variable {Hash L p s}

theorem Stored.succ {lo : Nat} {path : List α} (hS : Stored Hash L p s lo path)
    (hne : s.matchlevel ≠ lo) : Stored Hash L p s (lo + 1) path := by
  obtain ⟨m, hm, hlo, hbm, hpm, hpath, huniq⟩ := hS
  have hml : m ≠ lo := by intro h; apply hne; rw [hm, h]
  exact ⟨m, hm, by omega, hbm, hpm, hpath, fun j hj => huniq j (by omega)⟩

/-- The sweep starts on the lowest set bit of `n`, with `h = inner[level]`. -/
theorem sweepInv_start (hI : LeafInv Hash L p L.length s) {l : Nat}
    (hset : L.length / 2 ^ l % 2 = 1) (hclear : ∀ j, j < l → L.length / 2 ^ j % 2 = 0) :
    SweepInv Hash L p s L.length l (s.inner l) (decide (s.matchlevel = l)) s.path := by
  have hd : L.length % 2 ^ l = 0 := mod_pow_of_clear hclear
  have hw : width L.length l = L.length / 2 ^ l := width_of_dvd hd
  have hle : l ≤ Nat.clog 2 L.length := by
    have := le_trans (pow_le_of_bit hset) (Nat.le_pow_clog Nat.one_lt_two L.length)
    exact (Nat.pow_le_pow_iff_right Nat.one_lt_two).mp this
  refine ⟨?_, by rw [hw]; exact hset, fun j _ => rfl, hle, by rw [hw]; exact hI.inner l hset,
    fun hp => ?_⟩
  · rw [hw]; exact (Nat.div_mul_cancel (Nat.dvd_of_mod_eq_zero hd)).symm
  obtain ⟨m, hm, hbm, hpm, hpath, huniq⟩ := hI.found hp
  -- the stored ancestor is on a set bit, so not below the lowest one
  have hlm : l ≤ m := by
    by_contra h
    have := hclear m (by omega)
    omega
  have hml : decide (s.matchlevel = l) = true ↔ m = l := by
    rw [decide_eq_true_iff, hm]; exact_mod_cast Iff.rfl
  refine ⟨?_, fun hmh => ?_, fun hmh => ?_⟩
  · rw [hml, hw]
    exact ⟨fun h => h ▸ hpm, fun hq => (huniq l hset hq).symm⟩
  · rw [hpath, hml.mp hmh]
  · have hne : m ≠ l := fun h => by simp [hml.mpr h] at hmh
    exact ⟨m, hm, by omega, hbm, hpm, hpath, fun j _ => huniq j⟩

/-- The first turn of the sweep combines the last node with itself and raises
the counter by one node: the carry loop starts one level up. -/
theorem sweepCarryInv_start {C l : Nat} {h : α} {mh : Bool} {path : List α}
    (hS : SweepInv Hash L p s C l h mh path) (hlt : l < Nat.clog 2 L.length) :
    SweepCarryInv Hash L p s (C + 2 ^ l) (l + 1) (Hash h h) mh
      (if mh then path ++ [h] else path) := by
  -- `w` nodes on level `l`, an odd number, at least three
  obtain ⟨w, hw⟩ : ∃ w, width L.length l = w := ⟨_, rfl⟩
  have hw2 : 2 ≤ w := hw ▸ two_le_width hlt
  have hodd : w % 2 = 1 := hw ▸ hS.odd
  have hC' : C + 2 ^ l = (w + 1) * 2 ^ l := by rw [hS.count, hw, Nat.succ_mul]
  have hdiv : (C + 2 ^ l) / 2 ^ l = w + 1 := by
    rw [hC']; exact Nat.mul_div_cancel _ (Nat.two_pow_pos l)
  have hwsucc : width L.length (l + 1) = (w + 1) / 2 := by rw [width_succ, hw]
  have hn : L.length / 2 ^ (l + 1) = w / 2 := by
    rw [← hS.above (l + 1) (by omega), div_pow_succ, hS.count, hw,
      Nat.mul_div_cancel _ (Nat.two_pow_pos l)]
  have hh : h = node Hash L l (w - 1) := hw ▸ hS.h_eq
  refine ⟨mod_pow_succ_of_even (by rw [hC']; exact Nat.mul_mod_left _ _) (by rw [hdiv]; omega),
    by rw [div_pow_succ, hdiv, hwsucc], by rw [div_pow_succ, hdiv, hn]; omega, hlt, ?_,
    fun hp => ?_⟩
  · rw [hh, hwsucc, node_succ Hash L (by rw [hwsucc]; omega), hw,
      show 2 * ((w + 1) / 2 - 1) = w - 1 by omega, show min (w - 1 + 1) (w - 1) = w - 1 by omega]
  have hT := hS.track hp
  obtain ⟨r, hr⟩ : ∃ r, p / 2 ^ l = r := ⟨_, rfl⟩
  have hrw : r < w := by rw [← hr, ← hw]; exact div_lt_width hp l
  have hmiff : mh = true ↔ r = w - 1 := by rw [← hr, ← hw]; exact hT.mh_iff
  refine ⟨?_, fun hm => ?_, fun hm => ?_⟩
  · rw [hmiff, div_pow_succ, hr, hwsucc]
    omega
  · -- the last node of an odd level is its own sibling
    have hidx : siblingIdx w r = w - 1 := by
      have := hmiff.mp hm
      unfold siblingIdx; rw [if_pos (by omega)]; omega
    rw [if_pos hm, branchTo_succ, hT.path_mh hm, hw, hr, hidx, hh]
  · rw [if_neg (by simp [hm])]
    exact hT.path_not hm

/-- One turn of the carry loop inside the sweep, on a clear bit of the raised
counter. -/
theorem sweepCarryInv_step (hI : LeafInv Hash L p L.length s) {C l : Nat} {h : α} {mh : Bool}
    {path : List α} (hS : SweepCarryInv Hash L p s C l h mh path) (hclear : C / 2 ^ l % 2 = 0) :
    SweepCarryInv Hash L p s C (l + 1) (Hash (s.inner l) h) (mh || decide (s.matchlevel = l))
      (pushPath s.inner s.matchlevel l h mh path) := by
  -- level `l` has `w = q + 1` nodes, an even number, of which the last is padding
  obtain ⟨w, hw⟩ : ∃ w, width L.length l = w := ⟨_, rfl⟩
  obtain ⟨q, hq⟩ : ∃ q, L.length / 2 ^ l = q := ⟨_, rfl⟩
  have hwq : w = q + 1 := by rw [← hw, ← hS.div, hS.carry, hq]
  have hev : w % 2 = 0 := by rw [← hw, ← hS.div]; exact hclear
  have hqodd : q % 2 = 1 := by omega
  have hbit : L.length / 2 ^ l % 2 = 1 := by rw [hq]; exact hqodd
  have hlt : l < Nat.clog 2 L.length := by
    by_contra hge
    have hn : 0 < L.length := lt_of_lt_of_le (Nat.two_pow_pos l) (pow_le_of_bit hbit)
    have := width_of_clog_le hn (Nat.le_of_not_lt hge)
    omega
  have hinner : s.inner l = node Hash L l (w - 2) := by
    rw [hI.inner l hbit, hq, show q - 1 = w - 2 by omega]
  have hwsucc : width L.length (l + 1) = w / 2 := by rw [width_succ, hw]; omega
  have hsucc : Hash (node Hash L l (w - 2)) (node Hash L l (w - 1)) =
      node Hash L (l + 1) (w / 2 - 1) := by
    rw [node_succ Hash L (by rw [hwsucc]; omega), show 2 * (w / 2 - 1) = w - 2 by omega, hw,
      show min (w - 2 + 1) (w - 1) = w - 1 by omega]
  have hh : h = node Hash L l (w - 1) := hw ▸ hS.h_eq
  refine ⟨mod_pow_succ_of_even hS.dvd hclear, ?_, ?_, hlt, ?_, fun hp => ?_⟩
  · rw [div_pow_succ, hS.div, hw, hwsucc]
  · rw [div_pow_succ, div_pow_succ L.length, hS.carry, hq]; omega
  · rw [hh, hinner, hsucc, hwsucc]
  have hT := hS.track hp
  obtain ⟨r, hr⟩ : ∃ r, p / 2 ^ l = r := ⟨_, rfl⟩
  have hrw : r < w := by rw [← hr, ← hw]; exact div_lt_width hp l
  have hmiff : mh = true ↔ r = w - 1 := by rw [← hr, ← hw]; exact hT.mh_iff
  -- one level up, the ancestor is the last node iff it was one of the last two
  have hup : (mh || decide (s.matchlevel = l)) = true ↔ p / 2 ^ (l + 1) = w / 2 - 1 := by
    rw [div_pow_succ, hr]
    constructor
    · intro hm
      rcases Bool.or_eq_true_iff.mp hm with hm | hm
      · have := hmiff.mp hm; omega
      · cases hmh : mh
        · obtain ⟨m, hm', -, -, hpm, -, -⟩ := hT.path_not hmh
          have hml : m = l := by rw [of_decide_eq_true hm] at hm'; exact_mod_cast hm'.symm
          rw [hml, hr, hq] at hpm
          omega
        · have := hmiff.mp hmh; omega
    · intro hq2
      cases hmh : mh
      · by_cases hr1 : r = w - 1
        · exact absurd (hmiff.mpr hr1) (by simp [hmh])
        · obtain ⟨m, hm', -, -, -, -, huniq⟩ := hT.path_not hmh
          have hlm : l = m := huniq l le_rfl hbit (by rw [hr, hq]; omega)
          simp [hm', hlm]
      · simp
  refine ⟨by rw [hup, hwsucc], fun hm => ?_, fun hm => ?_⟩
  · rw [branchTo_succ, hw, hr]
    unfold pushPath
    cases hmh : mh
    · -- the ancestor was the stored node `inner[l]`, and `h` is its right sibling
      have hml : s.matchlevel = l := by simpa [hmh] using hm
      obtain ⟨m, hm', -, -, hpm, hpath, -⟩ := hT.path_not hmh
      have hml' : m = l := by rw [hml] at hm'; exact_mod_cast hm'.symm
      rw [hml', hr, hq] at hpm
      have hidx : siblingIdx w r = w - 1 := by
        unfold siblingIdx; rw [if_pos (by omega)]; omega
      rw [if_neg (by simp), if_pos hml, hpath, hml', hidx, hh]
    · -- the ancestor was `h`, and `inner[l]` is its left sibling
      have hr1 := hmiff.mp hmh
      have hidx : siblingIdx w r = w - 2 := by
        unfold siblingIdx; rw [if_neg (by omega)]; omega
      rw [if_pos rfl, hT.path_mh hmh, hinner, hidx]
  · obtain ⟨h1, h2⟩ := Bool.or_eq_false_iff.mp hm
    have hne : s.matchlevel ≠ l := of_decide_eq_false h2
    rw [show pushPath s.inner s.matchlevel l h mh path = path by simp [pushPath, h1, hne]]
    exact (hT.path_not h1).succ hne

/-- When the carry loop stops on a set bit, the sweep invariant holds there. -/
theorem sweepInv_of_carry {C l : Nat} {h : α} {mh : Bool} {path : List α}
    (hS : SweepCarryInv Hash L p s C l h mh path) (hset : C / 2 ^ l % 2 = 1) :
    SweepInv Hash L p s C l h mh path := by
  obtain ⟨q, hq⟩ : ∃ q, L.length / 2 ^ l = q := ⟨_, rfl⟩
  have hcar : C / 2 ^ l = q + 1 := hq ▸ hS.carry
  have hqev : q % 2 = 0 := by rw [hcar] at hset; omega
  refine ⟨?_, by rw [← hS.div]; exact hset, fun j hj => ?_, hS.le_clog, hS.h_eq, fun hp => ?_⟩
  · rw [← hS.div]; exact (Nat.div_mul_cancel (Nat.dvd_of_mod_eq_zero hS.dvd)).symm
  · -- above `l` the carry is gone again
    obtain ⟨d, rfl⟩ : ∃ d, j = l + d := ⟨j - l, by omega⟩
    have hodd := pred_div_of_odd (y := q + 1) (by omega) (d := d) (by omega)
    rw [Nat.add_sub_cancel] at hodd
    rw [← div_div_pow, ← div_div_pow, hcar, hq, hodd]
  · have hT := hS.track hp
    refine ⟨hT.mh_iff, hT.path_mh, fun hm => (hT.path_not hm).succ ?_⟩
    -- the stored ancestor is on a set bit of `n`, and bit `l` of `n` is clear
    obtain ⟨m, hm', -, hbm, -⟩ := hT.path_not hm
    intro hml
    have : m = l := by rw [hml] at hm'; exact_mod_cast hm'.symm
    rw [this, hq] at hbm
    omega

/-- The raised counter of a sweep turn is `width n (l + 1) * 2^(l + 1)`, so it
stays within `2^(clog 2 n)`. -/
theorem SweepInv.raise_le {C l : Nat} {h : α} {mh : Bool} {path : List α}
    (hS : SweepInv Hash L p s C l h mh path) (hlt : l < Nat.clog 2 L.length) :
    C + 2 ^ l ≤ 2 ^ Nat.clog 2 L.length := by
  have hS' := sweepCarryInv_start hS hlt
  have hmul : (C + 2 ^ l) / 2 ^ (l + 1) * 2 ^ (l + 1) = C + 2 ^ l :=
    Nat.div_mul_cancel (Nat.dvd_of_mod_eq_zero hS'.dvd)
  rw [← hmul, hS'.div]
  exact width_mul_pow_le hlt

/-- The exit test `count == 1 << level` holds exactly at the top level. -/
theorem SweepInv.exit_iff {count : UInt32} {l : Nat} {h : α} {mh : Bool} {path : List α}
    (hS : SweepInv Hash L p s count.toNat l h mh path) (hl : l < 32) (hn : 0 < L.length) :
    count = (1 : UInt32) <<< l.toUInt32 ↔ l = Nat.clog 2 L.length := by
  rw [← UInt32.toNat_inj, toNat_one_shiftLeft hl, hS.count]
  constructor
  · intro h1
    have hw : width L.length l = 1 := by
      have := Nat.two_pow_pos l
      have := Nat.eq_of_mul_eq_mul_right this (h1.trans (Nat.one_mul _).symm)
      exact this
    by_contra hne
    have := two_le_width (lt_of_le_of_ne hS.le_clog hne)
    omega
  · intro htop
    rw [htop, width_clog hn, Nat.one_mul]

/-- At the top the leaf's ancestor is the root, and the path is the branch. -/
theorem SweepInv.path_top {C : Nat} {h : α} {mh : Bool} {path : List α}
    (hS : SweepInv Hash L p s C (Nat.clog 2 L.length) h mh path) (hp : p < L.length) :
    path = branch Hash L p := by
  have hT := hS.track hp
  have hw : width L.length (Nat.clog 2 L.length) = 1 := width_clog (by omega)
  have hq : p / 2 ^ Nat.clog 2 L.length = 0 :=
    Nat.lt_one_iff.mp (hw ▸ div_lt_width hp (Nat.clog 2 L.length))
  exact hT.path_mh (hT.mh_iff.mpr (by rw [hq, hw]))

/-- One turn of the sweep below the top: whatever the carry loop returns, the
sweep invariant holds there, for the raised counter, at a higher level. -/
theorem sweepInv_turn (hI : LeafInv Hash L p L.length s) {C l : Nat} {h : α} {mh : Bool}
    {path : List α} (hS : SweepInv Hash L p s C l h mh path) (hlt : l < Nat.clog 2 L.length)
    {count : UInt32} (hc : count.toNat = C + 2 ^ l) {fuel l' : Nat} {h' : α} {mh' : Bool}
    {path' : List α}
    (hrun : propagate Hash count s.inner s.matchlevel fuel (l + 1) (Hash h h) mh
      (if mh then path ++ [h] else path) = some (l', h', mh', path')) :
    SweepInv Hash L p s (C + 2 ^ l) l' h' mh' path' ∧ l < l' := by
  have hge : 2 ^ (l + 1) ≤ C + 2 ^ l := by
    have : 1 ≤ width L.length l := by have := hS.odd; omega
    have := Nat.mul_le_mul_right (2 ^ l) this
    rw [Nat.pow_succ, hS.count]; omega
  obtain ⟨k, hk, hbit⟩ := exists_bit_above hge (by rw [← hc]; exact count.toNat_lt)
  obtain ⟨hC, hset, hle, -⟩ :=
    propagate_inv Hash count s.inner s.matchlevel (SweepCarryInv Hash L p s (C + 2 ^ l))
      (fun l h mh path _ hcl hP => sweepCarryInv_step hI hP (by rwa [hc] at hcl))
      fuel k (l + 1) _ _ _ l' h' mh' path' hk (by rw [hc]; exact hbit)
      (sweepCarryInv_start hS hlt) hrun
  exact ⟨sweepInv_of_carry hC (by rwa [hc] at hset), by omega⟩

/-- **The sweep up to `2^31` leaves.** With enough fuel it ends on the top
level, and the path it returns is the branch of the leaf. -/
theorem sweep_run (hI : LeafInv Hash L p L.length s) (hn : L.length ≤ 2 ^ 31) (hp : p < L.length) :
    ∀ d fuel (count : UInt32) l h mh path, SweepInv Hash L p s count.toNat l h mh path →
      Nat.clog 2 L.length ≤ l + d → d + 33 ≤ fuel →
      sweep Hash s.inner s.matchlevel fuel count l h mh path = some (branch Hash L p) := by
  have hn0 : 0 < L.length := by omega
  have hclog : Nat.clog 2 L.length ≤ 31 := Nat.clog_le_of_le_pow hn
  intro d
  induction d with
  | zero =>
    intro fuel count l h mh path hS hd hf
    obtain ⟨fuel, rfl⟩ : ∃ f, fuel = f + 1 := ⟨fuel - 1, by omega⟩
    have htop : l = Nat.clog 2 L.length := le_antisymm hS.le_clog (by omega)
    rw [sweep, if_pos ((hS.exit_iff (by omega) hn0).mpr htop)]
    subst htop
    rw [hS.path_top hp]
  | succ d ih =>
    intro fuel count l h mh path hS hd hf
    obtain ⟨fuel, rfl⟩ : ∃ f, fuel = f + 1 := ⟨fuel - 1, by omega⟩
    by_cases htop : l = Nat.clog 2 L.length
    · rw [sweep, if_pos ((hS.exit_iff (by omega) hn0).mpr htop)]
      subst htop
      rw [hS.path_top hp]
    have hlt : l < Nat.clog 2 L.length := lt_of_le_of_ne hS.le_clog htop
    have hraise := hS.raise_le hlt
    have hpow : 2 ^ Nat.clog 2 L.length ≤ 2 ^ 31 := Nat.pow_le_pow_right (by decide) hclog
    have hc : (count + (1 : UInt32) <<< l.toUInt32).toNat = count.toNat + 2 ^ l := by
      rw [toNat_add_pow count (by omega)]; exact Nat.mod_eq_of_lt (by omega)
    have hge : 2 ^ (l + 1) ≤ count.toNat + 2 ^ l := by
      have : 1 ≤ width L.length l := by have := hS.odd; omega
      have := Nat.mul_le_mul_right (2 ^ l) this
      rw [Nat.pow_succ, hS.count]; omega
    obtain ⟨k, hk, hbit⟩ := exists_bit_above hge (by omega)
    obtain ⟨⟨l', h', mh', path'⟩, hrun⟩ :=
      propagate_isSome Hash _ s.inner s.matchlevel k fuel (l + 1) (Hash h h) mh
        (if mh then path ++ [h] else path) (by omega) hk (by rw [hc]; exact hbit)
    obtain ⟨hS', hll'⟩ := sweepInv_turn hI hS hlt hc hrun
    rw [sweep, if_neg (fun he => htop ((hS.exit_iff (by omega) hn0).mp he))]
    simp only [hrun]
    exact ih fuel _ l' h' mh' path' (hc ▸ hS') (by omega) (by omega)

/-- **The sweep above `2^31` leaves.** Whatever the fuel, the raised counter
reaches `2^32`, which is `0` in a `uint32_t`, and the carry loop then never
finds a set bit. -/
theorem sweep_none (hI : LeafInv Hash L p L.length s) (hn : 2 ^ 31 < L.length)
    (hn' : L.length ≤ 2 ^ 32) :
    ∀ fuel (count : UInt32) l h mh path, SweepInv Hash L p s count.toNat l h mh path →
      sweep Hash s.inner s.matchlevel fuel count l h mh path = none := by
  have hclog : Nat.clog 2 L.length = 32 :=
    le_antisymm (Nat.clog_le_of_le_pow hn') ((Nat.lt_clog_iff_pow_lt Nat.one_lt_two).mpr hn)
  intro fuel
  induction fuel with
  | zero => intro count l h mh path _; rfl
  | succ fuel ih =>
    intro count l h mh path hS
    -- the counter holds `width n l * 2^l` below `2^32`, so `l < 32 = clog 2 n`
    have hl : l < 32 := by
      have h1 : 1 ≤ width L.length l := by have := hS.odd; omega
      have h2 : 2 ^ l ≤ count.toNat := by
        rw [hS.count]; exact Nat.le_mul_of_pos_left _ h1
      exact (Nat.pow_lt_pow_iff_right Nat.one_lt_two).mp (lt_of_le_of_lt h2 count.toNat_lt)
    have hlt : l < Nat.clog 2 L.length := by omega
    have hraise := hS.raise_le hlt
    rw [hclog] at hraise
    rw [sweep, if_neg (fun he => absurd ((hS.exit_iff hl (by omega)).mp he) (by omega))]
    by_cases hwrap : count.toNat + 2 ^ l = 2 ^ 32
    · -- the counter wraps to zero
      have hzero : count + (1 : UInt32) <<< l.toUInt32 = 0 := by
        rw [← UInt32.toNat_inj, toNat_add_pow count hl, hwrap]; rfl
      simp only [hzero, propagate_count_zero]
    · have hc : (count + (1 : UInt32) <<< l.toUInt32).toNat = count.toNat + 2 ^ l := by
        rw [toNat_add_pow count hl]; exact Nat.mod_eq_of_lt (by omega)
      cases hrun : propagate Hash (count + (1 : UInt32) <<< l.toUInt32) s.inner s.matchlevel fuel
          (l + 1) (Hash h h) mh (if mh then path ++ [h] else path) with
      | none => simp only [hrun]
      | some r =>
        obtain ⟨l', h', mh', path'⟩ := r
        simp only [hrun]
        exact ih _ l' h' mh' path' (hc ▸ (sweepInv_turn hI hS hlt hc hrun).1)

end Sweep

end Namecoin.Consensus.MerklePath
