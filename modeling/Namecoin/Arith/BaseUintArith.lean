import Namecoin.Arith.BaseUint

/-! # The carry loops of `base_uint`

`operator++`, `operator~` and unary `operator-`, `operator+=` and `operator-=`, and both
`operator*=` compute modulo `2 ^ (32 * WIDTH)`. Each loop is proved by induction on the
limbs it has left: a limb it has passed is never written again (`limb_…_of_lt`), and the
limbs from the current one on hold the sum so far plus the carry, reduced to their width
(`seg_…`). The step is `add_mul_mod_two_pow_succ`, with the `uint64_t` sum shown not to
wrap. -/

namespace Namecoin.Arith.base_uint

open Lib.Limbs

variable {WIDTH : Nat} {a b acc : base_uint WIDTH} {c : UInt64} {i j k n : Nat}

/-- Limbs `s, …, s + n - 1` that agree give one number. -/
theorem seg_congr {a b : base_uint WIDTH} {s : Nat} (h : ∀ k, s ≤ k → k < s + n → a.limb k = b.limb k) :
    a.seg s n = b.seg s n :=
  segment_congr fun k hk => by rw [h (s + k) (by omega) (by omega)]

theorem seg_add (a : base_uint WIDTH) (s m n : Nat) :
    a.seg s (m + n) = a.seg s m + 2 ^ (32 * m) * a.seg (s + m) n :=
  segment_add m n

/-- `n & 0xffffffff` in a limb and `n >> 32` as the carry split a `uint64_t` sum that did
not wrap into its digit and its carry: one step of every carry loop. -/
theorem carry_step {x : UInt64} {X : Nat} (hx : x.toNat = X) (Y n : Nat) :
    (x &&& 0xffffffff).toUInt32.toNat + 2 ^ 32 * ((Y + (x >>> 32).toNat) % 2 ^ (32 * n)) =
      (X + 2 ^ 32 * Y) % 2 ^ (32 * (n + 1)) := by
  rw [toNat_low, toNat_high, ← add_mul_mod_two_pow_succ _ n (Nat.mod_lt _ (by decide)), ← hx]
  congr 1
  omega

/-! ## `operator~`, `operator++` and `operator-` -/

theorem limb_complement (a : base_uint WIDTH) (hi : i < WIDTH) : (~~~a).limb i = ~~~a.limb i := by
  simp only [limb, hi, dite_true]
  rfl

theorem toNat_complement (a : base_uint WIDTH) : (~~~a).toNat = 2 ^ (32 * WIDTH) - 1 - a.toNat := by
  have hsum : (~~~a).toNat + a.toNat = 2 ^ (32 * WIDTH) - 1 := by
    rw [toNat, toNat, ← segment_add_digits, ← segment_max (s := 0)]
    apply segment_congr
    intro k hk
    have hlt := toNat_limb_lt a (0 + k)
    rw [limb_complement a (by omega), UInt32.toNat_not]
    simp only [UInt32.size] at hlt ⊢
    omega
  omega

theorem limb_incLoop_of_lt (h : j < i) : (incLoop a i n).limb j = a.limb j := by
  induction n generalizing a i with
  | zero => rfl
  | succ n ih =>
    simp only [incLoop]
    split
    · split
      · rw [ih (by omega), limb_set_ne _ (by omega)]
      · rw [limb_set_ne _ (by omega)]
    · rfl

/-- The loop of `operator++` adds one to the limbs from `i` on. -/
theorem seg_incLoop (h : i + n = WIDTH) : (incLoop a i n).seg i n = (a.seg i n + 1) % 2 ^ (32 * n) := by
  induction n generalizing a i with
  | zero => simp [seg]
  | succ n ih =>
    have hi : i < WIDTH := by omega
    have hv : (a.limb i + 1).toNat = ((a.limb i).toNat + 1) % 2 ^ 32 := UInt32.toNat_add _ _
    have hd := toNat_limb_lt a i
    have hS := seg_lt a (i + 1) n
    simp only [incLoop, if_pos hi]
    rw [seg_succ a, limb_set_self _ hi]
    split
    · -- the limb wrapped to zero: the one is carried into the limbs above
      rename_i hz
      have ha : (a.limb i).toNat = 2 ^ 32 - 1 := by
        rw [hz] at hv
        simp only [UInt32.toNat_zero] at hv
        omega
      rw [seg_succ, limb_incLoop_of_lt (Nat.lt_succ_self i), limb_set_self _ hi, hz, ih (by omega),
        seg_set_of_lt _ (Nat.lt_succ_self i),
        show (a.limb i).toNat + 2 ^ 32 * a.seg (i + 1) n + 1 = 0 + 2 ^ 32 * (a.seg (i + 1) n + 1) by omega,
        add_mul_mod_two_pow_succ _ n (by decide)]
      rfl
    · -- no wrap: the loop stops with the limb one larger
      rename_i hz
      have hne : (a.limb i).toNat + 1 < 2 ^ 32 := by
        have : (a.limb i + 1).toNat ≠ 0 := fun h0 => hz (UInt32.toNat_inj.mp h0)
        omega
      rw [seg_succ, limb_set_self _ hi, hv, Nat.mod_eq_of_lt hne, seg_set_of_lt _ (Nat.lt_succ_self i),
        show (a.limb i).toNat + 2 ^ 32 * a.seg (i + 1) n + 1 =
          ((a.limb i).toNat + 1) + 2 ^ 32 * a.seg (i + 1) n by omega,
        add_mul_mod_two_pow_succ _ n hne, Nat.mod_eq_of_lt hS]

theorem toNat_inc (a : base_uint WIDTH) : (inc a).toNat = (a.toNat + 1) % 2 ^ (32 * WIDTH) :=
  seg_incLoop (Nat.zero_add WIDTH)

/-- `-a` is `2 ^ (32 * WIDTH) - a`, and zero for zero. -/
theorem toNat_neg (a : base_uint WIDTH) : (-a).toNat = (2 ^ (32 * WIDTH) - a.toNat) % 2 ^ (32 * WIDTH) := by
  have hlt := a.toNat_lt
  show (inc (~~~a)).toNat = _
  rw [toNat_inc, toNat_complement, show 2 ^ (32 * WIDTH) - 1 - a.toNat + 1 = 2 ^ (32 * WIDTH) - a.toNat by omega]

/-! ## `operator+=` and `operator-=` -/

theorem limb_addLoop_of_lt (h : j < i) : (addLoop a b c i n).limb j = a.limb j := by
  induction n generalizing a c i with
  | zero => rfl
  | succ n ih => rw [addLoop, ih (by omega), limb_set_ne _ (by omega)]

/-- The loop of `operator+=` adds the limbs from `i` on, with the carry. -/
theorem seg_addLoop (hc : c.toNat < 2 ^ 32) (h : i + n ≤ WIDTH) :
    (addLoop a b c i n).seg i n = (a.seg i n + b.seg i n + c.toNat) % 2 ^ (32 * n) := by
  induction n generalizing a c i with
  | zero => simp [seg, Nat.mod_one]
  | succ n ih =>
    have hi : i < WIDTH := by omega
    have ha := toNat_limb_lt a i
    have hb := toNat_limb_lt b i
    -- two limbs and a carry below `2 ^ 32` do not wrap a `uint64_t`
    have hx : (c + (a.limb i).toUInt64 + (b.limb i).toUInt64).toNat =
        c.toNat + (a.limb i).toNat + (b.limb i).toNat := by
      rw [UInt64.toNat_add, UInt64.toNat_add, UInt32.toNat_toUInt64, UInt32.toNat_toUInt64,
        Nat.mod_eq_of_lt (by omega), Nat.mod_eq_of_lt (by omega)]
    rw [addLoop, seg_succ, limb_addLoop_of_lt (by omega), limb_set_self _ hi, ih (toNat_high_lt _) (by omega),
      seg_set_of_lt _ (by omega), carry_step hx, seg_succ a, seg_succ b]
    congr 1
    rw [Nat.mul_add]
    omega

theorem toNat_add (a b : base_uint WIDTH) : (a + b).toNat = (a.toNat + b.toNat) % 2 ^ (32 * WIDTH) :=
  seg_addLoop (by decide) (by omega)

theorem toNat_sub (a b : base_uint WIDTH) :
    (a - b).toNat = (a.toNat + (2 ^ (32 * WIDTH) - b.toNat)) % 2 ^ (32 * WIDTH) := by
  show (a + -b).toNat = _
  rw [toNat_add, toNat_neg, Nat.add_mod_mod]

/-- Subtracting no more than there is does not wrap. -/
theorem toNat_sub_of_le (h : b.toNat ≤ a.toNat) : (a - b).toNat = a.toNat - b.toNat := by
  have hlt := a.toNat_lt
  rw [toNat_sub, show a.toNat + (2 ^ (32 * WIDTH) - b.toNat) = a.toNat - b.toNat + 2 ^ (32 * WIDTH) by omega,
    Nat.add_mod_right, Nat.mod_eq_of_lt (by omega)]

/-! ## The two `operator*=` -/

/-- A limb times a limb leaves room in a `uint64_t` for two more limbs. -/
theorem mul_limb_le (x y : UInt32) : x.toNat * y.toNat ≤ (2 ^ 32 - 1) * (2 ^ 32 - 1) := by
  have hx : x.toNat < 2 ^ 32 := x.toNat_lt_size
  have hy : y.toNat < 2 ^ 32 := y.toNat_lt_size
  exact Nat.mul_le_mul (by omega) (by omega)

theorem limb_mulU32Loop_of_lt {b32 : UInt32} (h : j < i) : (mulU32Loop a b32 c i n).limb j = a.limb j := by
  induction n generalizing a c i with
  | zero => rfl
  | succ n ih => rw [mulU32Loop, ih (by omega), limb_set_ne _ (by omega)]

/-- The loop of `operator*= (uint32_t)` multiplies the limbs from `i` on, with the carry. -/
theorem seg_mulU32Loop {b32 : UInt32} (hc : c.toNat < 2 ^ 32) (h : i + n ≤ WIDTH) :
    (mulU32Loop a b32 c i n).seg i n = (b32.toNat * a.seg i n + c.toNat) % 2 ^ (32 * n) := by
  induction n generalizing a c i with
  | zero => simp [seg, Nat.mod_one]
  | succ n ih =>
    have hi : i < WIDTH := by omega
    have hp := mul_limb_le b32 (a.limb i)
    -- the product of two limbs and a carry below `2 ^ 32` do not wrap a `uint64_t`
    have hx : (c + b32.toUInt64 * (a.limb i).toUInt64).toNat = c.toNat + b32.toNat * (a.limb i).toNat := by
      rw [UInt64.toNat_add, UInt64.toNat_mul, UInt32.toNat_toUInt64, UInt32.toNat_toUInt64,
        Nat.mod_eq_of_lt (by omega), Nat.mod_eq_of_lt (by omega)]
    have hdist : b32.toNat * ((a.limb i).toNat + 2 ^ 32 * a.seg (i + 1) n) =
        b32.toNat * (a.limb i).toNat + 2 ^ 32 * (b32.toNat * a.seg (i + 1) n) := by
      rw [Nat.mul_add, Nat.mul_left_comm]
    rw [mulU32Loop, seg_succ, limb_mulU32Loop_of_lt (by omega), limb_set_self _ hi, ih (toNat_high_lt _) (by omega),
      seg_set_of_lt _ (by omega), carry_step hx, seg_succ a, hdist]
    congr 1
    omega

theorem toNat_mulU32 (a : base_uint WIDTH) (b32 : UInt32) :
    (mulU32 a b32).toNat = a.toNat * b32.toNat % 2 ^ (32 * WIDTH) := by
  have h : (mulU32Loop a b32 0 0 WIDTH).seg 0 WIDTH = (b32.toNat * a.seg 0 WIDTH + (0 : UInt64).toNat) %
      2 ^ (32 * WIDTH) := seg_mulU32Loop (by decide) (by omega)
  rw [mulU32, toNat_eq_seg, h, Nat.mul_comm]
  rfl

theorem limb_mulRowLoop_of_lt {pj : UInt32} (h : k < i + j) :
    (mulRowLoop acc pj b j c i n).limb k = acc.limb k := by
  induction n generalizing acc c i with
  | zero => rfl
  | succ n ih => rw [mulRowLoop, ih (by omega), limb_set_ne _ (by omega)]

/-- The inner loop of `operator*= (const base_uint&)` adds `pj` times the limbs of `b`
from `i` on into the accumulator from `i + j` on, with the carry. -/
theorem seg_mulRowLoop {pj : UInt32} (hc : c.toNat < 2 ^ 32) (h : i + j + n ≤ WIDTH) :
    (mulRowLoop acc pj b j c i n).seg (i + j) n =
      (acc.seg (i + j) n + pj.toNat * b.seg i n + c.toNat) % 2 ^ (32 * n) := by
  induction n generalizing acc c i with
  | zero => simp [seg, Nat.mod_one]
  | succ n ih =>
    have hij : i + j < WIDTH := by omega
    have hp := mul_limb_le pj (b.limb i)
    have hacc := toNat_limb_lt acc (i + j)
    -- a limb, a product of two limbs and a carry below `2 ^ 32` just fit a `uint64_t`
    have hx : (c + (acc.limb (i + j)).toUInt64 + pj.toUInt64 * (b.limb i).toUInt64).toNat =
        c.toNat + (acc.limb (i + j)).toNat + pj.toNat * (b.limb i).toNat := by
      rw [UInt64.toNat_add, UInt64.toNat_add, UInt64.toNat_mul, UInt32.toNat_toUInt64,
        UInt32.toNat_toUInt64, UInt32.toNat_toUInt64, Nat.mod_eq_of_lt (by omega),
        Nat.mod_eq_of_lt (by omega), Nat.mod_eq_of_lt (by omega)]
    have hdist : pj.toNat * ((b.limb i).toNat + 2 ^ 32 * b.seg (i + 1) n) =
        pj.toNat * (b.limb i).toNat + 2 ^ 32 * (pj.toNat * b.seg (i + 1) n) := by
      rw [Nat.mul_add, Nat.mul_left_comm]
    rw [mulRowLoop, seg_succ, seg_succ acc, seg_succ b, show i + j + 1 = i + 1 + j by omega,
      limb_mulRowLoop_of_lt (by omega), limb_set_self _ hij, ih (toNat_high_lt _) (by omega),
      seg_set_of_lt _ (by omega), carry_step hx, hdist, Nat.mul_add (2 ^ 32)]
    congr 1
    omega

theorem mul_eq (a b : base_uint WIDTH) :
    a * b = (List.range WIDTH).foldl (fun acc j => mulRowLoop acc (a.limb j) b j 0 0 (WIDTH - j)) 0 :=
  rfl

/-- The value split at limb `n`. -/
theorem toNat_split (a : base_uint WIDTH) (hn : n ≤ WIDTH) :
    a.toNat = a.seg 0 n + 2 ^ (32 * n) * a.seg n (WIDTH - n) := by
  have h := seg_add a 0 n (WIDTH - n)
  rw [show n + (WIDTH - n) = WIDTH by omega, Nat.zero_add] at h
  exact h

/-- The low `n` limbs are the value modulo `2 ^ (32 * n)`. -/
theorem seg_zero_eq_mod (a : base_uint WIDTH) (hn : n ≤ WIDTH) : a.seg 0 n = a.toNat % 2 ^ (32 * n) :=
  (segment_mod (toNat_limb_lt a) hn).symm

/-- After the rows of the limbs `0, …, n - 1` of `a`, the accumulator holds those limbs
times `b`, modulo `2 ^ (32 * WIDTH)`. -/
theorem toNat_mulRows (a b : base_uint WIDTH) (hn : n ≤ WIDTH) :
    ((List.range n).foldl (fun acc j => mulRowLoop acc (a.limb j) b j 0 0 (WIDTH - j)) 0).toNat =
      a.seg 0 n * b.toNat % 2 ^ (32 * WIDTH) := by
  induction n with
  | zero => simp [seg]
  | succ n ih =>
    rw [List.range_succ, List.foldl_append, List.foldl_cons, List.foldl_nil]
    have hIH := ih (by omega)
    generalize List.foldl (fun acc j => mulRowLoop acc (a.limb j) b j 0 0 (WIDTH - j))
      (0 : base_uint WIDTH) (List.range n) = r at hIH ⊢
    -- row `n` leaves the limbs below `n` and adds `a[n] * b` from limb `n` on
    have hlow : (mulRowLoop r (a.limb n) b n 0 0 (WIDTH - n)).seg 0 n = r.seg 0 n :=
      seg_congr fun k _ hk => limb_mulRowLoop_of_lt (by omega)
    have hrow : (mulRowLoop r (a.limb n) b n 0 0 (WIDTH - n)).seg (0 + n) (WIDTH - n) =
        (r.seg (0 + n) (WIDTH - n) + (a.limb n).toNat * b.seg 0 (WIDTH - n) + (0 : UInt64).toNat) %
          2 ^ (32 * (WIDTH - n)) :=
      seg_mulRowLoop (by decide) (by omega)
    rw [Nat.zero_add, UInt64.toNat_zero, Nat.add_zero, seg_zero_eq_mod b (by omega)] at hrow
    have hcarry : (r.seg n (WIDTH - n) + (a.limb n).toNat * (b.toNat % 2 ^ (32 * (WIDTH - n)))) %
        2 ^ (32 * (WIDTH - n)) = (r.seg n (WIDTH - n) + (a.limb n).toNat * b.toNat) % 2 ^ (32 * (WIDTH - n)) := by
      rw [Nat.add_mod, Nat.mul_mod_mod, ← Nat.add_mod]
    have hsucc : a.seg 0 (n + 1) = a.seg 0 n + 2 ^ (32 * n) * (a.limb n).toNat := by
      rw [seg, segment_succ_back, Nat.zero_add]
      rfl
    have hwidth : 32 * n + 32 * (WIDTH - n) = 32 * WIDTH := by omega
    calc (mulRowLoop r (a.limb n) b n 0 0 (WIDTH - n)).toNat
        = r.seg 0 n + 2 ^ (32 * n) *
            ((r.seg n (WIDTH - n) + (a.limb n).toNat * b.toNat) % 2 ^ (32 * (WIDTH - n))) := by
          rw [toNat_split (n := n) _ (by omega), hlow, hrow, hcarry]
      _ = (r.seg 0 n + 2 ^ (32 * n) * (r.seg n (WIDTH - n) + (a.limb n).toNat * b.toNat)) %
            2 ^ (32 * WIDTH) := by
          rw [← hwidth, add_mul_mod_two_pow _ (seg_lt r 0 n)]
      _ = (r.toNat + 2 ^ (32 * n) * (a.limb n).toNat * b.toNat) % 2 ^ (32 * WIDTH) := by
          rw [toNat_split (n := n) r (by omega), Nat.mul_add, Nat.add_assoc, Nat.mul_assoc]
      _ = (a.seg 0 n * b.toNat + 2 ^ (32 * n) * (a.limb n).toNat * b.toNat) % 2 ^ (32 * WIDTH) := by
          rw [hIH, Nat.mod_add_mod]
      _ = a.seg 0 (n + 1) * b.toNat % 2 ^ (32 * WIDTH) := by
          rw [hsucc, Nat.add_mul]

theorem toNat_mul (a b : base_uint WIDTH) : (a * b).toNat = a.toNat * b.toNat % 2 ^ (32 * WIDTH) := by
  rw [mul_eq, toNat_mulRows a b (Nat.le_refl WIDTH)]
  rfl

end Namecoin.Arith.base_uint
