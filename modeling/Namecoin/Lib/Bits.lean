import Mathlib.Algebra.Order.Group.Nat
import Mathlib.Algebra.Order.Monoid.Unbundled.Pow
import Mathlib.Data.List.Flatten
import Mathlib.Tactic.Ring

/-! # Bit strings, most significant bit first

`toBits n v` is the `n` low bits of `v`, the most significant first, and
`ofBits` reads a bit string back as a number. A string of bytes is the
concatenation of their eight bits each (`bytesToBits`). The `n + m` low bits
of a number are its top `n` and its low `m` (`toBits_add`), which is how a
bit stream splits a field across bytes. -/

namespace Lib.Bits

/-- The `n` low bits of `v`, most significant first. -/
def toBits : Nat → Nat → List Bool
  | 0, _ => []
  | n + 1, v => decide (v / 2 ^ n % 2 = 1) :: toBits n v

/-- The number whose bits, most significant first, are `bs`. -/
def ofBits : List Bool → Nat
  | [] => 0
  | b :: bs => (if b then 2 ^ bs.length else 0) + ofBits bs

/-- The bits of `bytes`, eight to a byte, most significant first. -/
def bytesToBits (bytes : List UInt8) : List Bool := bytes.flatMap fun b => toBits 8 b.toNat

@[simp] theorem length_toBits (n v : Nat) : (toBits n v).length = n := by
  induction n with
  | zero => rfl
  | succ n ih => simp [toBits, ih]

@[simp] theorem bytesToBits_nil : bytesToBits [] = [] := rfl

@[simp] theorem bytesToBits_append (xs ys : List UInt8) :
    bytesToBits (xs ++ ys) = bytesToBits xs ++ bytesToBits ys := by
  simp [bytesToBits]

@[simp] theorem bytesToBits_cons (b : UInt8) (bytes : List UInt8) :
    bytesToBits (b :: bytes) = toBits 8 b.toNat ++ bytesToBits bytes := by
  simp [bytesToBits]

@[simp] theorem length_bytesToBits (bytes : List UInt8) :
    (bytesToBits bytes).length = 8 * bytes.length := by
  induction bytes with
  | nil => rfl
  | cons b bytes ih => simp [ih]; omega

theorem ofBits_lt (bs : List Bool) : ofBits bs < 2 ^ bs.length := by
  induction bs with
  | nil => simp [ofBits]
  | cons b bs ih =>
    simp only [ofBits, List.length_cons, pow_succ]
    split <;> omega

@[simp] theorem ofBits_append (xs ys : List Bool) :
    ofBits (xs ++ ys) = ofBits xs * 2 ^ ys.length + ofBits ys := by
  induction xs with
  | nil => simp [ofBits]
  | cons b xs ih =>
    simp only [List.cons_append, ofBits, ih, List.length_append, pow_add]
    split <;> ring

/-- The low bits do not see the rest of the number. -/
theorem toBits_mod (n v : Nat) : toBits n (v % 2 ^ n) = toBits n v := by
  induction n generalizing v with
  | zero => rfl
  | succ n ih =>
    have hdiv : v % 2 ^ (n + 1) / 2 ^ n % 2 = v / 2 ^ n % 2 := by
      rw [pow_succ, Nat.mod_mul_right_div_self, Nat.mod_mod]
    have hmod : v % 2 ^ (n + 1) % 2 ^ n = v % 2 ^ n :=
      Nat.mod_mod_of_dvd v (Nat.pow_dvd_pow 2 (Nat.le_succ n))
    rw [toBits, toBits, hdiv, ← ih (v % 2 ^ (n + 1)), hmod, ih]

theorem ofBits_toBits (n v : Nat) : ofBits (toBits n v) = v % 2 ^ n := by
  induction n with
  | zero => simp [toBits, ofBits, Nat.mod_one]
  | succ n ih =>
    simp only [toBits, ofBits, length_toBits, ih, decide_eq_true_eq]
    rw [Nat.mod_pow_succ]
    by_cases hb : v / 2 ^ n % 2 = 1
    · rw [if_pos hb, hb]
      omega
    · have hb0 : v / 2 ^ n % 2 = 0 := by omega
      rw [if_neg hb, hb0]
      omega

theorem toBits_ofBits (bs : List Bool) : toBits bs.length (ofBits bs) = bs := by
  induction bs with
  | nil => rfl
  | cons b bs ih =>
    have hlt := ofBits_lt bs
    have hpos : 0 < 2 ^ bs.length := Nat.two_pow_pos _
    -- the top bit is `b`, and below it is `ofBits bs`
    have htop : ((if b then 2 ^ bs.length else 0) + ofBits bs) / 2 ^ bs.length =
        if b then 1 else 0 := by
      split
      · rw [Nat.add_comm, Nat.add_div_right _ hpos, Nat.div_eq_of_lt hlt]
      · rw [Nat.zero_add, Nat.div_eq_of_lt hlt]
    have hlow : ((if b then 2 ^ bs.length else 0) + ofBits bs) % 2 ^ bs.length = ofBits bs := by
      split
      · rw [Nat.add_comm, Nat.add_mod_right, Nat.mod_eq_of_lt hlt]
      · rw [Nat.zero_add, Nat.mod_eq_of_lt hlt]
    rw [List.length_cons, toBits, ofBits, htop, ← toBits_mod, hlow, ih]
    cases b <;> rfl

/-- The `n + m` low bits are the `n` bits above the `m` low ones, then those. -/
theorem toBits_add (n m v : Nat) : toBits (n + m) v = toBits n (v / 2 ^ m) ++ toBits m v := by
  induction n with
  | zero => simp [toBits]
  | succ n ih =>
    rw [show n + 1 + m = (n + m) + 1 by omega, toBits, ih, toBits, Nat.div_div_eq_div_mul,
      ← pow_add, Nat.add_comm m n]
    rfl

/-- A number `c` of `m` bits placed below `H`: the bits of `H`, then those of `c`. -/
theorem toBits_add_mul (n m H c : Nat) (hc : c < 2 ^ m) :
    toBits (n + m) (2 ^ m * H + c) = toBits n H ++ toBits m c := by
  have hdiv : (2 ^ m * H + c) / 2 ^ m = H := by
    rw [Nat.mul_add_div (Nat.two_pow_pos m), Nat.div_eq_of_lt hc, Nat.add_zero]
  have hmod : (2 ^ m * H + c) % 2 ^ m = c := by
    rw [Nat.mul_add_mod, Nat.mod_eq_of_lt hc]
  rw [toBits_add, hdiv, ← toBits_mod m, hmod]

theorem toBits_mod_div (k m v : Nat) :
    toBits m (v % 2 ^ (k + m) / 2 ^ k) = toBits m (v / 2 ^ k) := by
  rw [pow_add, Nat.mod_mul_right_div_self, toBits_mod]

theorem toBits_zero (n : Nat) : toBits n 0 = List.replicate n false := by
  induction n with
  | zero => rfl
  | succ n ih => simp [toBits, ih, List.replicate_succ]

theorem toBits_ones (n : Nat) : toBits n (2 ^ n - 1) = List.replicate n true := by
  rw [← toBits_ofBits (List.replicate n true)]
  congr 1
  · simp
  · induction n with
    | zero => rfl
    | succ n ih =>
      simp only [List.replicate_succ, ofBits, if_true, List.length_replicate, ← ih, pow_succ]
      have := Nat.one_le_two_pow (n := n)
      omega

/-- The low `n ≤ m` bits of `2 ^ m - 1` are ones. -/
theorem toBits_two_pow_sub_one {n m : Nat} (h : n ≤ m) :
    toBits n (2 ^ m - 1) = List.replicate n true := by
  have hsplit : toBits (m - n) ((2 ^ m - 1) / 2 ^ n) ++ toBits n (2 ^ m - 1) =
      List.replicate (m - n) true ++ List.replicate n true := by
    rw [← toBits_add, List.replicate_append_replicate, Nat.sub_add_cancel h, toBits_ones]
  exact (List.append_inj' hsplit (by simp)).2

end Lib.Bits
