import Mathlib.Algebra.Order.Group.Nat
import Mathlib.Tactic.Positivity
import Mathlib.Tactic.Ring

/-! # Amount compression (compressor.cpp)

`CompressAmount` takes up to nine factors of ten off the amount, `n = m *
10 ^ e` (`IsTenSplit`), and below nine of them also drops the last digit of
`m`, which is then not 0. The comment above it gives the result in exact
arithmetic (`compressSplit`), and `DecompressAmount` inverts that formula
(`decompressSplit`). Both are `uint64_t` code: the model computes in
`UInt64`, and on amounts up to `MAX_MONEY` its results are those of the
formulas, so nothing wraps (`CompressAmount_toNat`, `DecompressAmount_toNat`).

The split of a number is unique (`IsTenSplit.unique`), and the two formulas
are inverse to each other (`decompressSplit_compressSplit`,
`compressSplit_decompressSplit`): this gives both round trips. -/

namespace Namecoin.Serialize

/-- `MAX_MONEY`: `21'000'000 * COIN`. -/
def MAX_MONEY : UInt64 := 21000000 * 100000000

/-- The `while` loop of `CompressAmount`: it divides `n` by ten while the last
digit is 0 and fewer than nine factors are off, counting them in `e`. Nine
turns are all that `e < 9` allows. -/
def stripTens : Nat → UInt64 → Nat → UInt64 × Nat
  | 0, n, e => (n, e)
  | fuel + 1, n, e => if n % 10 = 0 ∧ e < 9 then stripTens fuel (n / 10) (e + 1) else (n, e)

/-- `CompressAmount`. The `assert (d >= 1 && d <= 9)` is left out: `d` is the
last digit of a number that `stripTens` left without a trailing zero. -/
def CompressAmount (n : UInt64) : UInt64 :=
  if n = 0 then 0
  else
    let (n, e) := stripTens 9 n 0
    if e < 9 then
      let d := n % 10
      let n := n / 10
      1 + (n * 9 + d - 1) * 10 + UInt64.ofNat e
    else 1 + (n - 1) * 10 + 9

/-- The `while (e)` loop of `DecompressAmount`. -/
def timesTen : Nat → UInt64 → UInt64
  | 0, n => n
  | e + 1, n => timesTen e (n * 10)

/-- `DecompressAmount`. -/
def DecompressAmount (x : UInt64) : UInt64 :=
  if x = 0 then 0
  else
    let x := x - 1
    let e := x % 10
    let x := x / 10
    let n :=
      if e < 9 then
        let d := x % 9 + 1
        let x := x / 9
        x * 10 + d
      else x + 1
    timesTen e.toNat n

/-! ## The formulas, in exact arithmetic -/

/-- `n` is `m * 10 ^ e` with at most nine factors of ten taken out, and all
of them unless there are more than nine. -/
def IsTenSplit (n m e : Nat) : Prop := n = m * 10 ^ e ∧ 0 < m ∧ e ≤ 9 ∧ (e < 9 → m % 10 ≠ 0)

/-- One split has fewer factors than another only if its `m` ends in 0. -/
theorem IsTenSplit.le {n m e m' e' : Nat} (h : IsTenSplit n m e) (h' : IsTenSplit n m' e') :
    e' ≤ e := by
  by_contra hlt
  obtain ⟨k, hk⟩ : ∃ k, e' = e + (k + 1) := ⟨e' - e - 1, by omega⟩
  -- `m * 10 ^ e = m' * 10 ^ (e + k + 1)`, so ten divides `m`
  have hm : m = m' * 10 ^ k * 10 := by
    have heq : m * 10 ^ e = (m' * 10 ^ k * 10) * 10 ^ e := by
      rw [← h.1, h'.1, hk, pow_add, pow_succ]
      ring
    exact Nat.eq_of_mul_eq_mul_right (by positivity) heq
  have he' := h'.2.2.1
  exact h.2.2.2 (by omega) (by rw [hm]; simp)

theorem IsTenSplit.unique {n m e m' e' : Nat} (h : IsTenSplit n m e) (h' : IsTenSplit n m' e') :
    m = m' ∧ e = e' := by
  have he : e = e' := le_antisymm (h'.le h) (h.le h')
  subst he
  refine ⟨Nat.eq_of_mul_eq_mul_right (by positivity : 0 < 10 ^ e) ?_, rfl⟩
  rw [← h.1, ← h'.1]

/-- The result of `CompressAmount` that the comment above it gives, for the
split `m * 10 ^ e`: `1 + 10 * (9 * n + d - 1) + e` with `n` and `d` the digits
of `m` before and at its end, or `1 + 10 * (m - 1) + 9` at nine factors. -/
def compressSplit (m e : Nat) : Nat :=
  if e < 9 then 1 + 10 * (9 * (m / 10) + m % 10 - 1) + e else 1 + 10 * (m - 1) + 9

/-- The split that `DecompressAmount` reads off `x`, as its comment has it. -/
def decompressSplit (x : Nat) : Nat × Nat :=
  let e := (x - 1) % 10
  let y := (x - 1) / 10
  (if e < 9 then y / 9 * 10 + (y % 9 + 1) else y + 1, e)

theorem decompressSplit_compressSplit {m e : Nat} (h : 0 < m) (he : e ≤ 9)
    (hlast : e < 9 → m % 10 ≠ 0) : decompressSplit (compressSplit m e) = (m, e) := by
  unfold decompressSplit compressSplit
  split
  · next he9 =>
    have := hlast he9
    simp only [Prod.mk.injEq]
    split <;> omega
  · simp only [Prod.mk.injEq]
    split <;> omega

theorem compressSplit_decompressSplit {x : Nat} (hx : 0 < x) :
    compressSplit (decompressSplit x).1 (decompressSplit x).2 = x := by
  unfold decompressSplit compressSplit
  dsimp only
  -- both formulas branch on the same `e < 9`
  split <;> omega

/-- What `DecompressAmount` reads off is a split. -/
theorem decompressSplit_isTenSplit (x : Nat) :
    IsTenSplit ((decompressSplit x).1 * 10 ^ (decompressSplit x).2) (decompressSplit x).1
      (decompressSplit x).2 := by
  unfold decompressSplit
  dsimp only
  refine ⟨rfl, ?_, by omega, fun he => ?_⟩
  · split <;> omega
  · rw [if_pos he]
    omega

/-- The amounts that decompress from what `MAX_MONEY` compresses to, or
below, are at most `MAX_MONEY`. -/
theorem decompressSplit_le {x : Nat} (hx : 0 < x) (hle : x ≤ 21000000) :
    (decompressSplit x).1 * 10 ^ (decompressSplit x).2 ≤ 2100000000000000 := by
  unfold decompressSplit
  dsimp only
  split
  · next he =>
    -- below nine factors the mantissa has at most seven digits
    have hm : (x - 1) / 10 / 9 * 10 + ((x - 1) / 10 % 9 + 1) ≤ 2333340 := by omega
    have hp : 10 ^ ((x - 1) % 10) ≤ 10 ^ 8 := Nat.pow_le_pow_right (by decide) (by omega)
    calc ((x - 1) / 10 / 9 * 10 + ((x - 1) / 10 % 9 + 1)) * 10 ^ ((x - 1) % 10)
        ≤ 2333340 * 10 ^ 8 := Nat.mul_le_mul hm hp
      _ ≤ 2100000000000000 := by omega
  · next he =>
    rw [show (x - 1) % 10 = 9 by omega]
    omega

/-! ## The `uint64_t` code computes the formulas -/

theorem toNat_ne_zero {n : UInt64} (hn : n ≠ 0) : 0 < n.toNat :=
  Nat.pos_of_ne_zero fun h => hn (UInt64.toNat_inj.1 h)

theorem stripTens_isTenSplit (fuel : Nat) {n : UInt64} {e : Nat} (hn : 0 < n.toNat)
    (hfuel : e + fuel = 9) :
    IsTenSplit (n.toNat * 10 ^ e) (stripTens fuel n e).1.toNat (stripTens fuel n e).2 := by
  induction fuel generalizing n e with
  | zero =>
    simp only [stripTens]
    exact ⟨rfl, hn, by omega, fun h => absurd h (by omega)⟩
  | succ fuel ih =>
    rw [stripTens]
    split
    · next h =>
      -- a last digit 0 goes into `e`
      have h10 : n.toNat % 10 = 0 := by
        simpa [UInt64.toNat_mod] using congrArg UInt64.toNat h.1
      have hdiv : (n / 10).toNat = n.toNat / 10 := UInt64.toNat_div n 10
      have heq : n.toNat / 10 * 10 ^ (e + 1) = n.toNat * 10 ^ e := by
        rw [pow_succ, mul_comm (10 ^ e) 10, ← mul_assoc,
          Nat.div_mul_cancel (Nat.dvd_of_mod_eq_zero h10)]
      have := ih (n := n / 10) (e := e + 1) (by omega) (by omega)
      rwa [hdiv, heq] at this
    · next h =>
      refine ⟨rfl, hn, by omega, fun he h10 => h ⟨?_, he⟩⟩
      exact UInt64.toNat_inj.1 (by simpa [UInt64.toNat_mod] using h10)

/-- The loop ends at the split of `n`. -/
theorem stripTens_eq {n : UInt64} {m e : Nat} (h : IsTenSplit n.toNat m e) :
    stripTens 9 n 0 = (UInt64.ofNat m, e) := by
  have hn : 0 < n.toNat := by
    rw [h.1]
    exact Nat.mul_pos h.2.1 (by positivity)
  have hsplit := stripTens_isTenSplit 9 hn rfl
  rw [pow_zero, mul_one] at hsplit
  obtain ⟨hm, he⟩ := hsplit.unique h
  rw [← he, ← hm, UInt64.ofNat_toNat]

theorem CompressAmount_toNat {n : UInt64} (hmax : n ≤ MAX_MONEY) {m e : Nat}
    (h : IsTenSplit n.toNat m e) : (CompressAmount n).toNat = compressSplit m e := by
  have hn : n ≠ 0 := by
    rintro rfl
    exact absurd h.1 (Nat.ne_of_lt (Nat.mul_pos h.2.1 (by positivity)))
  -- the mantissa is at most the amount
  have hm : m ≤ 2100000000000000 := by
    have : m ≤ n.toNat := by
      rw [h.1]
      exact Nat.le_mul_of_pos_right m (by positivity)
    rw [UInt64.le_iff_toNat_le] at hmax
    exact this.trans hmax
  have hlt : m < 2 ^ 64 := by omega
  have hofNat : (UInt64.ofNat m).toNat = m := by simpa using Nat.mod_eq_of_lt hlt
  rw [CompressAmount, if_neg hn, stripTens_eq h]
  dsimp only
  unfold compressSplit
  split
  · next he =>
    have hlast := h.2.2.2 he
    have hsub : (1 : UInt64) ≤ UInt64.ofNat m / 10 * 9 + UInt64.ofNat m % 10 := by
      rw [UInt64.le_iff_toNat_le]
      simp only [UInt64.toNat_add, UInt64.toNat_mul, UInt64.toNat_div, UInt64.toNat_mod, hofNat,
        UInt64.reduceToNat]
      simp (disch := omega) only [Nat.mod_eq_of_lt]
      omega
    have he64 : (UInt64.ofNat e).toNat = e := by
      simpa using Nat.mod_eq_of_lt (show e < 2 ^ 64 by omega)
    -- every intermediate value is below `2 ^ 64`, so no `% 2 ^ 64` changes anything
    simp only [UInt64.toNat_add, UInt64.toNat_mul, UInt64.toNat_sub_of_le _ _ hsub,
      UInt64.toNat_div, UInt64.toNat_mod, hofNat, he64, UInt64.reduceToNat]
    simp (disch := omega) only [Nat.mod_eq_of_lt]
    omega
  · next he =>
    have hsub : (1 : UInt64) ≤ UInt64.ofNat m := by
      rw [UInt64.le_iff_toNat_le, hofNat]
      exact h.2.1
    simp only [UInt64.toNat_add, UInt64.toNat_mul, UInt64.toNat_sub_of_le _ _ hsub, hofNat,
      UInt64.reduceToNat]
    simp (disch := omega) only [Nat.mod_eq_of_lt]
    omega

theorem timesTen_toNat (e : Nat) {n : UInt64} (h : n.toNat * 10 ^ e < 2 ^ 64) :
    (timesTen e n).toNat = n.toNat * 10 ^ e := by
  induction e generalizing n with
  | zero => simp [timesTen]
  | succ e ih =>
    have hpos : 0 < 10 ^ e := by positivity
    have hle : n.toNat * 10 ≤ n.toNat * 10 ^ (e + 1) := by
      rw [pow_succ']
      exact Nat.mul_le_mul_left _ (Nat.le_mul_of_pos_right 10 hpos)
    have h10 : (n * 10).toNat = n.toNat * 10 := by
      rw [UInt64.toNat_mul]
      simp only [UInt64.reduceToNat]
      exact Nat.mod_eq_of_lt (by omega)
    rw [timesTen, ih (by rw [h10, mul_assoc, ← pow_succ']; exact h), h10, mul_assoc, ← pow_succ']

theorem DecompressAmount_toNat {x : UInt64} (hx : x ≠ 0)
    (h : (decompressSplit x.toNat).1 * 10 ^ (decompressSplit x.toNat).2 < 2 ^ 64) :
    (DecompressAmount x).toNat = (decompressSplit x.toNat).1 * 10 ^ (decompressSplit x.toNat).2 := by
  have hx0 := toNat_ne_zero hx
  have hlt := x.toNat_lt
  have hsub : (x - 1).toNat = x.toNat - 1 :=
    UInt64.toNat_sub_of_le _ _ (by rw [UInt64.le_iff_toNat_le]; exact hx0)
  -- `e` and the mantissa, as numbers
  have he : ((x - 1) % 10).toNat = (decompressSplit x.toNat).2 := by
    rw [UInt64.toNat_mod, hsub]
    rfl
  have hmant : (if (x - 1) % 10 < 9 then (x - 1) / 10 / 9 * 10 + ((x - 1) / 10 % 9 + 1)
      else (x - 1) / 10 + 1).toNat = (decompressSplit x.toNat).1 := by
    unfold decompressSplit
    dsimp only
    have hcond : (x - 1) % 10 < 9 ↔ (x.toNat - 1) % 10 < 9 := by
      rw [UInt64.lt_iff_toNat_lt, UInt64.toNat_mod, hsub]
      rfl
    by_cases hc : (x.toNat - 1) % 10 < 9
    · rw [if_pos (hcond.2 hc), if_pos hc]
      simp only [UInt64.toNat_add, UInt64.toNat_mul, UInt64.toNat_div, UInt64.toNat_mod, hsub,
        UInt64.reduceToNat]
      simp (disch := omega) only [Nat.mod_eq_of_lt]
    · rw [if_neg (fun h' => hc (hcond.1 h')), if_neg hc]
      simp only [UInt64.toNat_add, UInt64.toNat_div, hsub, UInt64.reduceToNat]
      simp (disch := omega) only [Nat.mod_eq_of_lt]
  rw [DecompressAmount, if_neg hx]
  dsimp only
  rw [timesTen_toNat _ (by rw [hmant, he]; exact h), hmant, he]

/-! ## Round trips -/

theorem compressSplit_pos (m e : Nat) : 0 < compressSplit m e := by
  unfold compressSplit
  split <;> omega

theorem MAX_MONEY_toNat : MAX_MONEY.toNat = 2100000000000000 := rfl

theorem CompressAmount_MAX_MONEY : CompressAmount MAX_MONEY = 21000000 := by decide

theorem DecompressAmount_CompressAmount {n : UInt64} (hmax : n ≤ MAX_MONEY) :
    DecompressAmount (CompressAmount n) = n := by
  by_cases hn : n = 0
  · subst hn
    rfl
  have hsplit := stripTens_isTenSplit 9 (toNat_ne_zero hn) rfl
  rw [pow_zero, mul_one] at hsplit
  have hc := CompressAmount_toNat hmax hsplit
  have hc0 : CompressAmount n ≠ 0 := fun h => by
    have := compressSplit_pos (stripTens 9 n 0).1.toNat (stripTens 9 n 0).2
    rw [← hc, h] at this
    exact absurd this (by decide)
  -- the formula of `DecompressAmount` gives the split back
  have hd : decompressSplit (CompressAmount n).toNat = ((stripTens 9 n 0).1.toNat, (stripTens 9 n 0).2) := by
    rw [hc]
    exact decompressSplit_compressSplit hsplit.2.1 hsplit.2.2.1 hsplit.2.2.2
  apply UInt64.toNat_inj.1
  rw [DecompressAmount_toNat hc0 (by rw [hd, ← hsplit.1]; exact n.toNat_lt), hd, ← hsplit.1]

theorem CompressAmount_DecompressAmount {x : UInt64} (hx : x ≤ CompressAmount MAX_MONEY) :
    CompressAmount (DecompressAmount x) = x := by
  by_cases hx0 : x = 0
  · subst hx0
    rfl
  have hpos := toNat_ne_zero hx0
  have hle : x.toNat ≤ 21000000 := by
    rw [CompressAmount_MAX_MONEY, UInt64.le_iff_toNat_le] at hx
    exact hx
  have hb := decompressSplit_le hpos hle
  have hD := DecompressAmount_toNat hx0 (by omega)
  -- the amount is at most `MAX_MONEY`, and its split is the one read off `x`
  have hDmax : DecompressAmount x ≤ MAX_MONEY := by
    rw [UInt64.le_iff_toNat_le, hD, MAX_MONEY_toNat]
    exact hb
  have hsplit : IsTenSplit (DecompressAmount x).toNat (decompressSplit x.toNat).1
      (decompressSplit x.toNat).2 := by
    rw [hD]
    exact decompressSplit_isTenSplit x.toNat
  apply UInt64.toNat_inj.1
  rw [CompressAmount_toNat hDmax hsplit, compressSplit_decompressSplit hpos]

theorem CompressAmount_round_trip :
    (∀ n : UInt64, n ≤ MAX_MONEY →
      DecompressAmount (CompressAmount n) = n ∧
        ∀ m e, IsTenSplit n.toNat m e → (CompressAmount n).toNat = compressSplit m e) ∧
    (∀ n n' : UInt64, n ≤ MAX_MONEY → n' ≤ MAX_MONEY →
      CompressAmount n = CompressAmount n' → n = n') ∧
    (∀ x : UInt64, x ≤ CompressAmount MAX_MONEY → CompressAmount (DecompressAmount x) = x) := by
  refine ⟨fun n hn => ⟨DecompressAmount_CompressAmount hn, fun m e h => CompressAmount_toNat hn h⟩,
    fun n n' hn hn' h => ?_, fun x hx => CompressAmount_DecompressAmount hx⟩
  -- both decompress to themselves
  rw [← DecompressAmount_CompressAmount hn, h, DecompressAmount_CompressAmount hn']

end Namecoin.Serialize
