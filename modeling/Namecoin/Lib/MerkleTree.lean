import Mathlib

/-! # Merkle trees with the duplicate-last rule

A level of the tree is a list of nodes. The next level pairs adjacent nodes
with `combine`; a level of odd length first repeats its last node. The root is
the single node of level `clog 2 n` for `n` leaves. A branch lists, bottom up,
the sibling of the path from a leaf to the root, and folding a branch into a
leaf, left or right as the bits of the position say, gives back the root.

Nothing here is specific to a hash function: `combine` is any function. -/

namespace Lib.MerkleTree

variable {α : Type} (combine : α → α → α)

/-- An odd level repeats its last node. -/
def padLevel (l : List α) : List α :=
  if l.length % 2 = 1 then l ++ l.getLast?.toList else l

theorem padLevel_def (l : List α) :
    padLevel l = if l.length % 2 = 1 then l ++ l.getLast?.toList else l := rfl

/-- Combine the nodes of an even level two by two. -/
def pairUp : List α → List α
  | a :: b :: rest => combine a b :: pairUp rest
  | _ => []

def nextLevel (l : List α) : List α := pairUp combine (padLevel l)

theorem nextLevel_def (l : List α) : nextLevel combine l = pairUp combine (padLevel l) := rfl

def levelAt (l : List α) : Nat → List α
  | 0 => l
  | k + 1 => nextLevel combine (levelAt l k)

@[simp] theorem levelAt_zero (l : List α) : levelAt combine l 0 = l := rfl

@[simp] theorem levelAt_succ (l : List α) (k : Nat) :
    levelAt combine l (k + 1) = nextLevel combine (levelAt combine l k) := rfl

/-- The number of nodes on level `k` of a tree over `n` leaves: `⌈n / 2^k⌉`. -/
def width (n k : Nat) : Nat := (n + 2 ^ k - 1) / 2 ^ k

theorem width_def (n k : Nat) : width n k = (n + 2 ^ k - 1) / 2 ^ k := rfl

section Levels

variable [Inhabited α]

/-- The `i`-th node of level `k`. -/
def node (l : List α) (k i : Nat) : α := (levelAt combine l k).getD i default

theorem node_def (l : List α) (k i : Nat) :
    node combine l k i = (levelAt combine l k).getD i default := rfl

/-- The index of the sibling of node `i`; the last node of an odd level is its
own sibling. -/
def siblingIdx (w i : Nat) : Nat := if i % 2 = 0 then min (i + 1) (w - 1) else i - 1

theorem siblingIdx_def (w i : Nat) :
    siblingIdx w i = if i % 2 = 0 then min (i + 1) (w - 1) else i - 1 := rfl

def root (l : List α) : α := node combine l (Nat.clog 2 l.length) 0

theorem root_def (l : List α) : root combine l = node combine l (Nat.clog 2 l.length) 0 := rfl

/-- The siblings met on the way from leaf `p` up to level `m`, bottom up. -/
def branchTo (l : List α) (p m : Nat) : List α :=
  (List.range m).map fun k => node combine l k (siblingIdx (width l.length k) (p / 2 ^ k))

theorem branchTo_def (l : List α) (p m : Nat) :
    branchTo combine l p m =
      (List.range m).map fun k => node combine l k (siblingIdx (width l.length k) (p / 2 ^ k)) :=
  rfl

/-- The siblings met on the way from leaf `p` to the root. -/
def branch (l : List α) (p : Nat) : List α := branchTo combine l p (Nat.clog 2 l.length)

theorem branch_def (l : List α) (p : Nat) :
    branch combine l p = branchTo combine l p (Nat.clog 2 l.length) := rfl

end Levels

/-- Fold a branch into a node: bit `0` of the index puts the node on the left. -/
def foldBranch (h : α) : List α → Nat → α
  | [], _ => h
  | s :: ss, i => foldBranch (if i % 2 = 1 then combine s h else combine h s) ss (i / 2)

@[simp] theorem foldBranch_nil (h : α) (i : Nat) : foldBranch combine h [] i = h := rfl

theorem foldBranch_cons (h s : α) (ss : List α) (i : Nat) :
    foldBranch combine h (s :: ss) i =
      foldBranch combine (if i % 2 = 1 then combine s h else combine h s) ss (i / 2) := rfl

/-- Folding two branches one after the other: the second starts at the
ancestor's index. -/
theorem foldBranch_append (h : α) (bs cs : List α) (i : Nat) :
    foldBranch combine h (bs ++ cs) i =
      foldBranch combine (foldBranch combine h bs i) cs (i / 2 ^ bs.length) := by
  induction bs generalizing h i with
  | nil => simp
  | cons b bs ih =>
    rw [List.cons_append, foldBranch_cons, foldBranch_cons, ih, List.length_cons, Nat.pow_succ',
      Nat.div_div_eq_div_mul]

/-! ## Lengths -/

@[simp] theorem length_pairUp (l : List α) : (pairUp combine l).length = l.length / 2 := by
  fun_induction pairUp combine l with
  | case1 a b rest ih => simp only [List.length_cons, ih]; omega
  | case2 l h =>
    match l, h with
    | [], _ => simp
    | [_], _ => simp
    | _ :: _ :: _, h => exact absurd rfl (h _ _ _)

@[simp] theorem length_padLevel (l : List α) :
    (padLevel l).length = l.length + l.length % 2 := by
  rw [padLevel_def]
  split
  · rename_i h
    have hne : l ≠ [] := by rintro rfl; simp at h
    obtain ⟨a, ha⟩ := Option.isSome_iff_exists.mp (List.getLast?_isSome.mpr hne)
    simp [ha, h]
  · omega

@[simp] theorem length_nextLevel (l : List α) :
    (nextLevel combine l).length = (l.length + 1) / 2 := by
  simp only [nextLevel_def, length_pairUp, length_padLevel]
  omega

theorem width_zero (n : Nat) : width n 0 = n := by simp [width_def]

theorem width_succ (n k : Nat) : width n (k + 1) = (width n k + 1) / 2 := by
  have hp : 0 < 2 ^ k := Nat.two_pow_pos k
  rw [width_def, width_def, Nat.pow_succ, ← Nat.div_div_eq_div_mul]
  congr 1
  rw [show n + 2 ^ k * 2 - 1 = (n + 2 ^ k - 1) + 1 * 2 ^ k by omega, Nat.add_mul_div_right _ _ hp]

@[simp] theorem length_levelAt (l : List α) (k : Nat) :
    (levelAt combine l k).length = width l.length k := by
  induction k with
  | zero => simp [width_zero]
  | succ k ih => simp [ih, width_succ]

/-- The levels above the leaves are the levels of the next level up. -/
theorem levelAt_succ_eq (l : List α) (k : Nat) :
    levelAt combine l (k + 1) = levelAt combine (nextLevel combine l) k := by
  induction k with
  | zero => rfl
  | succ k ih => rw [levelAt_succ combine l (k + 1), ih, levelAt_succ combine (nextLevel combine l) k]

theorem width_pos {n : Nat} (hn : 0 < n) (k : Nat) : 0 < width n k := by
  have hp : 0 < 2 ^ k := Nat.two_pow_pos k
  exact Nat.div_pos (by omega) hp

/-- Index `p / 2^k` of the ancestor of leaf `p` on level `k` is a node of that level. -/
theorem div_lt_width {n p : Nat} (hp : p < n) (k : Nat) : p / 2 ^ k < width n k := by
  have hpos : 0 < 2 ^ k := Nat.two_pow_pos k
  rw [width_def]
  apply (Nat.le_div_iff_mul_le hpos).mpr
  have := Nat.div_mul_le_self p (2 ^ k)
  have : p / 2 ^ k * 2 ^ k + 2 ^ k ≤ n + 2 ^ k - 1 + 1 := by omega
  rw [Nat.succ_mul]
  omega

/-- The top level `clog 2 n` has exactly one node. -/
theorem width_clog {n : Nat} (hn : 0 < n) : width n (Nat.clog 2 n) = 1 := by
  have hle : n ≤ 2 ^ Nat.clog 2 n := Nat.le_pow_clog Nat.one_lt_two n
  have hpos : 0 < 2 ^ Nat.clog 2 n := Nat.two_pow_pos _
  rw [width_def]
  apply Nat.div_eq_of_lt_le <;> omega

/-- From the top level on, a level has one node. -/
theorem width_of_clog_le {n k : Nat} (hn : 0 < n) (hk : Nat.clog 2 n ≤ k) : width n k = 1 := by
  have hle : n ≤ 2 ^ k :=
    le_trans (Nat.le_pow_clog Nat.one_lt_two n) (Nat.pow_le_pow_right (by decide) hk)
  have hpos : 0 < 2 ^ k := Nat.two_pow_pos k
  rw [width_def]
  apply Nat.div_eq_of_lt_le <;> omega

/-- On a level that divides the leaf count, the width is the exact quotient. -/
theorem width_of_dvd {n k : Nat} (hd : n % 2 ^ k = 0) : width n k = n / 2 ^ k := by
  have hpos : 0 < 2 ^ k := Nat.two_pow_pos k
  have hmul : n / 2 ^ k * 2 ^ k = n := Nat.div_mul_cancel (Nat.dvd_of_mod_eq_zero hd)
  rw [width_def]
  apply Nat.div_eq_of_lt_le
  · omega
  · rw [Nat.succ_mul]; omega

/-- The nodes of level `k` cover at most `2^(clog 2 n)` leaves. -/
theorem width_mul_pow_le {n k : Nat} (hk : k ≤ Nat.clog 2 n) :
    width n k * 2 ^ k ≤ 2 ^ Nat.clog 2 n := by
  have hle : n ≤ 2 ^ Nat.clog 2 n := Nat.le_pow_clog Nat.one_lt_two n
  have hpos : 0 < 2 ^ k := Nat.two_pow_pos k
  have hsplit : 2 ^ Nat.clog 2 n = 2 ^ (Nat.clog 2 n - k) * 2 ^ k := by
    rw [← Nat.pow_add]; congr 1; omega
  have hw : width n k ≤ 2 ^ (Nat.clog 2 n - k) := by
    rw [width_def]
    apply (Nat.div_le_iff_le_mul_add_pred hpos).mpr
    rw [Nat.mul_comm, ← hsplit]; omega
  calc width n k * 2 ^ k ≤ 2 ^ (Nat.clog 2 n - k) * 2 ^ k := Nat.mul_le_mul_right _ hw
    _ = 2 ^ Nat.clog 2 n := hsplit.symm

/-- Below the top, a level has at least two nodes. -/
theorem two_le_width {n k : Nat} (hk : k < Nat.clog 2 n) : 2 ≤ width n k := by
  have hlt : 2 ^ k < n := (Nat.lt_clog_iff_pow_lt Nat.one_lt_two).mp hk
  have hpos : 0 < 2 ^ k := Nat.two_pow_pos k
  rw [width_def]
  apply (Nat.le_div_iff_mul_le hpos).mpr
  omega

/-! ## Nodes -/

theorem getD_pairUp (l : List α) (d : α) {i : Nat} (hi : 2 * i + 1 < l.length) :
    (pairUp combine l).getD i d = combine (l.getD (2 * i) d) (l.getD (2 * i + 1) d) := by
  fun_induction pairUp combine l generalizing i with
  | case1 a b rest ih =>
    cases i with
    | zero => simp
    | succ i =>
      simp only [List.length_cons] at hi
      rw [List.getD_cons_succ, ih (by omega),
        show 2 * (i + 1) = 2 * i + 1 + 1 by omega, List.getD_cons_succ, List.getD_cons_succ,
        show 2 * i + 1 + 1 + 1 = 2 * i + 1 + 1 + 1 by rfl, List.getD_cons_succ,
        List.getD_cons_succ]
  | case2 l h =>
    match l, h with
    | [], _ => simp at hi
    | [_], _ => simp at hi
    | _ :: _ :: _, h => exact absurd rfl (h _ _ _)

/-- Padding repeats the last node: index `j` of a padded level reads index
`min j (length - 1)` of the level. -/
theorem getD_padLevel (l : List α) (d : α) {j : Nat} (hj : j < (padLevel l).length) :
    (padLevel l).getD j d = l.getD (min j (l.length - 1)) d := by
  rw [length_padLevel] at hj
  rw [padLevel_def]
  split
  · rename_i hodd
    rcases Nat.lt_or_ge j l.length with hlt | hge
    · rw [List.getD_append _ _ _ _ hlt, Nat.min_eq_left (by omega)]
    · have hj' : j = l.length := by omega
      subst hj'
      rw [List.getD_append_right _ _ _ _ (le_refl _), Nat.sub_self, Nat.min_eq_right (by omega)]
      have hlast : l.getLast?.toList = [l.getD (l.length - 1) d] := by
        rw [List.getLast?_eq_getElem?, List.getD_eq_getElem?_getD]
        cases h : l[l.length - 1]? with
        | none => rw [List.getElem?_eq_none_iff] at h; omega
        | some a => simp
      rw [hlast]
      simp
  · rw [Nat.min_eq_left (by omega)]

/-- The next level combines each node with its right neighbour, or with itself
when it is the last node of an odd level. -/
theorem getD_nextLevel (l : List α) (d : α) {i : Nat} (hi : i < (l.length + 1) / 2) :
    (nextLevel combine l).getD i d =
      combine (l.getD (2 * i) d) (l.getD (min (2 * i + 1) (l.length - 1)) d) := by
  have hlen := length_padLevel l
  rw [nextLevel_def, getD_pairUp _ _ _ (by omega), getD_padLevel _ _ (by omega), getD_padLevel _ _ (by omega),
    Nat.min_eq_left (by omega)]

section Levels

variable [Inhabited α]

theorem node_succ (l : List α) {k i : Nat} (hi : i < width l.length (k + 1)) :
    node combine l (k + 1) i =
      combine (node combine l k (2 * i))
        (node combine l k (min (2 * i + 1) (width l.length k - 1))) := by
  rw [width_succ] at hi
  simp only [node_def]
  rw [levelAt_succ, getD_nextLevel _ _ _ (by rw [length_levelAt]; exact hi), length_levelAt]

/-- One step up the branch: combining the ancestor of leaf `p` on level `k`
with its sibling gives the ancestor on level `k + 1`. -/
theorem combine_sibling (l : List α) {p : Nat} (hp : p < l.length) (k : Nat) :
    (if p / 2 ^ k % 2 = 1 then
        combine (node combine l k (siblingIdx (width l.length k) (p / 2 ^ k)))
          (node combine l k (p / 2 ^ k))
      else
        combine (node combine l k (p / 2 ^ k))
          (node combine l k (siblingIdx (width l.length k) (p / 2 ^ k)))) =
      node combine l (k + 1) (p / 2 ^ (k + 1)) := by
  have hlt := div_lt_width hp k
  have hdiv : p / 2 ^ (k + 1) = p / 2 ^ k / 2 := by rw [Nat.pow_succ, Nat.div_div_eq_div_mul]
  rw [node_succ _ _ (hdiv ▸ div_lt_width hp (k + 1)), hdiv]
  simp only [siblingIdx_def]
  split
  · rename_i hodd
    have h1 : 2 * (p / 2 ^ k / 2) + 1 = p / 2 ^ k := by omega
    have h0 : 2 * (p / 2 ^ k / 2) = p / 2 ^ k - 1 := by omega
    rw [if_neg (by omega), h1, h0, Nat.min_eq_left (by omega)]
  · rename_i heven
    rw [if_pos (by omega), show 2 * (p / 2 ^ k / 2) = p / 2 ^ k by omega]

/-- Folding the rest of the branch from level `k` reaches the root. -/
theorem foldBranch_from (l : List α) {p : Nat} (hp : p < l.length) :
    ∀ m k, k + m = Nat.clog 2 l.length →
      foldBranch combine (node combine l k (p / 2 ^ k))
        ((List.range' k m).map fun j => node combine l j
          (siblingIdx (width l.length j) (p / 2 ^ j))) (p / 2 ^ k) = root combine l := by
  intro m
  induction m with
  | zero =>
    intro k hk
    rw [Nat.add_zero] at hk
    subst hk
    have htop : p / 2 ^ Nat.clog 2 l.length = 0 := by
      have hlt := div_lt_width hp (Nat.clog 2 l.length)
      rw [width_clog (by omega)] at hlt
      exact Nat.lt_one_iff.mp hlt
    simp [root_def, htop]
  | succ m ih =>
    intro k hk
    rw [List.range'_succ, List.map_cons, foldBranch_cons, combine_sibling _ _ hp,
      show p / 2 ^ k / 2 = p / 2 ^ (k + 1) by rw [Nat.pow_succ, Nat.div_div_eq_div_mul]]
    exact ih (k + 1) (by omega)

/-- **Branch soundness.** Folding the branch of leaf `p` into that leaf gives
the root. -/
theorem foldBranch_branch (l : List α) {p : Nat} (hp : p < l.length) :
    foldBranch combine (l.getD p default) (branch combine l p) p = root combine l := by
  have h := foldBranch_from combine l hp (Nat.clog 2 l.length) 0 (by omega)
  simpa [node_def, branch_def, branchTo_def, List.range_eq_range'] using h

theorem branchTo_succ (l : List α) (p m : Nat) :
    branchTo combine l p (m + 1) =
      branchTo combine l p m ++ [node combine l m (siblingIdx (width l.length m) (p / 2 ^ m))] := by
  simp [branchTo_def, List.range_succ]

/-- Going one level up keeps the root. -/
theorem root_nextLevel (l : List α) (hl : 1 < l.length) :
    root combine (nextLevel combine l) = root combine l := by
  have hclog : Nat.clog 2 l.length = Nat.clog 2 ((l.length + 1) / 2) + 1 :=
    Nat.clog_of_one_lt Nat.one_lt_two hl
  rw [root_def, root_def, node_def, node_def, hclog, levelAt_succ_eq, length_nextLevel]

/-- A tree of at most one leaf has that leaf as root (`default` for none). -/
theorem root_of_length_le_one (l : List α) (hl : l.length ≤ 1) :
    root combine l = l.headD default := by
  match l, hl with
  | [], _ => rfl
  | [a], _ => simp [root_def, node_def]

@[simp] theorem length_branch (l : List α) (p : Nat) :
    (branch combine l p).length = Nat.clog 2 l.length := by
  simp [branch_def, branchTo_def]

end Levels

/-! ## Branches pin their leaf -/

/-- Two branches of one length, folded at one index into one node, start from
one node, unless `combine` has a collision. -/
theorem foldBranch_eq_or_collision :
    ∀ (bs bs' : List α) (h h' : α) (i : Nat), bs.length = bs'.length →
      foldBranch combine h bs i = foldBranch combine h' bs' i →
      h = h' ∨ ∃ a b c d, combine a b = combine c d ∧ (a ≠ c ∨ b ≠ d)
  | [], [], _, _, _, _, heq => .inl heq
  | [], _ :: _, _, _, _, hlen, _ => absurd hlen (by simp)
  | _ :: _, [], _, _, _, hlen, _ => absurd hlen (by simp)
  | b :: bs, b' :: bs', h, h', i, hlen, heq => by
    rw [foldBranch_cons, foldBranch_cons] at heq
    rcases foldBranch_eq_or_collision bs bs' _ _ (i / 2) (by simpa using hlen) heq with
      hnext | hcoll
    · by_cases hh : h = h'
      · exact .inl hh
      · -- the nodes one level up agree although `h` and `h'` differ
        right
        by_cases hi : i % 2 = 1
        · simp only [hi, if_true] at hnext
          exact ⟨b, h, b', h', hnext, .inr hh⟩
        · simp only [hi, if_false] at hnext
          exact ⟨h, b, h', b', hnext, .inl hh⟩
    · exact .inr hcoll

end Lib.MerkleTree
