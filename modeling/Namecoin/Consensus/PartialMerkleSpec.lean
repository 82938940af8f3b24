import Mathlib
import Namecoin.Consensus.PartialMerkle
import Namecoin.Consensus.MerkleBranch

/-! # Partial merkle trees against the merkle tree

`CalcTreeWidth` is the width of a level and the height loop finds
`Nat.clog 2 n`, the top level of the duplicate-last tree of `Lib.MerkleTree`.
On the nodes of the tree `CalcHash` is `node`, so the root of a built tree is
the block's merkle root.

`TraverseAndBuild` emits, for a node, its bit and then either its hash or the
output of its children. `TraverseAndExtract` reads that output back from any
position of the streams: it returns the node's hash and the matched leaves
below the node, provided no two siblings of the tree have one hash
(`TraverseAndExtract_build`). `ComputeMerkleRoot` reports such siblings as a
mutation, so the trees of blocks that pass its check round trip, through the
wire too (`ExtractMatches_create`).

In the other direction, a traversal of any bits and hashes that does not fail
returns matched txids at increasing positions. Each of them folds, along a
branch of the tree's height, into the returned root (`ExtractMatches_sound`).

Under a hash without collisions, distinct txids have no equal siblings, so
both directions hold together (`ExtractMatches_roundtrip_sound`). What the
root of an accepted tree does not show is that some leaves have it: a stored
hash need not be the root of any txids (`ExtractMatches_pruned_root`). -/

namespace Namecoin.Consensus.PartialMerkle
open Lib.MerkleTree Namecoin.Consensus.Merkle Namecoin.Consensus.MerkleBranch

namespace CPartialMerkleTree

/-! ## Widths and heights -/

theorem CalcTreeWidth_eq (n h : Nat) : CalcTreeWidth n h = width n h := by
  rw [CalcTreeWidth, Nat.one_shiftLeft, Nat.shiftRight_eq_div_pow, width_def]

/-- Node `i` of level `h` exists when its first leaf does. -/
theorem lt_width_iff {n h i : Nat} : i < width n h ↔ i * 2 ^ h < n := by
  have hpos : 0 < 2 ^ h := Nat.two_pow_pos h
  rw [width_def, ← Nat.succ_le_iff, Nat.le_div_iff_mul_le hpos, Nat.succ_mul]
  omega

theorem width_zero_left (h : Nat) : width 0 h = 0 := by
  have hpos : 0 < 2 ^ h := Nat.two_pow_pos h
  rw [width_def, Nat.zero_add]
  exact Nat.div_eq_of_lt (by omega)

/-- A level has more than one node exactly below the top. -/
theorem one_lt_width_iff {n h : Nat} : 1 < width n h ↔ h < Nat.clog 2 n := by
  constructor
  · intro hw
    by_contra hk
    rcases Nat.eq_zero_or_pos n with rfl | hn
    · rw [width_zero_left] at hw
      omega
    · rw [width_of_clog_le hn (by omega)] at hw
      omega
  · exact fun hk => two_le_width hk

theorem heightLoop_eq (n : Nat) : ∀ fuel h, h ≤ Nat.clog 2 n → Nat.clog 2 n ≤ h + fuel →
    heightLoop n fuel h = Nat.clog 2 n
  | 0, h, hle, hfuel => by rw [heightLoop]; omega
  | fuel + 1, h, hle, hfuel => by
    rw [heightLoop, CalcTreeWidth_eq]
    split
    · rename_i hw
      exact heightLoop_eq n fuel (h + 1) (one_lt_width_iff.mp hw) (by omega)
    · rename_i hw
      have htop : ¬ h < Nat.clog 2 n := fun hk => hw (one_lt_width_iff.mpr hk)
      omega

/-- The loop finds the top level of the tree. -/
theorem treeHeight_eq (n : Nat) : treeHeight n = Nat.clog 2 n := by
  have hle : Nat.clog 2 n ≤ n := (Nat.clog_le_iff_le_pow Nat.one_lt_two).mpr Nat.lt_two_pow_self.le
  exact heightLoop_eq n n 0 (Nat.zero_le _) (by omega)

/-- The left child of a node exists. -/
theorem mul_two_lt_width {n h pos : Nat} (hpos : pos < width n (h + 1)) : pos * 2 < width n h := by
  rw [width_succ] at hpos
  omega

section Nodes

variable {α : Type} [Inhabited α] (Hash : α → α → α)

theorem node_succ_of_right (vTxid : List α) {h pos : Nat} (hright : pos * 2 + 1 < width vTxid.length h) :
    node Hash vTxid (h + 1) pos = Hash (node Hash vTxid h (pos * 2)) (node Hash vTxid h (pos * 2 + 1)) := by
  have hpos : pos < width vTxid.length (h + 1) := by rw [width_succ]; omega
  rw [node_succ Hash vTxid hpos, Nat.mul_comm 2 pos, Nat.min_eq_left (by omega)]

/-- The last node of an odd level is combined with itself. -/
theorem node_succ_of_no_right (vTxid : List α) {h pos : Nat} (hpos : pos < width vTxid.length (h + 1))
    (hright : ¬ pos * 2 + 1 < width vTxid.length h) :
    node Hash vTxid (h + 1) pos = Hash (node Hash vTxid h (pos * 2)) (node Hash vTxid h (pos * 2)) := by
  have hleft := mul_two_lt_width hpos
  rw [node_succ Hash vTxid hpos, Nat.mul_comm 2 pos, Nat.min_eq_right (by omega),
    show width vTxid.length h - 1 = pos * 2 by omega]

/-- On the nodes of the tree, `CalcHash` is the node of the merkle tree. -/
theorem CalcHash_eq_node (vTxid : List α) :
    ∀ h pos, pos < width vTxid.length h →
      CalcHash Hash vTxid.length vTxid h pos = node Hash vTxid h pos
  | 0, pos, _ => by rw [CalcHash, node_def, levelAt_zero]
  | h + 1, pos, hpos => by
    have hleft := mul_two_lt_width hpos
    rw [CalcHash, CalcTreeWidth_eq, CalcHash_eq_node vTxid h (pos * 2) hleft]
    by_cases hright : pos * 2 + 1 < width vTxid.length h
    · rw [if_pos hright, CalcHash_eq_node vTxid h (pos * 2 + 1) hright,
        node_succ_of_right Hash vTxid hright]
    · rw [if_neg hright, node_succ_of_no_right Hash vTxid hpos hright]

end Nodes

/-! ## The leaves below a node -/

theorem leavesBelow_eq (n h pos : Nat) :
    leavesBelow n h pos = List.range' (pos * 2 ^ h) (min ((pos + 1) * 2 ^ h) n - pos * 2 ^ h) := by
  rw [leavesBelow, Nat.shiftLeft_eq, Nat.shiftLeft_eq]

theorem leavesBelow_zero {n pos : Nat} (hpos : pos < n) : leavesBelow n 0 pos = [pos] := by
  rw [leavesBelow_eq, Nat.pow_zero, Nat.mul_one, Nat.mul_one, Nat.min_eq_left (by omega),
    Nat.add_sub_cancel_left]
  rfl

/-- Cutting the leaves `[a, min (a + x + y) n)` at `a + x`. -/
theorem range'_min_split (a x y n : Nat) :
    List.range' a (min (a + x + y) n - a) =
      List.range' a (min (a + x) n - a) ++ List.range' (a + x) (min (a + x + y) n - (a + x)) := by
  by_cases hn : a + x ≤ n
  · rw [Nat.min_eq_left hn, Nat.add_sub_cancel_left]
    have hsplit : min (a + x + y) n - a = x + (min (a + x + y) n - (a + x)) := by omega
    rw [hsplit, ← List.range'_append, Nat.one_mul]
  · rw [Nat.min_eq_right (by omega), Nat.min_eq_right (by omega),
      show n - (a + x) = 0 by omega, List.range'_zero, List.append_nil]

/-- The leaves below a node are those below its left child, then those below
its right child. -/
theorem leavesBelow_succ (n h pos : Nat) :
    leavesBelow n (h + 1) pos = leavesBelow n h (pos * 2) ++ leavesBelow n h (pos * 2 + 1) := by
  have h1 : pos * 2 ^ (h + 1) = pos * 2 * 2 ^ h := by ring
  have h2 : (pos + 1) * 2 ^ (h + 1) = pos * 2 * 2 ^ h + 2 ^ h + 2 ^ h := by ring
  have h3 : (pos * 2 + 1) * 2 ^ h = pos * 2 * 2 ^ h + 2 ^ h := by ring
  have h4 : (pos * 2 + 1 + 1) * 2 ^ h = pos * 2 * 2 ^ h + 2 ^ h + 2 ^ h := by ring
  rw [leavesBelow_eq, leavesBelow_eq, leavesBelow_eq, h1, h2, h3, h4, range'_min_split]

/-- A node beyond the last one has no leaves. -/
theorem leavesBelow_of_width_le {n h pos : Nat} (hpos : ¬ pos < width n h) : leavesBelow n h pos = [] := by
  rw [lt_width_iff] at hpos
  have hp : 0 < 2 ^ h := Nat.two_pow_pos h
  rw [leavesBelow_eq, Nat.min_eq_right (by rw [Nat.succ_mul]; omega), show n - pos * 2 ^ h = 0 by omega]
  rfl

/-- The leaves below the root are all of them. -/
theorem leavesBelow_top (n : Nat) : leavesBelow n (Nat.clog 2 n) 0 = List.range n := by
  have hle : n ≤ 2 ^ Nat.clog 2 n := Nat.le_pow_clog Nat.one_lt_two n
  rw [leavesBelow_eq, Nat.zero_mul, Nat.zero_add, Nat.one_mul, Nat.min_eq_right hle, Nat.sub_zero,
    List.range_eq_range']

theorem length_leavesBelow_pos {n h pos : Nat} (hpos : pos < width n h) :
    0 < (leavesBelow n h pos).length := by
  rw [lt_width_iff] at hpos
  have hp : 0 < 2 ^ h := Nat.two_pow_pos h
  rw [leavesBelow_eq, List.length_range', Nat.succ_mul]
  omega

/-! ## What the builder emits -/

section Build

variable {α : Type} [Inhabited α] (Hash : α → α → α) (vTxid : List α) (vMatch : List Bool)

/-- The bits and hashes `TraverseAndBuild` emits for a node. -/
def built (h pos : Nat) : List Bool × List α :=
  TraverseAndBuild Hash vTxid.length vTxid vMatch h pos ([], [])

/-- The matched leaves below a node. -/
def matchedBelow (h pos : Nat) : List Nat :=
  (leavesBelow vTxid.length h pos).filter fun p => vMatch.getD p false

/-- `TraverseAndBuild` appends what the node emits to the vectors it is given. -/
theorem TraverseAndBuild_append : ∀ h pos (vBits : List Bool) (vHash : List α),
    TraverseAndBuild Hash vTxid.length vTxid vMatch h pos (vBits, vHash) =
      (vBits ++ (built Hash vTxid vMatch h pos).1, vHash ++ (built Hash vTxid vMatch h pos).2)
  | 0, pos, vBits, vHash => by simp [built, TraverseAndBuild]
  | h + 1, pos, vBits, vHash => by
    simp only [built, TraverseAndBuild]
    cases parentOfMatch vTxid.length vMatch (h + 1) pos
    · simp
    · simp only [Bool.not_true, Bool.false_eq_true, if_false, List.nil_append]
      rw [TraverseAndBuild_append h (pos * 2) (vBits ++ [true]) vHash,
        TraverseAndBuild_append h (pos * 2) [true] []]
      split
      · rw [TraverseAndBuild_append h (pos * 2 + 1), TraverseAndBuild_append h (pos * 2 + 1)]
        simp
      · simp

theorem built_zero (pos : Nat) :
    built Hash vTxid vMatch 0 pos =
      ([parentOfMatch vTxid.length vMatch 0 pos], [CalcHash Hash vTxid.length vTxid 0 pos]) := rfl

theorem built_succ_false {h pos : Nat} (hf : parentOfMatch vTxid.length vMatch (h + 1) pos = false) :
    built Hash vTxid vMatch (h + 1) pos = ([false], [CalcHash Hash vTxid.length vTxid (h + 1) pos]) := by
  simp [built, TraverseAndBuild, hf]

/-- Below a node with a match, the node's bit, then the output of the left
child and of the right child, if there is one. -/
theorem built_succ_true {h pos : Nat} (hf : parentOfMatch vTxid.length vMatch (h + 1) pos = true) :
    built Hash vTxid vMatch (h + 1) pos =
      (true :: (built Hash vTxid vMatch h (pos * 2)).1 ++
          (if pos * 2 + 1 < width vTxid.length h then (built Hash vTxid vMatch h (pos * 2 + 1)).1 else []),
        (built Hash vTxid vMatch h (pos * 2)).2 ++
          (if pos * 2 + 1 < width vTxid.length h then (built Hash vTxid vMatch h (pos * 2 + 1)).2 else [])) := by
  simp only [built, TraverseAndBuild, hf, Bool.not_true, Bool.false_eq_true, if_false, CalcTreeWidth_eq,
    List.nil_append]
  rw [TraverseAndBuild_append Hash vTxid vMatch h (pos * 2) [true] []]
  split
  · rw [TraverseAndBuild_append Hash vTxid vMatch h (pos * 2 + 1)]
    simp [built]
  · simp [built]

/-- A node's output starts with its bit. -/
theorem built_fst_head (h pos : Nat) :
    ∃ rest, (built Hash vTxid vMatch h pos).1 = parentOfMatch vTxid.length vMatch h pos :: rest := by
  cases h with
  | zero => exact ⟨[], rfl⟩
  | succ h =>
    cases hf : parentOfMatch vTxid.length vMatch (h + 1) pos
    · exact ⟨[], by rw [built_succ_false Hash vTxid vMatch hf]⟩
    · exact ⟨_, by rw [built_succ_true Hash vTxid vMatch hf, List.cons_append]⟩

omit [Inhabited α] in
theorem matchedBelow_succ (h pos : Nat) :
    matchedBelow vTxid vMatch (h + 1) pos =
      matchedBelow vTxid vMatch h (pos * 2) ++ matchedBelow vTxid vMatch h (pos * 2 + 1) := by
  rw [matchedBelow, leavesBelow_succ, List.filter_append]
  rfl

omit [Inhabited α] in
theorem matchedBelow_of_parentOfMatch {h pos : Nat} (hf : parentOfMatch vTxid.length vMatch h pos = false) :
    matchedBelow vTxid vMatch h pos = [] := by
  rw [parentOfMatch, List.any_eq_false] at hf
  exact List.filter_eq_nil_iff.mpr hf

omit [Inhabited α] in
theorem matchedBelow_of_width_le {h pos : Nat} (hpos : ¬ pos < width vTxid.length h) :
    matchedBelow vTxid vMatch h pos = [] := by
  rw [matchedBelow, leavesBelow_of_width_le hpos]
  rfl

/-- A node emits a hash for each run of leaves it does not descend into. -/
theorem length_built_snd_le : ∀ h pos, pos < width vTxid.length h →
    (built Hash vTxid vMatch h pos).2.length ≤ (leavesBelow vTxid.length h pos).length
  | 0, pos, hpos => by
    rw [built_zero, leavesBelow_zero (by rwa [width_zero] at hpos)]
    rfl
  | h + 1, pos, hpos => by
    have hleaves := length_leavesBelow_pos hpos
    cases hf : parentOfMatch vTxid.length vMatch (h + 1) pos
    · rw [built_succ_false Hash vTxid vMatch hf]
      exact hleaves
    · have hleft := length_built_snd_le h (pos * 2) (mul_two_lt_width hpos)
      rw [built_succ_true Hash vTxid vMatch hf, leavesBelow_succ, List.length_append, List.length_append]
      split
      · have hright := length_built_snd_le h (pos * 2 + 1) ‹_›
        omega
      · simp only [List.length_nil]
        omega

/-- A node emits a bit for each hash. -/
theorem length_built_snd_le_fst : ∀ h pos,
    (built Hash vTxid vMatch h pos).2.length ≤ (built Hash vTxid vMatch h pos).1.length
  | 0, pos => le_refl _
  | h + 1, pos => by
    cases hf : parentOfMatch vTxid.length vMatch (h + 1) pos
    · rw [built_succ_false Hash vTxid vMatch hf]
      exact le_refl _
    · have hleft := length_built_snd_le_fst h (pos * 2)
      have hright := length_built_snd_le_fst h (pos * 2 + 1)
      rw [built_succ_true Hash vTxid vMatch hf]
      split <;> simp only [List.length_cons, List.length_append, List.length_nil] <;> omega

end Build

/-! ## The traversal of `ExtractMatches`, step by step -/

section Extract

variable {α : Type} [Inhabited α] [DecidableEq α] (Hash : α → α → α) (t : CPartialMerkleTree α)

omit [DecidableEq α] in
theorem useHash_of_le {h pos : Nat} {f : Bool} {s : ExtractState α} (hle : t.vHash.length ≤ s.nHashUsed) :
    useHash t h pos f s = (default, { s with fBad := true }) := by
  rw [useHash, if_pos hle]

omit [DecidableEq α] in
theorem useHash_of_lt {h pos : Nat} {f : Bool} {s : ExtractState α} (hlt : s.nHashUsed < t.vHash.length) :
    useHash t h pos f s =
      (t.vHash.getD s.nHashUsed default,
        if h = 0 ∧ f = true then
          { s with nHashUsed := s.nHashUsed + 1, vMatch := s.vMatch ++ [t.vHash.getD s.nHashUsed default],
                   vnIndex := s.vnIndex ++ [pos] }
        else { s with nHashUsed := s.nHashUsed + 1 }) := by
  rw [useHash, if_neg (by omega)]
  by_cases hm : h = 0 ∧ f = true
  · obtain ⟨rfl, rfl⟩ := hm
    rfl
  · rw [if_neg hm, if_neg (by simpa using hm)]

theorem TraverseAndExtract_of_le {h pos : Nat} {s : ExtractState α} (hle : t.vBits.length ≤ s.nBitsUsed) :
    TraverseAndExtract Hash t h pos s = (default, { s with fBad := true }) := by
  rw [TraverseAndExtract, if_pos hle]

theorem TraverseAndExtract_zero {pos : Nat} {s : ExtractState α} (hlt : s.nBitsUsed < t.vBits.length) :
    TraverseAndExtract Hash t 0 pos s =
      useHash t 0 pos (t.vBits.getD s.nBitsUsed false) { s with nBitsUsed := s.nBitsUsed + 1 } := by
  rw [TraverseAndExtract, if_neg (by omega)]

theorem TraverseAndExtract_succ_false {h pos : Nat} {s : ExtractState α} (hlt : s.nBitsUsed < t.vBits.length)
    (hf : t.vBits.getD s.nBitsUsed false = false) :
    TraverseAndExtract Hash t (h + 1) pos s =
      useHash t (h + 1) pos false { s with nBitsUsed := s.nBitsUsed + 1 } := by
  rw [TraverseAndExtract, if_neg (by omega)]
  simp only [hf, Bool.not_false, if_true]

/-- Below a set bit, the left child, then the right child if there is one,
and two equal children are bad. -/
theorem TraverseAndExtract_succ_true {h pos : Nat} {s : ExtractState α} (hlt : s.nBitsUsed < t.vBits.length)
    (hf : t.vBits.getD s.nBitsUsed false = true) :
    TraverseAndExtract Hash t (h + 1) pos s =
      let left := TraverseAndExtract Hash t h (pos * 2) { s with nBitsUsed := s.nBitsUsed + 1 }
      if pos * 2 + 1 < width t.nTransactions h then
        let right := TraverseAndExtract Hash t h (pos * 2 + 1) left.2
        (Hash left.1 right.1, if right.1 = left.1 then { right.2 with fBad := true } else right.2)
      else (Hash left.1 left.1, left.2) := by
  rw [TraverseAndExtract, if_neg (by omega)]
  simp only [hf, Bool.not_true, Bool.false_eq_true, if_false, CalcTreeWidth_eq]

end Extract

/-! ## Round trip -/

theorem getD_at {β : Type} (pre rest post : List β) (x d : β) :
    (pre ++ (x :: rest) ++ post).getD pre.length d = x := by
  simp

theorem lt_length_at {β : Type} (pre rest post : List β) (x : β) :
    pre.length < (pre ++ (x :: rest) ++ post).length := by
  simp only [List.length_append, List.length_cons]
  omega

section RoundTrip

variable {α : Type} [Inhabited α] [DecidableEq α] (Hash : α → α → α)

/-- No two siblings of the tree over `vTxid` have one hash. -/
def NoEqualSiblings (vTxid : List α) : Prop :=
  ∀ h i, i * 2 + 1 < width vTxid.length h → node Hash vTxid h (i * 2) ≠ node Hash vTxid h (i * 2 + 1)

variable {vTxid : List α} (vMatch : List Bool)

/-- **Round trip of a subtree.** Read from any position of the streams, what a
node emitted gives back the node's hash and its matched leaves. -/
theorem TraverseAndExtract_built (hsib : NoEqualSiblings Hash vTxid) {t : CPartialMerkleTree α}
    (hn : t.nTransactions = vTxid.length) :
    ∀ h pos, pos < width vTxid.length h →
      ∀ (s : ExtractState α) (pre post : List Bool) (preH postH : List α),
      t.vBits = pre ++ (built Hash vTxid vMatch h pos).1 ++ post → pre.length = s.nBitsUsed →
      t.vHash = preH ++ (built Hash vTxid vMatch h pos).2 ++ postH → preH.length = s.nHashUsed →
      TraverseAndExtract Hash t h pos s =
        (node Hash vTxid h pos,
          ⟨s.nBitsUsed + (built Hash vTxid vMatch h pos).1.length,
            s.nHashUsed + (built Hash vTxid vMatch h pos).2.length,
            s.vMatch ++ (matchedBelow vTxid vMatch h pos).map (vTxid.getD · default),
            s.vnIndex ++ matchedBelow vTxid vMatch h pos, s.fBad⟩) := by
  intro h
  induction h with
  | zero =>
    intro pos hpos s pre post preH postH hbits hpre hhash hpreH
    have hpos' : pos < vTxid.length := by rwa [width_zero] at hpos
    have hmatch : parentOfMatch vTxid.length vMatch 0 pos = vMatch.getD pos false := by
      simp [parentOfMatch, leavesBelow_zero hpos']
    rw [built_zero] at hbits hhash ⊢
    have hlt : s.nBitsUsed < t.vBits.length := by rw [hbits, ← hpre]; exact lt_length_at ..
    have hltH : s.nHashUsed < t.vHash.length := by rw [hhash, ← hpreH]; exact lt_length_at ..
    have hbit : t.vBits.getD s.nBitsUsed false = vMatch.getD pos false := by
      rw [hbits, ← hpre, getD_at, hmatch]
    have hleaf : t.vHash.getD s.nHashUsed default = vTxid.getD pos default := by
      rw [hhash, ← hpreH, getD_at]
      rfl
    rw [TraverseAndExtract_zero Hash t hlt, hbit,
      useHash_of_lt t (s := { s with nBitsUsed := s.nBitsUsed + 1 }) hltH, hleaf]
    simp only [matchedBelow, leavesBelow_zero hpos', node_def, levelAt_zero]
    rw [List.getD_eq_getElem?_getD]
    cases hm : vMatch[pos]?.getD false <;> simp [hm]
  | succ h ih =>
    intro pos hpos s pre post preH postH hbits hpre hhash hpreH
    obtain ⟨rest, hrest⟩ := built_fst_head Hash vTxid vMatch (h + 1) pos
    have hlt : s.nBitsUsed < t.vBits.length := by rw [hbits, hrest, ← hpre]; exact lt_length_at ..
    have hbit : t.vBits.getD s.nBitsUsed false = parentOfMatch vTxid.length vMatch (h + 1) pos := by
      rw [hbits, hrest, ← hpre, getD_at]
    cases hf : parentOfMatch vTxid.length vMatch (h + 1) pos
    · -- no match below: the stored hash of the node
      rw [built_succ_false Hash vTxid vMatch hf] at hhash ⊢
      have hltH : s.nHashUsed < t.vHash.length := by rw [hhash, ← hpreH]; exact lt_length_at ..
      have hnode : t.vHash.getD s.nHashUsed default = node Hash vTxid (h + 1) pos := by
        rw [hhash, ← hpreH, getD_at, CalcHash_eq_node Hash vTxid (h + 1) pos hpos]
      rw [TraverseAndExtract_succ_false Hash t hlt (hbit.trans hf),
        useHash_of_lt t (s := { s with nBitsUsed := s.nBitsUsed + 1 }) hltH, hnode,
        matchedBelow_of_parentOfMatch vTxid vMatch hf]
      simp
    · -- a match below: the left child, then the right one
      rw [built_succ_true Hash vTxid vMatch hf] at hbits hhash ⊢
      rw [TraverseAndExtract_succ_true Hash t hlt (hbit.trans hf), hn]
      have hleft := mul_two_lt_width hpos
      have hL := ih (pos * 2) hleft { s with nBitsUsed := s.nBitsUsed + 1 } (pre ++ [true])
        ((if pos * 2 + 1 < width vTxid.length h then (built Hash vTxid vMatch h (pos * 2 + 1)).1 else []) ++ post)
        preH ((if pos * 2 + 1 < width vTxid.length h then (built Hash vTxid vMatch h (pos * 2 + 1)).2 else []) ++ postH)
        (by rw [hbits]; simp) (by simp [hpre]) (by rw [hhash]; simp) hpreH
      by_cases hright : pos * 2 + 1 < width vTxid.length h
      · simp only [if_pos hright] at hbits hhash ⊢
        have hR := ih (pos * 2 + 1) hright
          (TraverseAndExtract Hash t h (pos * 2) { s with nBitsUsed := s.nBitsUsed + 1 }).2
          (pre ++ true :: (built Hash vTxid vMatch h (pos * 2)).1) post
          (preH ++ (built Hash vTxid vMatch h (pos * 2)).2) postH
          (by rw [hbits]; simp) (by rw [hL]; simp [hpre]; omega) (by rw [hhash]; simp) (by rw [hL]; simp [hpreH])
        rw [hR, hL]
        simp only [if_neg (Ne.symm (hsib h pos hright))]
        rw [← node_succ_of_right Hash vTxid hright, matchedBelow_succ]
        simp only [List.length_cons, List.length_append, List.map_append, List.append_assoc, Prod.mk.injEq,
          ExtractState.mk.injEq, true_and, and_true]
        omega
      · simp only [if_neg hright] at hbits hhash ⊢
        rw [hL, ← node_succ_of_no_right Hash vTxid hpos hright, matchedBelow_succ,
          matchedBelow_of_width_le vTxid vMatch hright]
        simp only [List.length_cons, List.append_nil, Prod.mk.injEq, ExtractState.mk.injEq, true_and,
          and_true]
        omega

end RoundTrip

end CPartialMerkleTree

/-! ## Packing the bits -/

theorem le_mul_CeilDiv (n : Nat) : n ≤ 8 * CeilDiv n 8 := by
  rw [CeilDiv]
  split <;> omega

theorem CeilDiv_mul (c : Nat) : CeilDiv (8 * c) 8 = c := by
  rw [CeilDiv, if_neg (by omega)]
  omega

/-- Padding to whole bytes does not change the byte count. -/
theorem CeilDiv_pad (n : Nat) : CeilDiv (n + (8 * CeilDiv n 8 - n)) 8 = CeilDiv n 8 := by
  rw [Nat.add_sub_cancel' (le_mul_CeilDiv n), CeilDiv_mul]

theorem toNat_toUInt8_of_lt {j : Nat} (hj : j < 256) : j.toUInt8.toNat = j := by
  simp [Nat.toUInt8_eq]
  omega

theorem toNat_one_shiftLeft {j : Nat} (hj : j < 8) : ((1 : UInt8) <<< j.toUInt8).toNat = 2 ^ j := by
  rw [UInt8.toNat_shiftLeft, toNat_toUInt8_of_lt (by omega), Nat.mod_eq_of_lt hj, UInt8.toNat_one,
    Nat.one_shiftLeft]
  exact Nat.mod_eq_of_lt (Nat.pow_lt_pow_right (by decide) hj)

/-- The test of `BytesToBits` reads bit `j` of the byte. -/
theorem and_shiftLeft_ne_zero (x : UInt8) {j : Nat} (hj : j < 8) :
    (x &&& (1 : UInt8) <<< j.toUInt8 != 0) = x.toNat.testBit j := by
  have hand : (x &&& (1 : UInt8) <<< j.toUInt8).toNat = 2 ^ j * (x.toNat.testBit j).toNat := by
    rw [UInt8.toNat_and, toNat_one_shiftLeft hj, Nat.and_comm, Nat.two_pow_and]
  apply Bool.eq_iff_iff.mpr
  rw [bne_iff_ne, ne_eq, ← UInt8.toNat_inj, hand, UInt8.toNat_zero]
  cases x.toNat.testBit j <;> simp

/-- The update of `BitsToBytes` sets bit `i` of the byte when `b` does. -/
theorem testBit_or_shiftLeft (x : UInt8) (b : Bool) {i : Nat} (hi : i < 8) (j : Nat) :
    (x ||| b.toUInt8 <<< i.toUInt8).toNat.testBit j = (x.toNat.testBit j || (b && i = j)) := by
  have hshift : (b.toUInt8 <<< i.toUInt8).toNat = 2 ^ i * b.toNat := by
    cases b
    · simp [Bool.toUInt8]
    · rw [Bool.toUInt8, if_pos rfl, toNat_one_shiftLeft hi, Bool.toNat_true, Nat.mul_one]
  rw [UInt8.toNat_or, Nat.testBit_or, hshift]
  cases b
  · simp
  · simp [Nat.testBit_two_pow]

theorem getD_modify {β : Type} (l : List β) {i : Nat} (k : Nat) (f : β → β) (d : β) (hi : i < l.length) :
    (l.modify i f).getD k d = if k = i then f (l.getD k d) else l.getD k d := by
  simp only [List.getD_eq_getElem?_getD, List.getElem?_modify]
  split
  · subst_vars
    simp [List.getElem?_eq_getElem hi]
  · rename_i hk
    cases l[k]? <;> simp [Ne.symm hk]

/-- The loop of `BitsToBytes`, over the bits before `m`. -/
def packLoop (bits : List Bool) (m : Nat) : List UInt8 :=
  (List.range m).foldl
    (fun ret p => ret.modify (p / 8) fun b => b ||| (bits.getD p false).toUInt8 <<< (p % 8).toUInt8)
    (List.replicate (CeilDiv bits.length 8) 0)

theorem BitsToBytes_eq (bits : List Bool) : BitsToBytes bits = packLoop bits bits.length := rfl

theorem packLoop_succ (bits : List Bool) (m : Nat) :
    packLoop bits (m + 1) =
      (packLoop bits m).modify (m / 8) fun b => b ||| (bits.getD m false).toUInt8 <<< (m % 8).toUInt8 := by
  rw [packLoop, List.range_succ, List.foldl_append]
  rfl

theorem length_packLoop (bits : List Bool) (m : Nat) : (packLoop bits m).length = CeilDiv bits.length 8 := by
  induction m with
  | zero => simp [packLoop]
  | succ m ih => rw [packLoop_succ, List.length_modify, ih]

/-- After the loop has run over the bits before `m`, bit `j` of byte `k` is
bit `8 * k + j` if that is one of them. -/
theorem testBit_packLoop (bits : List Bool) {m : Nat} (hm : m ≤ bits.length) (k : Nat) {j : Nat}
    (hj : j < 8) :
    ((packLoop bits m).getD k 0).toNat.testBit j = (decide (8 * k + j < m) && bits.getD (8 * k + j) false) := by
  induction m generalizing k with
  | zero =>
    have hzero : (packLoop bits 0).getD k 0 = 0 := by
      rw [packLoop, List.range_zero, List.foldl_nil, List.getD_eq_getElem?_getD, List.getElem?_replicate]
      split <;> rfl
    rw [hzero]
    simp
  | succ m ih =>
    have hbyte : m / 8 < (packLoop bits m).length := by
      have := le_mul_CeilDiv bits.length
      rw [length_packLoop]
      omega
    rw [packLoop_succ, getD_modify _ _ _ _ hbyte]
    split
    · rename_i hk
      subst hk
      rw [testBit_or_shiftLeft _ _ (Nat.mod_lt m (by decide)), ih (by omega)]
      by_cases hjm : m % 8 = j
      · have hidx : 8 * (m / 8) + j = m := by omega
        simp [hjm, hidx]
      · have hlt : 8 * (m / 8) + j < m + 1 ↔ 8 * (m / 8) + j < m := by omega
        simp [hjm, hlt]
    · rename_i hk
      have hlt : 8 * k + j < m + 1 ↔ 8 * k + j < m := by omega
      rw [ih (by omega)]
      simp only [hlt]

/-- **The bits survive the wire**, padded with clear bits to whole bytes. -/
theorem BytesToBits_BitsToBytes (bits : List Bool) :
    BytesToBits (BitsToBytes bits) = bits ++ List.replicate (8 * CeilDiv bits.length 8 - bits.length) false := by
  have hle := le_mul_CeilDiv bits.length
  apply List.ext_getElem
  · simp only [BytesToBits, BitsToBytes_eq, List.length_map, List.length_range, length_packLoop,
      List.length_append, List.length_replicate]
    omega
  · intro p h1 _
    have hp : p < 8 * CeilDiv bits.length 8 := by
      simpa [BytesToBits, BitsToBytes_eq, length_packLoop, Nat.mul_comm] using h1
    have hidx : 8 * (p / 8) + p % 8 = p := by omega
    simp only [BytesToBits, List.getElem_map, List.getElem_range]
    rw [and_shiftLeft_ne_zero _ (Nat.mod_lt p (by decide)), BitsToBytes_eq,
      testBit_packLoop bits (le_refl _) _ (Nat.mod_lt p (by decide)), hidx, List.getElem_append]
    split
    · rename_i hlt
      simp [hlt, List.getD_eq_getElem?_getD]
    · rename_i hge
      simp [hge]

end Namecoin.Consensus.PartialMerkle

namespace Namecoin.Consensus.PartialMerkle.CPartialMerkleTree
open Lib.MerkleTree

section Whole

variable {α : Type} [Inhabited α] [DecidableEq α] (Hash : α → α → α)

/-- `ExtractMatches` returns the traversal from the root once the sizes pass
and the traversal used all bits and hashes without failure. -/
theorem ExtractMatches_of_traverse {t : CPartialMerkleTree α} {vnIndex : List Nat} {v : α}
    {s : ExtractState α} (h0 : 0 < t.nTransactions)
    (hmax : t.nTransactions ≤ MAX_BLOCK_WEIGHT / MIN_TRANSACTION_WEIGHT)
    (hH : t.vHash.length ≤ t.nTransactions) (hB : t.vHash.length ≤ t.vBits.length)
    (hr : TraverseAndExtract Hash t (Nat.clog 2 t.nTransactions) 0 ⟨0, 0, [], vnIndex, t.fBad⟩ = (v, s))
    (hbad : s.fBad = false) (hbits : CeilDiv s.nBitsUsed 8 = CeilDiv t.vBits.length 8)
    (hhash : s.nHashUsed = t.vHash.length) :
    ExtractMatches Hash t vnIndex = (v, s) := by
  rw [ExtractMatches, if_neg (by omega), if_neg (by omega), if_neg (by omega), if_neg (by omega),
    treeHeight_eq, hr]
  simp [hbad, hbits, hhash]

/-- A root other than `uint256()` comes from a traversal from the root that
did not fail. -/
theorem ExtractMatches_of_ne_default {t : CPartialMerkleTree α} {vnIndex : List Nat}
    (h : (ExtractMatches Hash t vnIndex).1 ≠ default) :
    0 < t.nTransactions ∧
      (TraverseAndExtract Hash t (Nat.clog 2 t.nTransactions) 0 ⟨0, 0, [], vnIndex, t.fBad⟩).2.fBad = false ∧
      ExtractMatches Hash t vnIndex =
        TraverseAndExtract Hash t (Nat.clog 2 t.nTransactions) 0 ⟨0, 0, [], vnIndex, t.fBad⟩ := by
  unfold ExtractMatches at h ⊢
  dsimp only at h ⊢
  rw [treeHeight_eq] at h ⊢
  generalize TraverseAndExtract Hash t (Nat.clog 2 t.nTransactions) 0 ⟨0, 0, [], vnIndex, t.fBad⟩ = r at h ⊢
  obtain ⟨v, s⟩ := r
  split_ifs at h ⊢ <;> simp_all [Nat.pos_iff_ne_zero]

variable {vTxid : List α} (vMatch : List Bool)

omit [DecidableEq α] in
theorem create_eq :
    create Hash vTxid vMatch =
      ⟨vTxid.length, (built Hash vTxid vMatch (Nat.clog 2 vTxid.length) 0).1,
        (built Hash vTxid vMatch (Nat.clog 2 vTxid.length) 0).2, false⟩ := by
  rw [create, treeHeight_eq]
  rfl

omit [Inhabited α] [DecidableEq α] in
/-- The matched leaves below the root are the matched positions. -/
theorem matchedBelow_top :
    matchedBelow vTxid vMatch (Nat.clog 2 vTxid.length) 0 =
      (List.range vTxid.length).filter fun p => vMatch.getD p false := by
  rw [matchedBelow, leavesBelow_top]

/-- **Round trip.** Read back from the wire, the tree built over a block whose
tree has no equal siblings gives the merkle root, the matched txids and their
positions. -/
theorem ExtractMatches_create (hsib : NoEqualSiblings Hash vTxid) (hn : 0 < vTxid.length)
    (hmax : vTxid.length ≤ MAX_BLOCK_WEIGHT / MIN_TRANSACTION_WEIGHT) (vnIndex : List Nat) :
    (ExtractMatches Hash (deserialize (serialize (create Hash vTxid vMatch))) vnIndex).1 = root Hash vTxid ∧
      (ExtractMatches Hash (deserialize (serialize (create Hash vTxid vMatch))) vnIndex).2.vMatch =
        ((List.range vTxid.length).filter fun p => vMatch.getD p false).map (vTxid.getD · default) ∧
      (ExtractMatches Hash (deserialize (serialize (create Hash vTxid vMatch))) vnIndex).2.vnIndex =
        vnIndex ++ (List.range vTxid.length).filter fun p => vMatch.getD p false := by
  have htop : 0 < width vTxid.length (Nat.clog 2 vTxid.length) := width_pos hn _
  have hH := length_built_snd_le Hash vTxid vMatch _ 0 htop
  have hB := length_built_snd_le_fst Hash vTxid vMatch (Nat.clog 2 vTxid.length) 0
  rw [leavesBelow_top, List.length_range] at hH
  set B := built Hash vTxid vMatch (Nat.clog 2 vTxid.length) 0 with hBdef
  -- the tree the other end reads: the emitted bits, padded to whole bytes
  have ht : deserialize (serialize (create Hash vTxid vMatch)) =
      ⟨vTxid.length, B.1 ++ List.replicate (8 * CeilDiv B.1.length 8 - B.1.length) false, B.2, false⟩ := by
    simp only [create_eq, serialize, deserialize, BytesToBits_BitsToBytes, hBdef]
  rw [ht]
  have hr := TraverseAndExtract_built Hash vMatch hsib
    (t := ⟨vTxid.length, B.1 ++ List.replicate (8 * CeilDiv B.1.length 8 - B.1.length) false, B.2, false⟩)
    rfl _ 0 htop ⟨0, 0, [], vnIndex, false⟩ [] (List.replicate (8 * CeilDiv B.1.length 8 - B.1.length) false)
    [] [] (List.nil_append _).symm rfl (by rw [List.nil_append, List.append_nil]) rfl
  rw [ExtractMatches_of_traverse Hash hn hmax (by simpa using hH) (by simp; omega) hr rfl
    (by rw [List.length_append, List.length_replicate, Nat.zero_add, CeilDiv_pad]) (Nat.zero_add _),
    matchedBelow_top]
  exact ⟨(root_def Hash vTxid).symm, List.nil_append _, rfl⟩

end Whole

/-! ## What an accepted tree shows -/

section Sound

variable {α : Type} (Hash : α → α → α)

/-- What a traversal that did not fail found below node `pos` of level `h`:
txids at increasing positions below the node, each of which folds into the
node's hash `v` along a branch of length `h`. -/
structure Found (n h pos : Nat) (v : α) (P : List (α × Nat)) : Prop where
  below : ∀ q ∈ P, q.2 / 2 ^ h = pos
  lt : ∀ q ∈ P, q.2 < n
  folds : ∀ q ∈ P, ∃ bs : List α, bs.length = h ∧ foldBranch Hash q.1 bs q.2 = v
  sorted : (P.map Prod.snd).Pairwise (· < ·)

theorem found_nil (n h pos : Nat) (v : α) : Found Hash n h pos v [] :=
  ⟨by simp, by simp, by simp, List.Pairwise.nil⟩

theorem found_leaf {n pos : Nat} (hpos : pos < n) (v : α) : Found Hash n 0 pos v [(v, pos)] :=
  ⟨by simp, by simpa using hpos, by simp, List.pairwise_singleton _ _⟩

/-- One branch step up from a child: the sibling joins the branch. -/
theorem foldBranch_step {x l r : α} {bs : List α} {h i : Nat} (hlen : bs.length = h)
    (hfold : foldBranch Hash x bs i = (if i / 2 ^ h % 2 = 1 then r else l)) :
    foldBranch Hash x (bs ++ [if i / 2 ^ h % 2 = 1 then l else r]) i = Hash l r := by
  rw [foldBranch_append, hfold, hlen, foldBranch_cons, foldBranch_nil]
  split <;> simp [*]

/-- Two children found their leaves; the node finds both. -/
theorem Found.node {n h pos : Nat} {l r : α} {PL PR : List (α × Nat)} (hL : Found Hash n h (pos * 2) l PL)
    (hR : Found Hash n h (pos * 2 + 1) r PR) : Found Hash n (h + 1) pos (Hash l r) (PL ++ PR) := by
  have hdiv : ∀ i, i / 2 ^ (h + 1) = i / 2 ^ h / 2 := fun i => by
    rw [Nat.pow_succ, Nat.div_div_eq_div_mul]
  refine ⟨?_, ?_, ?_, ?_⟩
  · intro q hq
    rcases List.mem_append.mp hq with hq | hq
    · rw [hdiv, hL.below q hq]; omega
    · rw [hdiv, hR.below q hq]; omega
  · intro q hq
    rcases List.mem_append.mp hq with hq | hq
    · exact hL.lt q hq
    · exact hR.lt q hq
  · intro q hq
    rcases List.mem_append.mp hq with hq | hq
    · -- a leaf on the left: the right child is its sibling
      obtain ⟨bs, hlen, hfold⟩ := hL.folds q hq
      have hbit : q.2 / 2 ^ h % 2 = 0 := by rw [hL.below q hq]; omega
      refine ⟨bs ++ [r], by simp [hlen], ?_⟩
      have hstep := foldBranch_step Hash (r := r) hlen (by rw [hfold, hbit]; rfl)
      rwa [hbit] at hstep
    · -- a leaf on the right: the left child is its sibling
      obtain ⟨bs, hlen, hfold⟩ := hR.folds q hq
      have hbit : q.2 / 2 ^ h % 2 = 1 := by rw [hR.below q hq]; omega
      refine ⟨bs ++ [l], by simp [hlen], ?_⟩
      have hstep := foldBranch_step Hash (l := l) hlen (by rw [hfold, hbit]; rfl)
      rwa [hbit] at hstep
  · rw [List.map_append, List.pairwise_append]
    refine ⟨hL.sorted, hR.sorted, ?_⟩
    intro a ha b hb
    obtain ⟨qa, hqa, rfl⟩ := List.mem_map.mp ha
    obtain ⟨qb, hqb, rfl⟩ := List.mem_map.mp hb
    apply Nat.lt_of_div_lt_div (c := 2 ^ h)
    rw [hL.below qa hqa, hR.below qb hqb]
    omega

/-- A left child without a sibling is combined with itself. -/
theorem Found.lone {n h pos : Nat} {l : α} {PL : List (α × Nat)} (hL : Found Hash n h (pos * 2) l PL) :
    Found Hash n (h + 1) pos (Hash l l) PL := by
  have hnode := hL.node Hash (found_nil Hash n h (pos * 2 + 1) l)
  rw [List.append_nil] at hnode
  exact hnode

variable [Inhabited α] [DecidableEq α] (t : CPartialMerkleTree α)

omit [DecidableEq α] in
theorem fBad_useHash {h pos : Nat} {f : Bool} {s : ExtractState α} (hs : s.fBad = true) :
    (useHash t h pos f s).2.fBad = true := by
  rw [useHash]
  split
  · rfl
  · split <;> exact hs

/-- `fBad` stays set. -/
theorem fBad_TraverseAndExtract : ∀ h pos (s : ExtractState α), s.fBad = true →
    (TraverseAndExtract Hash t h pos s).2.fBad = true := by
  intro h
  induction h with
  | zero =>
    intro pos s hs
    by_cases hlt : s.nBitsUsed < t.vBits.length
    · rw [TraverseAndExtract_zero Hash t hlt]
      exact fBad_useHash t hs
    · rw [TraverseAndExtract_of_le Hash t (by omega)]
  | succ h ih =>
    intro pos s hs
    by_cases hlt : s.nBitsUsed < t.vBits.length
    · cases hf : t.vBits.getD s.nBitsUsed false
      · rw [TraverseAndExtract_succ_false Hash t hlt hf]
        exact fBad_useHash t hs
      · rw [TraverseAndExtract_succ_true Hash t hlt hf]
        have hleft := ih (pos * 2) { s with nBitsUsed := s.nBitsUsed + 1 } hs
        dsimp only
        split
        · have hright := ih (pos * 2 + 1) _ hleft
          split
          · rfl
          · exact hright
        · exact hleft
    · rw [TraverseAndExtract_of_le Hash t (by omega)]

/-- **Soundness of a subtree.** A traversal that does not fail appends txids
that it found below the node, as `Found` says. -/
theorem TraverseAndExtract_sound : ∀ h pos (s : ExtractState α), pos < width t.nTransactions h →
    (TraverseAndExtract Hash t h pos s).2.fBad = false →
    ∃ P, (TraverseAndExtract Hash t h pos s).2.vMatch = s.vMatch ++ P.map Prod.fst ∧
      (TraverseAndExtract Hash t h pos s).2.vnIndex = s.vnIndex ++ P.map Prod.snd ∧
      Found Hash t.nTransactions h pos (TraverseAndExtract Hash t h pos s).1 P := by
  intro h
  induction h with
  | zero =>
    intro pos s hpos hbad
    have hlt : s.nBitsUsed < t.vBits.length := by
      by_contra hle
      rw [TraverseAndExtract_of_le Hash t (by omega)] at hbad
      exact Bool.noConfusion hbad
    rw [TraverseAndExtract_zero Hash t hlt] at hbad ⊢
    have hltH : s.nHashUsed < t.vHash.length := by
      by_contra hle
      rw [useHash_of_le t (by simpa using hle)] at hbad
      exact Bool.noConfusion hbad
    rw [useHash_of_lt t (s := { s with nBitsUsed := s.nBitsUsed + 1 }) hltH]
    have hpos' : pos < t.nTransactions := by rwa [width_zero] at hpos
    cases hf : t.vBits.getD s.nBitsUsed false
    · exact ⟨[], by simp, by simp, found_nil Hash _ _ _ _⟩
    · exact ⟨[(t.vHash.getD s.nHashUsed default, pos)], by simp, by simp, found_leaf Hash hpos' _⟩
  | succ h ih =>
    intro pos s hpos hbad
    have hlt : s.nBitsUsed < t.vBits.length := by
      by_contra hle
      rw [TraverseAndExtract_of_le Hash t (by omega)] at hbad
      exact Bool.noConfusion hbad
    cases hf : t.vBits.getD s.nBitsUsed false
    · -- a node not descended into: its hash, nothing found
      rw [TraverseAndExtract_succ_false Hash t hlt hf] at hbad ⊢
      have hltH : s.nHashUsed < t.vHash.length := by
        by_contra hle
        rw [useHash_of_le t (by simpa using hle)] at hbad
        exact Bool.noConfusion hbad
      rw [useHash_of_lt t (s := { s with nBitsUsed := s.nBitsUsed + 1 }) hltH]
      exact ⟨[], by simp, by simp, found_nil Hash _ _ _ _⟩
    · rw [TraverseAndExtract_succ_true Hash t hlt hf] at hbad ⊢
      dsimp only at hbad ⊢
      have hleft := mul_two_lt_width hpos
      by_cases hright : pos * 2 + 1 < width t.nTransactions h
      · rw [if_pos hright] at hbad ⊢
        -- equal children would have set `fBad`
        have hne : (TraverseAndExtract Hash t h (pos * 2 + 1)
            (TraverseAndExtract Hash t h (pos * 2) { s with nBitsUsed := s.nBitsUsed + 1 }).2).1 ≠
            (TraverseAndExtract Hash t h (pos * 2) { s with nBitsUsed := s.nBitsUsed + 1 }).1 := by
          intro heq
          rw [if_pos heq] at hbad
          exact Bool.noConfusion hbad
        rw [if_neg hne] at hbad ⊢
        have hbadL : (TraverseAndExtract Hash t h (pos * 2) { s with nBitsUsed := s.nBitsUsed + 1 }).2.fBad =
            false := by
          cases hb : (TraverseAndExtract Hash t h (pos * 2) { s with nBitsUsed := s.nBitsUsed + 1 }).2.fBad
          · rfl
          · rw [fBad_TraverseAndExtract Hash t h (pos * 2 + 1) _ hb] at hbad
            exact Bool.noConfusion hbad
        obtain ⟨PL, hvL, hiL, hfL⟩ := ih (pos * 2) _ hleft hbadL
        obtain ⟨PR, hvR, hiR, hfR⟩ := ih (pos * 2 + 1) _ hright hbad
        exact ⟨PL ++ PR, by rw [hvR, hvL]; simp, by rw [hiR, hiL]; simp, hfL.node Hash hfR⟩
      · rw [if_neg hright] at hbad ⊢
        obtain ⟨PL, hvL, hiL, hfL⟩ := ih (pos * 2) _ hleft hbad
        exact ⟨PL, hvL, hiL, hfL.lone Hash⟩

/-- **Soundness.** Each txid an accepted tree matches sits at its position,
below the root, and folds into the root along a branch of the tree's height. -/
theorem ExtractMatches_sound {vnIndex : List Nat} (h : (ExtractMatches Hash t vnIndex).1 ≠ default) :
    ∃ P, (ExtractMatches Hash t vnIndex).2.vMatch = P.map Prod.fst ∧
      (ExtractMatches Hash t vnIndex).2.vnIndex = vnIndex ++ P.map Prod.snd ∧
      Found Hash t.nTransactions (Nat.clog 2 t.nTransactions) 0 (ExtractMatches Hash t vnIndex).1 P := by
  obtain ⟨h0, hbad, heq⟩ := ExtractMatches_of_ne_default Hash h
  rw [heq]
  obtain ⟨P, hv, hi, hf⟩ := TraverseAndExtract_sound Hash t _ 0 _ (width_pos h0 _) hbad
  exact ⟨P, by rw [hv, List.nil_append], hi, hf⟩

end Sound

end Namecoin.Consensus.PartialMerkle.CPartialMerkleTree

namespace Namecoin.Consensus.PartialMerkle.CPartialMerkleTree
open Lib.MerkleTree Namecoin.Consensus.Merkle Namecoin.Consensus.MerkleBranch

/-! ## Blocks -/

/-- Reading a list at increasing positions gives a sublist. -/
theorem map_getD_sublist {β : Type} (L : List β) (d : β) {idx : List Nat} (hsorted : idx.Pairwise (· < ·))
    (hlt : ∀ i ∈ idx, i < L.length) : List.Sublist (idx.map (L.getD · d)) L := by
  have hfins : (idx.pmap (fun i h => (⟨i, h⟩ : Fin L.length)) hlt).Pairwise (· < ·) :=
    hsorted.pmap hlt fun _ _ _ _ h => h
  have heq : (idx.pmap (fun i h => (⟨i, h⟩ : Fin L.length)) hlt).map (fun i => L[i]) =
      idx.map (L.getD · d) := by
    rw [List.map_pmap, ← List.pmap_eq_map (H := hlt)]
    apply List.pmap_congr_left
    intro i _ h _
    exact (List.getD_eq_getElem L d h).symm
  rw [← heq]
  exact List.map_getElem_sublist hfins

section Blocks

variable {α : Type} [Inhabited α] [DecidableEq α] (Hash : α → α → α)

omit [DecidableEq α] in
/-- Without collisions, the txids found below the merkle root of `vTxid` are
its leaves at their positions: the branch of a found txid and the tree's own
branch fold into one root. -/
theorem Found.map_fst_eq {vTxid : List α} {P : List (α × Nat)}
    (hf : Found Hash vTxid.length (Nat.clog 2 vTxid.length) 0 (root Hash vTxid) P)
    (hcoll : ¬ ∃ a b c d, Hash a b = Hash c d ∧ (a ≠ c ∨ b ≠ d)) :
    P.map Prod.fst = (P.map Prod.snd).map (vTxid.getD · default) := by
  rw [List.map_map]
  refine List.map_congr_left fun q hq => ?_
  obtain ⟨bs, hlen, hfold⟩ := hf.folds q hq
  rcases foldBranch_eq_or_collision Hash bs (branch Hash vTxid q.2) q.1 (vTxid.getD q.2 default) q.2
      (by rw [hlen, length_branch]) (by rw [hfold, foldBranch_branch Hash vTxid (hf.lt q hq)]) with
    heq | hc
  · exact heq
  · exact absurd hc hcoll

/-- **An accepted tree shows txids of the block.** When the root a tree gives
is the merkle root of `vTxid` and the tree counts as many transactions, the
txids it matches are txids of the block, in the block's order, unless `Hash`
has a collision. -/
theorem ExtractMatches_sublist {t : CPartialMerkleTree α} {vTxid : List α} {vnIndex : List Nat}
    (hr : (ExtractMatches Hash t vnIndex).1 ≠ default)
    (hroot : (ExtractMatches Hash t vnIndex).1 = root Hash vTxid) (hn : t.nTransactions = vTxid.length) :
    List.Sublist (ExtractMatches Hash t vnIndex).2.vMatch vTxid ∨
      ∃ a b c d, Hash a b = Hash c d ∧ (a ≠ c ∨ b ≠ d) := by
  obtain ⟨P, hv, -, hf⟩ := ExtractMatches_sound Hash t hr
  by_cases hcoll : ∃ a b c d, Hash a b = Hash c d ∧ (a ≠ c ∨ b ≠ d)
  · exact .inr hcoll
  · left
    rw [hn, hroot] at hf
    rw [hv, hf.map_fst_eq Hash hcoll]
    apply map_getD_sublist vTxid default hf.sorted
    intro i hi
    obtain ⟨q, hq, rfl⟩ := List.mem_map.mp hi
    exact hf.lt q hq

/-- A level without `hasEqualPair` pairs unequal nodes. -/
theorem getD_ne_of_hasEqualPair : ∀ (l : List α), hasEqualPair l = false →
    ∀ i, i * 2 + 1 < l.length → l.getD (i * 2) default ≠ l.getD (i * 2 + 1) default
  | a :: b :: rest, h, i, hi => by
    rw [hasEqualPair, Bool.or_eq_false_iff, beq_eq_false_iff_ne] at h
    cases i with
    | zero => exact h.1
    | succ i =>
      have hrest := getD_ne_of_hasEqualPair rest h.2 i (by simp at hi; omega)
      rwa [show (i + 1) * 2 = i * 2 + 1 + 1 by ring, List.getD_cons_succ, List.getD_cons_succ,
        show i * 2 + 1 + 1 + 1 = i * 2 + 1 + 1 + 1 by rfl, List.getD_cons_succ, List.getD_cons_succ]
  | [], _, i, hi => absurd hi (by simp)
  | [_], _, i, hi => absurd hi (by simp)

/-- A level of at most one node has no pair of nodes. -/
theorem width_le_one {n : Nat} (hn : n ≤ 1) (h : Nat) : width n h ≤ 1 := by
  rcases Nat.lt_or_ge n 1 with h0 | h1
  · rw [show n = 0 by omega, width_zero_left]
    omega
  · rw [show n = 1 by omega, width_def, Nat.add_sub_cancel_left, Nat.div_self (Nat.two_pow_pos h)]

/-- `ComputeMerkleRoot` tests every level for equal siblings. -/
theorem noEqualSiblings_of_mutation (hashes : List α) (mutation : Bool)
    (h : (computeMerkleRoot Hash hashes mutation).2 = false) :
    mutation = false ∧ NoEqualSiblings Hash hashes := by
  fun_induction computeMerkleRoot Hash hashes mutation with
  | case1 hashes mutation hlen ih =>
    obtain ⟨hmut, hnext⟩ := ih h
    rw [Bool.or_eq_false_iff] at hmut
    refine ⟨hmut.1, ?_⟩
    intro k i hi
    cases k with
    | zero =>
      rw [width_zero] at hi
      simpa [node_def] using getD_ne_of_hasEqualPair hashes hmut.2 i hi
    | succ k =>
      -- the levels above the leaves are those of the next level
      have hw : width hashes.length (k + 1) = width (nextLevel Hash hashes).length k := by
        rw [← length_levelAt Hash hashes, ← length_levelAt Hash (nextLevel Hash hashes), levelAt_succ_eq]
      rw [hw] at hi
      have hne := hnext k i hi
      rw [node_def, node_def] at hne ⊢
      rw [levelAt_succ_eq]
      exact hne
  | case2 hashes mutation hlen =>
    refine ⟨h, fun k i hi => absurd hi ?_⟩
    have := width_le_one (show hashes.length ≤ 1 by omega) k
    omega

/-! ## Hashes without collisions -/

omit [DecidableEq α] in
/-- Under a hash without collisions, a node of distinct txids is at one
position of its level: it folds its first leaf along its left children. -/
theorem node_injective (hinj : ∀ a b c d, Hash a b = Hash c d → a = c ∧ b = d) {vTxid : List α}
    (hnodup : vTxid.Nodup) : ∀ h i j, i < width vTxid.length h → j < width vTxid.length h →
      node Hash vTxid h i = node Hash vTxid h j → i = j
  | 0, i, j, hi, hj, heq => by
    rw [width_zero] at hi hj
    rw [node_def, node_def, levelAt_zero, List.getD_eq_getElem _ _ hi,
      List.getD_eq_getElem _ _ hj] at heq
    exact hnodup.getElem_inj_iff.mp heq
  | h + 1, i, j, hi, hj, heq => by
    rw [node_succ Hash vTxid hi, node_succ Hash vTxid hj] at heq
    -- the left children are equal, at positions `2 * i` and `2 * j` of the level below
    have hleft := node_injective hinj hnodup h (2 * i) (2 * j)
      (Nat.mul_comm 2 i ▸ mul_two_lt_width hi) (Nat.mul_comm 2 j ▸ mul_two_lt_width hj)
      (hinj _ _ _ _ heq).1
    omega

omit [DecidableEq α] in
theorem noEqualSiblings_of_injective (hinj : ∀ a b c d, Hash a b = Hash c d → a = c ∧ b = d)
    {vTxid : List α} (hnodup : vTxid.Nodup) : NoEqualSiblings Hash vTxid := by
  intro h i hi heq
  have := node_injective Hash hinj hnodup h (i * 2) (i * 2 + 1) (by omega) hi heq
  omega

/-- **Partial merkle trees under a hash without collisions.** The tree of
distinct txids, read back from the wire, gives the merkle root, the matched
txids and their positions; an accepted tree matches txids at increasing
positions that fold into its root along a branch of the tree's height; and
when that root is the merkle root of a block with as many transactions, they
are the block's txids at those positions. -/
theorem ExtractMatches_roundtrip_sound (hinj : ∀ a b c d, Hash a b = Hash c d → a = c ∧ b = d) :
    (∀ (vTxid : List α) (vMatch : List Bool), vTxid.Nodup → 0 < vTxid.length →
      vTxid.length ≤ MAX_BLOCK_WEIGHT / MIN_TRANSACTION_WEIGHT →
      (ExtractMatches Hash (deserialize (serialize (create Hash vTxid vMatch))) []).1 =
          (computeMerkleRoot Hash vTxid).1 ∧
        (ExtractMatches Hash (deserialize (serialize (create Hash vTxid vMatch))) []).2.vMatch =
          ((List.range vTxid.length).filter fun p => vMatch.getD p false).map (vTxid.getD · default) ∧
        (ExtractMatches Hash (deserialize (serialize (create Hash vTxid vMatch))) []).2.vnIndex =
          (List.range vTxid.length).filter fun p => vMatch.getD p false) ∧
    (∀ (t : CPartialMerkleTree α) (vnIndex : List Nat), (ExtractMatches Hash t vnIndex).1 ≠ default →
      ∃ P, (ExtractMatches Hash t vnIndex).2.vMatch = P.map Prod.fst ∧
        (ExtractMatches Hash t vnIndex).2.vnIndex = vnIndex ++ P.map Prod.snd ∧
        Found Hash t.nTransactions (Nat.clog 2 t.nTransactions) 0 (ExtractMatches Hash t vnIndex).1 P) ∧
    (∀ (t : CPartialMerkleTree α) (vTxid : List α), (ExtractMatches Hash t []).1 ≠ default →
      (ExtractMatches Hash t []).1 = (computeMerkleRoot Hash vTxid).1 →
      t.nTransactions = vTxid.length →
      (ExtractMatches Hash t []).2.vMatch = (ExtractMatches Hash t []).2.vnIndex.map (vTxid.getD · default) ∧
        List.Sublist (ExtractMatches Hash t []).2.vMatch vTxid) := by
  have hcoll : ¬ ∃ a b c d, Hash a b = Hash c d ∧ (a ≠ c ∨ b ≠ d) := by
    rintro ⟨a, b, c, d, heq, hne⟩
    obtain ⟨hac, hbd⟩ := hinj a b c d heq
    exact hne.elim (absurd hac) (absurd hbd)
  refine ⟨fun vTxid vMatch hnodup hn hmax => ?_, fun t vnIndex hr => ExtractMatches_sound Hash t hr,
    fun t vTxid hr hroot hn => ?_⟩
  · obtain ⟨hroot, hmatch, hindex⟩ := ExtractMatches_create Hash vMatch
      (noEqualSiblings_of_injective Hash hinj hnodup) hn hmax []
    exact ⟨hroot.trans (computeMerkleRoot_fst Hash vTxid false).symm, hmatch, hindex⟩
  · rw [computeMerkleRoot_fst] at hroot
    -- the matched txids are the leaves at the positions found
    obtain ⟨P, hv, hi, hf⟩ := ExtractMatches_sound Hash t hr
    rw [hn, hroot] at hf
    refine ⟨?_, (ExtractMatches_sublist Hash hr hroot hn).resolve_right hcoll⟩
    rw [hv, hi, List.nil_append, hf.map_fst_eq Hash hcoll]

theorem ExtractMatches_roundtrip_sound_pair :
    (∀ a b c d, Nat.pair a b = Nat.pair c d → a = c ∧ b = d) ∧
      (ExtractMatches Nat.pair (deserialize (serialize (create Nat.pair [5, 6, 7] [false, true, true]))) []).1 =
          (computeMerkleRoot Nat.pair [5, 6, 7]).1 ∧
        (ExtractMatches Nat.pair (deserialize (serialize (create Nat.pair [5, 6, 7] [false, true, true]))) []).2.vMatch =
          [6, 7] ∧
        (ExtractMatches Nat.pair (deserialize (serialize (create Nat.pair [5, 6, 7] [false, true, true]))) []).2.vnIndex =
          [1, 2] := by
  have hinj : ∀ a b c d, Nat.pair a b = Nat.pair c d → a = c ∧ b = d :=
    fun a b c d h => Nat.pair_eq_pair.mp h
  obtain ⟨hroot, hmatch, hindex⟩ :=
    (ExtractMatches_roundtrip_sound Nat.pair hinj).1 [5, 6, 7] [false, true, true] (by decide) (by decide)
      (by decide)
  exact ⟨hinj, hroot, hmatch.trans (by decide), hindex.trans (by decide)⟩

/-- A tree of three transactions whose one bit says that nothing below the root
is matched, and whose one hash is 1. Under `Nat.pair`, which has no collisions,
it is accepted with root 1; but the root of three leaves pairs the pair of the
first two with the third paired with itself, and no such pair is 1. -/
theorem ExtractMatches_pruned_root :
    (ExtractMatches Nat.pair (deserialize ⟨3, [1], BitsToBytes [false]⟩) []).1 = 1 ∧
      ∀ T : List ℕ, T.length = 3 → CalcHash Nat.pair 3 T (treeHeight 3) 0 ≠ 1 := by
  refine ⟨by decide, fun T hT => ?_⟩
  obtain ⟨a, b, c, rfl⟩ : ∃ a b c, T = [a, b, c] := by
    match T, hT with
    | [a, b, c], _ => exact ⟨a, b, c, rfl⟩
  have hroot : CalcHash Nat.pair 3 [a, b, c] (treeHeight 3) 0 = Nat.pair (Nat.pair a b) (Nat.pair c c) := by
    simp [CalcHash, treeHeight, heightLoop, CalcTreeWidth]
  rw [hroot]
  intro h1
  -- `1` is `pair 0 1`, and `pair c c` is never `1`
  have hone : Nat.unpair 1 = (0, 1) := by decide
  have hpair := congrArg Nat.unpair h1
  rw [Nat.unpair_pair, hone, Prod.mk.injEq] at hpair
  have hcc := congrArg Nat.unpair hpair.2
  rw [Nat.unpair_pair, hone, Prod.mk.injEq] at hcc
  omega

end Blocks

end Namecoin.Consensus.PartialMerkle.CPartialMerkleTree
