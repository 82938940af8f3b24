import Namecoin.Cluster.DepGraph
import Namecoin.Lib.ConcaveHull
import Namecoin.Util.CompareChunks

/-! # Chunking a linearization (cluster_linearize.h)

`ChunkLinearizationInfo` walks a linearization with a stack of chunks: each
transaction starts a chunk of its own, which absorbs the last chunk so far as long
as it has a higher fee rate by `ByRatio`. `ChunkLinearization` does the same on the
fee rates alone (`ChunkLinearization_eq_map`).

When every size is positive and the sums fit in `int64_t` and `int32_t`
(`SumsFit`), each chunk is a run of the linearization with the exact sums of its
members (`chunkOf`). The stack, last run first, keeps three facts (`Stack`): its
runs are not empty, no prefix of a run has a higher fee rate than the run
(`Dominated`), and the rates do not rise from the bottom. A run absorbed by a run
of higher rate stays dominated (`Dominated.append`), and the loop stops at a run
of at least the new rate, so each step keeps the stack (`absorb_chunkOf`), and so
does the walk (`foldl_absorb`). -/

namespace Namecoin.Cluster
open Namecoin.Util Lib.ConcaveHull

/-- `SetInfo`: a set of transactions and their fee rate together. -/
structure SetInfo where
  transactions : Finset DepGraphIndex
  feerate : FeeFrac

namespace SetInfo

/-- `SetInfo (depgraph, pos)`: a single transaction. -/
def ofPos (depgraph : DepGraph) (pos : DepGraphIndex) : SetInfo := ⟨{pos}, depgraph.FeeRate pos⟩

/-- `operator|=`: the union of the sets and the sum of the fee rates. The sets must
not overlap, which only `Assume` checks. -/
instance : OrOp SetInfo := ⟨fun a b => ⟨a.transactions ∪ b.transactions, a.feerate + b.feerate⟩⟩

theorem or_def (a b : SetInfo) :
    (a ||| b) = ⟨a.transactions ∪ b.transactions, a.feerate + b.feerate⟩ := rfl

end SetInfo

/-- The `while` loop of the chunking: as long as `new_chunk` has a higher fee rate by
`ByRatio` than the back of `ret`, it absorbs it; then it is put at the back. `ret`
is kept with its back first. -/
def absorb {α : Type} (feerate : α → FeeFrac) (merge : α → α → α) (new_chunk : α) :
    List α → List α
  | [] => [new_chunk]
  | back :: ret =>
    if compareByRatio (feerate new_chunk) (feerate back) = .gt then
      absorb feerate merge (merge new_chunk back) ret
    else new_chunk :: back :: ret

/-- The walk of both chunking functions over the linearization, for a chunk type with
its fee rate, its `|=` or `+=`, and its chunk of one transaction. -/
def chunkWalk {α : Type} (feerate : α → FeeFrac) (merge : α → α → α)
    (single : DepGraphIndex → α) (linearization : List DepGraphIndex) : List α :=
  (linearization.foldl (fun ret i => absorb feerate merge (single i) ret) []).reverse

/-- `ChunkLinearizationInfo (depgraph, linearization)`. -/
def ChunkLinearizationInfo (depgraph : DepGraph) (linearization : List DepGraphIndex) :
    List SetInfo :=
  chunkWalk SetInfo.feerate (· ||| ·) (SetInfo.ofPos depgraph) linearization

/-- `ChunkLinearization (depgraph, linearization)`. -/
def ChunkLinearization (depgraph : DepGraph) (linearization : List DepGraphIndex) :
    List FeeFrac :=
  chunkWalk id (· + ·) depgraph.FeeRate linearization

section Map

variable {α β : Type} {fa : α → FeeFrac} {ma : α → α → α} {fb : β → FeeFrac}
  {mb : β → β → β} (f : α → β) (hrate : ∀ a, fb (f a) = fa a)
  (hmerge : ∀ a b, f (ma a b) = mb (f a) (f b))
include hrate hmerge

/-- The loop reads only fee rates, so a map that keeps them commutes with it. -/
theorem absorb_map (new_chunk : α) (ret : List α) :
    (absorb fa ma new_chunk ret).map f = absorb fb mb (f new_chunk) (ret.map f) := by
  induction ret generalizing new_chunk with
  | nil => rfl
  | cons back ret ih =>
    rw [List.map_cons, absorb, absorb, hrate, hrate]
    by_cases h : compareByRatio (fa new_chunk) (fa back) = .gt
    · rw [if_pos h, if_pos h, ih, hmerge]
    · rw [if_neg h, if_neg h]
      rfl

theorem chunkWalk_map {sa : DepGraphIndex → α} {sb : DepGraphIndex → β}
    (hsingle : ∀ i, f (sa i) = sb i) (linearization : List DepGraphIndex) :
    (chunkWalk fa ma sa linearization).map f = chunkWalk fb mb sb linearization := by
  unfold chunkWalk
  rw [List.map_reverse]
  congr 1
  -- the walk from any stack
  suffices h : ∀ ret : List α,
      (linearization.foldl (fun ret i => absorb fa ma (sa i) ret) ret).map f =
        linearization.foldl (fun ret i => absorb fb mb (sb i) ret) (ret.map f) from h []
  induction linearization with
  | nil => intro ret; rfl
  | cons i linearization ih =>
    intro ret
    rw [List.foldl_cons, List.foldl_cons, ih, absorb_map f hrate hmerge, hsingle]

end Map

/-- `ChunkLinearization` gives the fee rates of the chunks of `ChunkLinearizationInfo`. -/
theorem ChunkLinearization_eq_map (depgraph : DepGraph) (linearization : List DepGraphIndex) :
    ChunkLinearization depgraph linearization =
      (ChunkLinearizationInfo depgraph linearization).map SetInfo.feerate :=
  (@chunkWalk_map SetInfo FeeFrac SetInfo.feerate (· ||| ·) id (· + ·) SetInfo.feerate (fun _ => rfl)
    (fun _ _ => rfl) (SetInfo.ofPos depgraph) depgraph.FeeRate (fun _ => rfl) linearization).symm

/-! ## Exact sums -/

/-- The fee rates of a run added exactly. -/
def exactSum (xs : List FeeFrac) : FeeFrac := ⟨feeSum xs, sizeSum xs⟩

@[simp] theorem exactSum_fee (xs : List FeeFrac) : (exactSum xs).fee = feeSum xs := rfl
@[simp] theorem exactSum_size (xs : List FeeFrac) : (exactSum xs).size = sizeSum xs := rfl

/-- The chunk of a run `seg` of the linearization: its transactions, with the exact sum
of their fee rates. -/
def chunkOf (depgraph : DepGraph) (seg : List DepGraphIndex) : SetInfo :=
  ⟨seg.toFinset, exactSum (seg.map depgraph.FeeRate)⟩

@[simp] theorem chunkOf_feerate (depgraph : DepGraph) (seg : List DepGraphIndex) :
    (chunkOf depgraph seg).feerate = exactSum (seg.map depgraph.FeeRate) := rfl

theorem ofPos_eq_chunkOf (depgraph : DepGraph) (i : DepGraphIndex) :
    SetInfo.ofPos depgraph i = chunkOf depgraph [i] := by
  simp [SetInfo.ofPos, chunkOf, exactSum]

/-- Fee per size. -/
noncomputable def rate (c : FeeFrac) : ℝ := c.fee / c.size

/-- `ByRatio {a} > ByRatio {b}` for positive sizes: `a` has the higher rate. -/
theorem compareByRatio_gt_iff {a b : FeeFrac} (ha : 0 < a.size) (hb : 0 < b.size) :
    compareByRatio a b = .gt ↔ rate b < rate a := by
  have ha' : (0 : ℝ) < a.size := by exact_mod_cast ha
  have hb' : (0 : ℝ) < b.size := by exact_mod_cast hb
  rw [compareByRatio, compare_gt_iff_gt, rate, rate, div_lt_div_iff₀ hb' ha']
  exact_mod_cast Iff.rfl

section Sums

variable {xs : List FeeFrac} (hpos : ∀ c ∈ xs, 0 < c.size)
include hpos

theorem sizeSum_pos (hne : xs ≠ []) : 0 < sizeSum xs := by
  obtain ⟨c, cs, rfl⟩ := List.exists_cons_of_ne_nil hne
  have hc := hpos c List.mem_cons_self
  have hcs := sizeSum_nonneg fun c' h => hpos c' (List.mem_cons_of_mem c h)
  rw [sizeSum_cons]
  omega

theorem sizeSum_le_of_prefix {p : List FeeFrac} (hp : p <+: xs) : sizeSum p ≤ sizeSum xs := by
  obtain ⟨u, rfl⟩ := hp
  have hu := sizeSum_nonneg fun c h => hpos c (List.mem_append_right p h)
  rw [sizeSum_append]
  omega

end Sums

/-- What the walk needs for its sums to be exact: positive sizes, a total size below
`2^31`, and the fee sum of every run within `int64_t`. -/
structure SumsFit (xs : List FeeFrac) : Prop where
  size_pos : ∀ c ∈ xs, 0 < c.size
  size_lt : sizeSum xs < 2 ^ 31
  fee_range : ∀ s, s <:+: xs → -2 ^ 63 ≤ feeSum s ∧ feeSum s < 2 ^ 63

theorem SumsFit.mono {xs ys : List FeeFrac} (h : SumsFit xs) (hs : ys <:+: xs) : SumsFit ys := by
  have hpos : ∀ c ∈ ys, 0 < c.size := fun c hc => h.size_pos c (hs.subset hc)
  refine ⟨hpos, ?_, fun s hs' => h.fee_range s (hs'.trans hs)⟩
  obtain ⟨a, b, rfl⟩ := hs
  have ha : 0 ≤ sizeSum a := sizeSum_nonneg fun c hc => h.size_pos c (by simp [hc])
  have hb : 0 ≤ sizeSum b := sizeSum_nonneg fun c hc => h.size_pos c (by simp [hc])
  have hlt := h.size_lt
  rw [sizeSum_append, sizeSum_append] at hlt
  omega

/-- When the absolute fees add up to less than `2^63`, every run's fee sum fits. -/
theorem fee_range_of_abs {xs : List FeeFrac} (h : (xs.map fun c => |c.fee|).sum < 2 ^ 63) :
    ∀ s, s <:+: xs → -2 ^ 63 ≤ feeSum s ∧ feeSum s < 2 ^ 63 := by
  -- a fee sum is at most the sum of the absolute fees, which only grows on a longer list
  have habs : ∀ l : List FeeFrac, |feeSum l| ≤ (l.map fun c => |c.fee|).sum := by
    intro l
    induction l with
    | nil => simp
    | cons c l ih =>
      rw [feeSum_cons, List.map_cons, List.sum_cons]
      exact (abs_add_le _ _).trans (add_le_add le_rfl ih)
  have hmono : ∀ l l' : List FeeFrac, (l.map fun c => |c.fee|).sum ≤
      ((l ++ l').map fun c => |c.fee|).sum := by
    intro l l'
    rw [List.map_append, List.sum_append]
    exact le_add_of_nonneg_right (List.sum_nonneg (by simp))
  intro s hs
  obtain ⟨a, b, rfl⟩ := hs
  have h1 := habs s
  have h2 : (s.map fun c => |c.fee|).sum ≤ ((a ++ s ++ b).map fun c => |c.fee|).sum := by
    calc (s.map fun c => |c.fee|).sum ≤ ((a ++ s).map fun c => |c.fee|).sum := by
          rw [List.map_append, List.sum_append]
          exact le_add_of_nonneg_left (List.sum_nonneg (by simp))
      _ ≤ ((a ++ s ++ b).map fun c => |c.fee|).sum := hmono _ _
  constructor <;> linarith [abs_le.1 h1]

/-- Two chunks of runs `t` then `n` whose sums fit merge into the chunk of `t ++ n`. -/
theorem chunkOf_or {g : DepGraph} {t n : List DepGraphIndex} (hfit : SumsFit ((t ++ n).map g.FeeRate)) :
    (chunkOf g n ||| chunkOf g t) = chunkOf g (t ++ n) := by
  have hf := hfit.fee_range _ (List.infix_refl _)
  have hs := sizeSum_nonneg hfit.size_pos
  have hlt := hfit.size_lt
  simp only [List.map_append, feeSum_append, sizeSum_append] at hf hs hlt
  rw [chunkOf, chunkOf, chunkOf, SetInfo.or_def, List.toFinset_append, Finset.union_comm]
  congr 1
  rw [FeeFrac.add_def, exactSum, exactSum, exactSum, List.map_append, feeSum_append,
    sizeSum_append, add_comm (feeSum _), add_comm (sizeSum _), wrapInt_64 hf.1 hf.2,
    wrapInt_32 (by omega) hlt]

/-! ## Dominated runs -/

/-- No prefix of the run `xs` has a higher fee rate than it: the points of its prefixes
lie on or below its chord. -/
def Dominated (xs : List FeeFrac) : Prop :=
  ∀ p, p <+: xs → (feeSum p : ℝ) ≤ rate (exactSum xs) * sizeSum p

theorem dominated_singleton {c : FeeFrac} (hc : 0 < c.size) : Dominated [c] := by
  have hc' : (c.size : ℝ) ≠ 0 := by exact_mod_cast hc.ne'
  intro p hp
  rcases List.prefix_cons_iff.1 hp with rfl | ⟨t, rfl, ht⟩
  · simp
  · rw [List.prefix_nil.1 ht]
    simp [rate, exactSum, div_mul_cancel₀ _ hc']

/-- A run absorbed by a following run of at least its rate stays dominated: the merged
rate is their mediant. -/
theorem Dominated.append {t n : List FeeFrac} (hpos : ∀ c ∈ t ++ n, 0 < c.size) (ht : t ≠ [])
    (hn : n ≠ []) (hdt : Dominated t) (hdn : Dominated n) (hle : rate (exactSum t) ≤ rate (exactSum n)) :
    Dominated (t ++ n) := by
  have htpos : ∀ c ∈ t, 0 < c.size := fun c hc => hpos c (List.mem_append_left n hc)
  have hnpos : ∀ c ∈ n, 0 < c.size := fun c hc => hpos c (List.mem_append_right t hc)
  have hSt : (0 : ℝ) < sizeSum t := by exact_mod_cast sizeSum_pos htpos ht
  have hSn : (0 : ℝ) < sizeSum n := by exact_mod_cast sizeSum_pos hnpos hn
  have hrate : rate (exactSum (t ++ n)) = (feeSum t + feeSum n : ℝ) / (sizeSum t + sizeSum n) := by
    simp [rate, exactSum]
  have hlo : rate (exactSum t) ≤ rate (exactSum (t ++ n)) := by
    rw [hrate]
    exact div_le_add_div_add hSt hSn hle
  have hhi : rate (exactSum (t ++ n)) ≤ rate (exactSum n) := by
    rw [hrate]
    exact add_div_add_le_div hSt hSn hle
  have hFn : (feeSum n : ℝ) = rate (exactSum n) * sizeSum n := by
    rw [rate, exactSum_fee, exactSum_size, div_mul_cancel₀ _ hSn.ne']
  have hF : (feeSum t + feeSum n : ℝ) = rate (exactSum (t ++ n)) * (sizeSum t + sizeSum n) := by
    rw [hrate, div_mul_cancel₀ _ (add_pos hSt hSn).ne']
  intro p hp
  rcases prefix_append_cases hp with hp | ⟨q, rfl, hq⟩
  · -- a prefix of `t`, at most at `t`'s rate, which is at most the merged one
    have hSp : (0 : ℝ) ≤ sizeSum p := by
      exact_mod_cast sizeSum_nonneg fun c hc => htpos c (hp.subset hc)
    calc (feeSum p : ℝ) ≤ rate (exactSum t) * sizeSum p := hdt p hp
      _ ≤ rate (exactSum (t ++ n)) * sizeSum p := mul_le_mul_of_nonneg_right hlo hSp
  · -- `t` and a prefix `q` of `n`: the rest of `n` has at least `n`'s rate
    have hq' := hdn q hq
    have hSq : (sizeSum q : ℝ) ≤ sizeSum n := by exact_mod_cast sizeSum_le_of_prefix hnpos hq
    have hgap : 0 ≤ (rate (exactSum n) - rate (exactSum (t ++ n))) * (sizeSum n - sizeSum q) :=
      mul_nonneg (by linarith) (by linarith)
    rw [feeSum_append, sizeSum_append, Int.cast_add, Int.cast_add]
    linarith

/-! ## The stack -/

/-- What the stack of runs, last run first, keeps. -/
structure Stack (depgraph : DepGraph) (rst : List (List DepGraphIndex)) : Prop where
  ne_nil : ∀ s ∈ rst, s ≠ []
  dominated : ∀ s ∈ rst, Dominated (s.map depgraph.FeeRate)
  sorted : rst.IsChain fun later earlier =>
    rate (chunkOf depgraph later).feerate ≤ rate (chunkOf depgraph earlier).feerate

theorem Stack.tail {g : DepGraph} {t : List DepGraphIndex} {rest : List (List DepGraphIndex)}
    (h : Stack g (t :: rest)) : Stack g rest :=
  ⟨fun s hs => h.ne_nil s (List.mem_cons_of_mem t hs),
    fun s hs => h.dominated s (List.mem_cons_of_mem t hs), h.sorted.tail⟩

theorem Stack.push {g : DepGraph} {n : List DepGraphIndex} {rst : List (List DepGraphIndex)}
    (h : Stack g rst) (hn : n ≠ []) (hdn : Dominated (n.map g.FeeRate))
    (hle : ∀ t ∈ rst.head?, rate (chunkOf g n).feerate ≤ rate (chunkOf g t).feerate) :
    Stack g (n :: rst) := by
  refine ⟨?_, ?_, List.isChain_cons.2 ⟨hle, h.sorted⟩⟩
  · intro s hs
    rcases List.mem_cons.1 hs with rfl | hs
    · exact hn
    · exact h.ne_nil s hs
  · intro s hs
    rcases List.mem_cons.1 hs with rfl | hs
    · exact hdn
    · exact h.dominated s hs

/-- One run of the `while` loop: the new run `n` absorbs runs from the top of the stack
until one has at least its rate, and the stack then covers `n` as well. -/
theorem absorb_chunkOf {g : DepGraph} {n : List DepGraphIndex} {rst : List (List DepGraphIndex)}
    (hn : n ≠ []) (hdn : Dominated (n.map g.FeeRate)) (hst : Stack g rst)
    (hfit : SumsFit ((rst.reverse.flatten ++ n).map g.FeeRate)) :
    ∃ rst', absorb SetInfo.feerate (· ||| ·) (chunkOf g n) (rst.map (chunkOf g)) = rst'.map (chunkOf g) ∧
      Stack g rst' ∧ rst'.reverse.flatten = rst.reverse.flatten ++ n := by
  induction rst generalizing n with
  | nil =>
    refine ⟨[n], rfl, Stack.push hst hn hdn (by simp), by simp⟩
  | cons t rest ih =>
    have ht := hst.ne_nil t List.mem_cons_self
    -- the top run and `n` are the last two runs of the covered prefix
    have hcover : (t :: rest).reverse.flatten ++ n = rest.reverse.flatten ++ (t ++ n) := by simp
    have htn : SumsFit ((t ++ n).map g.FeeRate) :=
      hfit.mono (by rw [hcover]; exact List.infix_append_right.map _)
    have hnpos : 0 < sizeSum (n.map g.FeeRate) :=
      sizeSum_pos (fun c hc => htn.size_pos c (by simp_all)) (by simpa using hn)
    have htpos : 0 < sizeSum (t.map g.FeeRate) :=
      sizeSum_pos (fun c hc => htn.size_pos c (by simp_all)) (by simpa using ht)
    rw [List.map_cons, absorb]
    by_cases hgt : compareByRatio (chunkOf g n).feerate (chunkOf g t).feerate = .gt
    · -- `n` has the higher rate: it absorbs `t`, and the loop goes on below
      have hlt := Iff.mp (compareByRatio_gt_iff hnpos htpos) hgt
      rw [if_pos hgt, chunkOf_or htn]
      have hdtn : Dominated ((t ++ n).map g.FeeRate) := by
        rw [List.map_append]
        exact Dominated.append (by rw [← List.map_append]; exact htn.size_pos) (by simpa using ht)
          (by simpa using hn) (hst.dominated t List.mem_cons_self) hdn hlt.le
      obtain ⟨rst', h1, h2, h3⟩ := ih (List.append_ne_nil_of_right_ne_nil t hn) hdtn hst.tail
        (by rw [← hcover]; exact hfit)
      exact ⟨rst', h1, h2, by rw [h3, hcover]⟩
    · -- `t` has at least `n`'s rate: `n` goes on top
      have hle : rate (chunkOf g n).feerate ≤ rate (chunkOf g t).feerate :=
        not_lt.1 fun h => hgt (Iff.mpr (compareByRatio_gt_iff hnpos htpos) h)
      rw [if_neg hgt]
      exact ⟨n :: t :: rest, rfl, Stack.push hst hn hdn (by simpa using hle), by simp⟩

/-- The walk over `linearization` from a stack covering a prefix: the stack then covers
`linearization` as well. -/
theorem foldl_absorb {g : DepGraph} (linearization : List DepGraphIndex) {rst : List (List DepGraphIndex)}
    (hst : Stack g rst) (hfit : SumsFit ((rst.reverse.flatten ++ linearization).map g.FeeRate)) :
    ∃ rst', linearization.foldl (fun ret i => absorb SetInfo.feerate (· ||| ·) (SetInfo.ofPos g i) ret)
        (rst.map (chunkOf g)) = rst'.map (chunkOf g) ∧
      Stack g rst' ∧ rst'.reverse.flatten = rst.reverse.flatten ++ linearization := by
  induction linearization generalizing rst with
  | nil => exact ⟨rst, rfl, hst, by simp⟩
  | cons i linearization ih =>
    have hi : 0 < (g.FeeRate i).size := hfit.size_pos _ (by simp)
    obtain ⟨rst₁, h1, h2, h3⟩ := absorb_chunkOf (n := [i]) (List.cons_ne_nil i [])
      (by simpa using dominated_singleton hi) hst
      (hfit.mono (List.IsPrefix.isInfix (by simp)))
    obtain ⟨rst₂, h4, h5, h6⟩ := ih h2 (by rw [h3]; simpa using hfit)
    refine ⟨rst₂, ?_, h5, by rw [h6, h3]; simp⟩
    rw [List.foldl_cons, ofPos_eq_chunkOf, h1, h4]

/-- The chunks of a linearization whose sums fit are the chunks of non-empty runs that
cover it, each dominated, with rates that do not rise. -/
theorem ChunkLinearizationInfo_runs {g : DepGraph} {linearization : List DepGraphIndex}
    (hfit : SumsFit (linearization.map g.FeeRate)) :
    ∃ segs : List (List DepGraphIndex), segs.flatten = linearization ∧ (∀ s ∈ segs, s ≠ []) ∧
      (∀ s ∈ segs, Dominated (s.map g.FeeRate)) ∧
      segs.IsChain (fun s t => rate (chunkOf g t).feerate ≤ rate (chunkOf g s).feerate) ∧
      ChunkLinearizationInfo g linearization = segs.map (chunkOf g) := by
  have hempty : Stack g [] := ⟨by simp, by simp, List.isChain_nil⟩
  obtain ⟨rst, h1, h2, h3⟩ := foldl_absorb linearization hempty (by simpa using hfit)
  refine ⟨rst.reverse, by simpa using h3, fun s hs => h2.ne_nil s (List.mem_reverse.1 hs),
    fun s hs => h2.dominated s (List.mem_reverse.1 hs), List.isChain_reverse.2 h2.sorted, ?_⟩
  rw [ChunkLinearizationInfo, chunkWalk, List.map_reverse, ← h1]
  rfl

end Namecoin.Cluster
