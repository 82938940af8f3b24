import Namecoin.Cluster.Chunking

/-! # The chunks are the concave hull of the linearization

The diagram of a list of chunks (`diagram`) is affine on each chunk. When the rates
do not rise, it lies on or below the line of every chunk on all of `[0, total]`:
past the chunk the slopes are at most its rate (`diagramFrom_le_line`), before it at
least (`diagramFrom_add_line_le`). It has a supporting line at every point and is
concave (`diagram_concaveOn`).

For the chunks of dominated runs of a linearization, every prefix point lies on or
below the diagram (`le_diagramFrom_of_prefix`), and each piece of the diagram starts
and ends at a prefix point, so every concave function above the prefix points is
above the diagram: it is their least concave majorant
(`diagram_isLeastConcaveMajorant`). -/

namespace Namecoin.Cluster
open Namecoin.Util Lib.ConcaveHull

/-- The cumulative (size, fee) points of the prefixes of `xs`. -/
def prefixPoints (xs : List FeeFrac) : Set (ℝ × ℝ) :=
  {pt | ∃ p, p <+: xs ∧ pt = ((sizeSum p : ℝ), (feeSum p : ℝ))}

theorem cast_sizeSum (chunks : List FeeFrac) :
    (sizeSum chunks : ℝ) = (chunks.map fun c => (c.size : ℝ)).sum := by
  simp [sizeSum, Function.comp_def]

/-- A chunk's fee is its rate times its size. -/
theorem fee_eq_rate_mul {c : FeeFrac} (hc : 0 < c.size) : (c.fee : ℝ) = rate c * c.size := by
  rw [rate, div_mul_cancel₀ _ (by exact_mod_cast hc.ne')]

/-! ## Lines through the diagram -/

theorem diagramFrom_cons_of_le {c : FeeFrac} {cs : List FeeFrac} {fee0 size0 x : ℝ}
    (h : x ≤ size0 + c.size) : diagramFrom fee0 size0 (c :: cs) x = fee0 + (x - size0) * rate c := by
  rw [diagramFrom, if_pos h, rate]

theorem diagramFrom_cons_of_ge {c : FeeFrac} {cs : List FeeFrac} (hpos : ∀ c' ∈ c :: cs, 0 < c'.size)
    {fee0 size0 x : ℝ} (h : size0 + c.size ≤ x) :
    diagramFrom fee0 size0 (c :: cs) x = diagramFrom (fee0 + c.fee) (size0 + c.size) cs x := by
  have happ := @diagramFrom_append [c] cs hpos fee0 size0 x (by simpa using h)
  simpa using happ

/-- Chunks of rate at least `m` have at least `m` times their size in fees. -/
theorem mul_sizeSum_le_feeSum {cs : List FeeFrac} (hpos : ∀ c ∈ cs, 0 < c.size) {m : ℝ}
    (hm : ∀ c ∈ cs, m ≤ rate c) : m * sizeSum cs ≤ feeSum cs := by
  induction cs with
  | nil => simp
  | cons c cs ih =>
    have hc := hpos c List.mem_cons_self
    have hcs := ih (fun c' h => hpos c' (List.mem_cons_of_mem c h)) fun c' h => hm c' (List.mem_cons_of_mem c h)
    have hcf : m * c.size ≤ c.fee := by
      rw [fee_eq_rate_mul hc]
      exact mul_le_mul_of_nonneg_right (hm c List.mem_cons_self) (by exact_mod_cast hc.le)
    simp only [sizeSum_cons, feeSum_cons, Int.cast_add]
    linarith

/-- From a point on, chunks of rate at most `m` keep the diagram on or below the line of
slope `m` through it, up to their end. -/
theorem diagramFrom_le_line {cs : List FeeFrac} (hpos : ∀ c ∈ cs, 0 < c.size) {m : ℝ}
    (hm : ∀ c ∈ cs, rate c ≤ m) (fee0 size0 : ℝ) {x : ℝ} (hx0 : size0 ≤ x)
    (hx1 : x ≤ size0 + sizeSum cs) : diagramFrom fee0 size0 cs x ≤ fee0 + (x - size0) * m := by
  induction cs generalizing fee0 size0 with
  | nil =>
    have hx : x = size0 := by
      rw [sizeSum_nil, Int.cast_zero, add_zero] at hx1
      exact le_antisymm hx1 hx0
    rw [hx, sub_self, zero_mul, add_zero]
    rfl
  | cons c cs ih =>
    have hc := hpos c List.mem_cons_self
    have hrc := hm c List.mem_cons_self
    rw [sizeSum_cons, Int.cast_add] at hx1
    rcases le_or_gt x (size0 + c.size) with hle | hlt
    · -- on the first chunk, of rate at most `m`
      rw [diagramFrom_cons_of_le hle]
      have := mul_le_mul_of_nonneg_left hrc (sub_nonneg.2 hx0)
      linarith
    · -- past it, below the line of slope `m` from its end, which is below ours
      rw [diagramFrom_cons_of_ge hpos hlt.le]
      have h := ih (fun c' h => hpos c' (List.mem_cons_of_mem c h))
        (fun c' h => hm c' (List.mem_cons_of_mem c h)) (fee0 + c.fee) (size0 + c.size) hlt.le
        (by linarith)
      have hcf : (c.fee : ℝ) ≤ m * c.size := by
        rw [fee_eq_rate_mul hc]
        exact mul_le_mul_of_nonneg_right hrc (by exact_mod_cast hc.le)
      linarith

/-- Up to the end of `done`, whose chunks have rate at least `m`, the diagram lies on or
below the line of slope `m` back from that end. -/
theorem diagramFrom_add_line_le {done rest : List FeeFrac} (hpos : ∀ c ∈ done ++ rest, 0 < c.size)
    {m : ℝ} (hm : ∀ c ∈ done, m ≤ rate c) (fee0 size0 : ℝ) {x : ℝ} (hx0 : size0 ≤ x)
    (hx1 : x ≤ size0 + sizeSum done) :
    diagramFrom fee0 size0 (done ++ rest) x + (size0 + sizeSum done - x) * m ≤ fee0 + feeSum done := by
  induction done generalizing fee0 size0 with
  | nil =>
    have hx : x = size0 := by
      rw [sizeSum_nil, Int.cast_zero, add_zero] at hx1
      exact le_antisymm hx1 hx0
    rw [List.nil_append, hx, diagramFrom_start (fun c hc => hpos c (by simpa using hc))]
    simp
  | cons c done ih =>
    have hc := hpos c List.mem_cons_self
    have hrc := hm c List.mem_cons_self
    have hdone : m * sizeSum done ≤ feeSum done :=
      mul_sizeSum_le_feeSum (fun c' h => hpos c' (by simp [h]))
        fun c' h => hm c' (List.mem_cons_of_mem c h)
    rw [sizeSum_cons, Int.cast_add] at hx1
    rw [sizeSum_cons, feeSum_cons, Int.cast_add, Int.cast_add, List.cons_append]
    rcases le_or_gt x (size0 + c.size) with hle | hlt
    · -- inside the first chunk, of rate at least `m`
      rw [diagramFrom_cons_of_le hle]
      have h1 : (size0 + c.size - x) * m ≤ (size0 + c.size - x) * rate c :=
        mul_le_mul_of_nonneg_left hrc (by linarith)
      have h2 := fee_eq_rate_mul hc
      linarith
    · -- past it, by the rest of `done`
      rw [diagramFrom_cons_of_ge (by simpa using hpos) hlt.le]
      have h := ih (fun c' h => hpos c' (List.mem_cons_of_mem c h))
        (fun c' h => hm c' (List.mem_cons_of_mem c h)) (fee0 + c.fee) (size0 + c.size) hlt.le
        (by linarith)
      linarith

section Pieces

variable {done rest : List FeeFrac} {c : FeeFrac} (hpos : ∀ c' ∈ done ++ c :: rest, 0 < c'.size)
include hpos

/-- On the chunk `c` the diagram is its line. -/
theorem diagram_eq_line {x : ℝ} (hA : sizeSum done ≤ x) (hB : x ≤ sizeSum done + c.size) :
    diagram (done ++ c :: rest) x = feeSum done + (x - sizeSum done) * rate c := by
  rw [diagram, diagramFrom_append hpos 0 0 x (by simpa using hA), zero_add, zero_add,
    diagramFrom_cons_of_le hB]

/-- With rates that do not rise, the diagram lies on or below the line of each of its
chunks on `[0, total]`. -/
theorem diagram_le_line (hsorted : (done ++ c :: rest).Pairwise fun a b => rate b ≤ rate a) {x : ℝ}
    (hx0 : 0 ≤ x) (hx1 : x ≤ sizeSum (done ++ c :: rest)) :
    diagram (done ++ c :: rest) x ≤ feeSum done + (x - sizeSum done) * rate c := by
  -- the chunks before `c` have at least its rate, those after it at most
  obtain ⟨-, hcrest, hcross⟩ := List.pairwise_append.1 hsorted
  rw [sizeSum_append, Int.cast_add] at hx1
  rcases le_total (sizeSum done : ℝ) x with hA | hA
  · rw [diagram, diagramFrom_append hpos 0 0 x (by simpa using hA), zero_add, zero_add]
    refine diagramFrom_le_line (fun c' h => hpos c' (by simp [h])) (fun c' h => ?_) _ _ hA hx1
    rcases List.mem_cons.1 h with rfl | h
    · exact le_rfl
    · exact List.rel_of_pairwise_cons hcrest h
  · have h := diagramFrom_add_line_le hpos (m := rate c)
      (fun c' h => hcross c' h c List.mem_cons_self) 0 0 hx0 (by simpa using hA)
    rw [diagram]
    linarith

end Pieces

/-- With positive sizes and rates that do not rise, the diagram is concave up to the
total size. -/
theorem diagram_concaveOn {chunks : List FeeFrac} (hpos : ∀ c ∈ chunks, 0 < c.size)
    (hsorted : chunks.Pairwise fun a b => rate b ≤ rate a) :
    ConcaveOn ℝ (Set.Icc 0 (sizeSum chunks : ℝ)) (diagram chunks) := by
  rcases eq_or_ne chunks [] with rfl | hne
  · -- no chunks: the diagram is flat
    exact concaveOn_const (0 : ℝ) (convex_Icc _ _)
  · refine concaveOn_of_supporting (convex_Icc _ _) fun z hz => ?_
    -- the line of the chunk containing `z` supports the diagram there
    obtain ⟨done, c, rest, rfl, hA, hB⟩ :=
      exists_piece (fun c : FeeFrac => (c.size : ℝ)) hne hz.1 (by rw [← cast_sizeSum]; exact hz.2)
    rw [← cast_sizeSum] at hA hB
    exact ⟨sizeSum done, feeSum done, rate c, diagram_eq_line hpos hA hB,
      fun x hx => diagram_le_line hpos hsorted hx.1 hx.2⟩

theorem sizeSum_flatten (segs : List (List FeeFrac)) :
    sizeSum segs.flatten = sizeSum (segs.map exactSum) := by
  induction segs with
  | nil => rfl
  | cons s segs ih => rw [List.flatten_cons, sizeSum_append, List.map_cons, sizeSum_cons, exactSum_size, ih]

theorem feeSum_flatten (segs : List (List FeeFrac)) :
    feeSum segs.flatten = feeSum (segs.map exactSum) := by
  induction segs with
  | nil => rfl
  | cons s segs ih => rw [List.flatten_cons, feeSum_append, List.map_cons, feeSum_cons, exactSum_fee, ih]

theorem cast_sizeSum_flatten (segs : List (List FeeFrac)) :
    (sizeSum segs.flatten : ℝ) = (segs.map fun s => (sizeSum s : ℝ)).sum := by
  rw [sizeSum_flatten, cast_sizeSum, List.map_map]
  rfl

/-! ## Chunks of dominated runs -/

section Runs

variable {segs : List (List FeeFrac)} (hpos : ∀ c ∈ segs.flatten, 0 < c.size)
  (hne : ∀ s ∈ segs, s ≠ [])
include hpos hne

theorem exactSum_size_pos : ∀ c ∈ segs.map exactSum, 0 < c.size := by
  intro c hc
  obtain ⟨s, hs, rfl⟩ := List.mem_map.1 hc
  exact sizeSum_pos (fun c' h => hpos c' (List.mem_flatten_of_mem hs h)) (hne s hs)

/-- Every prefix point lies on or below the diagram of the chunks of dominated runs. -/
theorem le_diagramFrom_of_prefix (hdom : ∀ s ∈ segs, Dominated s) (fee0 size0 : ℝ) {p : List FeeFrac}
    (hp : p <+: segs.flatten) :
    fee0 + feeSum p ≤ diagramFrom fee0 size0 (segs.map exactSum) (size0 + sizeSum p) := by
  induction segs generalizing fee0 size0 p with
  | nil =>
    rw [List.flatten_nil, List.prefix_nil] at hp
    subst hp
    simp [diagramFrom]
  | cons s segs ih =>
    rw [List.flatten_cons] at hp hpos
    have hspos : ∀ c ∈ s, 0 < c.size := fun c hc => hpos c (List.mem_append_left _ hc)
    rw [List.map_cons]
    rcases prefix_append_cases hp with hp | ⟨q, rfl, hq⟩
    · -- inside the first run, whose chord is above its prefixes
      have hle : (sizeSum p : ℝ) ≤ sizeSum s := by exact_mod_cast sizeSum_le_of_prefix hspos hp
      rw [diagramFrom_cons_of_le (by rw [exactSum_size]; linarith)]
      have hp' := hdom s List.mem_cons_self p hp
      linarith
    · -- past it, the rest of the diagram starts at its end
      have hchunks := @exactSum_size_pos (s :: segs) (by rw [List.flatten_cons]; exact hpos) hne
      have hq' := ih (fun c h => hpos c (List.mem_append_right _ h))
        (fun s' h => hne s' (List.mem_cons_of_mem s h)) (fun s' h => hdom s' (List.mem_cons_of_mem s h))
        (fee0 + feeSum s) (size0 + sizeSum s) hq
      have hS : (0 : ℝ) ≤ sizeSum q := by
        exact_mod_cast sizeSum_nonneg fun c h => hpos c (List.mem_append_right s (hq.subset h))
      rw [sizeSum_append, feeSum_append, Int.cast_add, Int.cast_add,
        diagramFrom_cons_of_ge (by simpa using hchunks) (by rw [exactSum_size]; linarith)]
      simp only [exactSum_fee, exactSum_size]
      rw [← add_assoc, ← add_assoc]
      exact hq'

/-- A concave function on or above the prefix points is on or above the diagram: each
piece of the diagram is the chord between the prefix points at the ends of its run. -/
theorem diagram_le_of_concaveOn {f : ℝ → ℝ} (hf : ConcaveOn ℝ (Set.Icc 0 (sizeSum segs.flatten : ℝ)) f)
    (hfabove : ∀ pt ∈ prefixPoints segs.flatten, pt.2 ≤ f pt.1) {x : ℝ}
    (hx : x ∈ Set.Icc 0 (sizeSum segs.flatten : ℝ)) : diagram (segs.map exactSum) x ≤ f x := by
  rcases eq_or_ne segs [] with rfl | hsegs
  · -- no runs: the only point is the empty prefix at `0`
    have hx0 : x = 0 := le_antisymm (by simpa using hx.2) hx.1
    rw [hx0]
    exact hfabove (0, 0) ⟨[], List.nil_prefix, by simp⟩
  have hchunks := exactSum_size_pos hpos hne
  -- the run `s` whose piece holds `x`
  obtain ⟨sd, s, sr, rfl, hA, hB⟩ := exists_piece (fun s : List FeeFrac => (sizeSum s : ℝ)) hsegs hx.1
    (by rw [← cast_sizeSum_flatten]; exact hx.2)
  rw [← cast_sizeSum_flatten, sizeSum_flatten] at hA hB
  rw [List.map_append, List.map_cons] at hchunks ⊢
  have hSs : (0 : ℝ) < sizeSum s :=
    by exact_mod_cast sizeSum_pos (fun c hc => hpos c (by simp [hc])) (hne s (by simp))
  have hSr : (0 : ℝ) ≤ sizeSum sr.flatten :=
    by exact_mod_cast sizeSum_nonneg fun c hc => hpos c (by simp_all)
  have hSd : (0 : ℝ) ≤ sizeSum (sd.map exactSum) := by
    rw [← sizeSum_flatten]
    exact_mod_cast sizeSum_nonneg fun c hc => hpos c (by simp_all)
  have htotal : (sizeSum (sd ++ s :: sr).flatten : ℝ) =
      sizeSum (sd.map exactSum) + sizeSum s + sizeSum sr.flatten := by
    rw [List.flatten_append, List.flatten_cons, sizeSum_append, sizeSum_append, sizeSum_flatten]
    push_cast
    ring
  -- the diagram at the two ends of the piece, which are prefix points
  have hfA : (feeSum (sd.map exactSum) : ℝ) ≤ f (sizeSum (sd.map exactSum)) := by
    have h := hfabove _ ⟨sd.flatten, by simp, rfl⟩
    rwa [sizeSum_flatten, feeSum_flatten] at h
  have hfB : (feeSum (sd.map exactSum) : ℝ) + (sizeSum (sd.map exactSum) + sizeSum s -
      sizeSum (sd.map exactSum)) * rate (exactSum s) ≤ f (sizeSum (sd.map exactSum) + sizeSum s) := by
    have h := hfabove _ ⟨sd.flatten ++ s, by simp, rfl⟩
    rw [feeSum_append, sizeSum_append, sizeSum_flatten, feeSum_flatten, Int.cast_add, Int.cast_add] at h
    have hFs : (feeSum s : ℝ) = rate (exactSum s) * sizeSum s :=
      fee_eq_rate_mul (c := exactSum s) (by exact_mod_cast hSs)
    rw [add_sub_cancel_left, mul_comm, ← hFs]
    exact h
  rw [diagram_eq_line hchunks hA (by simpa using hB)]
  rw [htotal] at hf
  exact affine_le_of_concaveOn hf ⟨hSd, by linarith⟩ ⟨by linarith, by linarith⟩ hfA hfB
    ⟨hA, by simpa using hB⟩

/-- The diagram of the chunks of dominated runs with rates that do not rise is the least
concave majorant of the prefix points of the runs together. -/
theorem diagram_isLeastConcaveMajorant (hdom : ∀ s ∈ segs, Dominated s)
    (hsorted : segs.IsChain fun s t => rate (exactSum t) ≤ rate (exactSum s)) :
    IsLeastConcaveMajorant (Set.Icc 0 (sizeSum segs.flatten : ℝ)) (prefixPoints segs.flatten)
      (diagram (segs.map exactSum)) := by
  -- each chunk's rate is at least every later one's
  have hpw : (segs.map exactSum).Pairwise fun a b => rate b ≤ rate a := by
    have hrates : (segs.map fun s => rate (exactSum s)).IsChain (· ≥ ·) :=
      Iff.mpr (List.isChain_map _) hsorted
    simpa [List.pairwise_map] using hrates.pairwise
  refine ⟨?_, ?_, fun f hf hfabove x hx => diagram_le_of_concaveOn hpos hne hf hfabove hx⟩
  · rw [sizeSum_flatten]
    exact diagram_concaveOn (exactSum_size_pos hpos hne) hpw
  · rintro _ ⟨p, hp, rfl⟩
    have h := le_diagramFrom_of_prefix hpos hne hdom 0 0 hp
    rw [zero_add, zero_add] at h
    exact h

end Runs

/-! ## The chunking of a linearization -/

theorem chunking_concave_hull (depgraph : DepGraph) (linearization : List DepGraphIndex)
    (hpos : ∀ i ∈ linearization, 0 < (depgraph.FeeRate i).size)
    (hsize : sizeSum (linearization.map depgraph.FeeRate) < 2 ^ 31)
    (hfee : ∀ s, s <:+: linearization.map depgraph.FeeRate → -2 ^ 63 ≤ feeSum s ∧ feeSum s < 2 ^ 63) :
    (∃ segs : List (List DepGraphIndex), segs.flatten = linearization ∧ (∀ s ∈ segs, s ≠ []) ∧
      ChunkLinearizationInfo depgraph linearization = segs.map (chunkOf depgraph)) ∧
    ((ChunkLinearizationInfo depgraph linearization).map SetInfo.feerate).IsChain
      (fun a b => compareByRatio b a ≠ .gt) ∧
    IsLeastConcaveMajorant (Set.Icc 0 (sizeSum (linearization.map depgraph.FeeRate) : ℝ))
      (prefixPoints (linearization.map depgraph.FeeRate))
      (diagram ((ChunkLinearizationInfo depgraph linearization).map SetInfo.feerate)) ∧
    ChunkLinearization depgraph linearization =
      (ChunkLinearizationInfo depgraph linearization).map SetInfo.feerate := by
  have hfit : SumsFit (linearization.map depgraph.FeeRate) := ⟨by simpa using hpos, hsize, hfee⟩
  obtain ⟨segs, hflat, hne, hdom, hsorted, hinfo⟩ := ChunkLinearizationInfo_runs hfit
  have hrates : (ChunkLinearizationInfo depgraph linearization).map SetInfo.feerate =
      (segs.map (List.map depgraph.FeeRate)).map exactSum := by
    rw [hinfo, List.map_map, List.map_map]
    rfl
  have hxs : linearization.map depgraph.FeeRate = (segs.map (List.map depgraph.FeeRate)).flatten := by
    rw [← hflat, List.map_flatten]
  -- every chunk has a positive size
  have hchunk : ∀ s ∈ segs, 0 < (chunkOf depgraph s).feerate.size := by
    intro s hs
    have hmem : ∀ c ∈ s.map depgraph.FeeRate, c ∈ linearization.map depgraph.FeeRate := by
      intro c hc
      rw [hxs]
      exact List.mem_flatten_of_mem (List.mem_map_of_mem hs) hc
    exact sizeSum_pos (fun c hc => hfit.size_pos c (hmem c hc)) (by simpa using hne s hs)
  refine ⟨⟨segs, hflat, hne, hinfo⟩, ?_, ?_, ChunkLinearization_eq_map depgraph linearization⟩
  · -- no chunk has a higher rate than the one before it
    rw [hinfo, List.map_map, List.isChain_map]
    refine List.IsChain.imp_of_mem_imp (fun s t hs ht hle hgt => ?_) hsorted
    exact absurd hle (not_le.2 (Iff.mp (compareByRatio_gt_iff (hchunk t ht) (hchunk s hs)) hgt))
  · rw [hrates, hxs]
    refine diagram_isLeastConcaveMajorant (by rw [← hxs]; exact hfit.size_pos) ?_ ?_
      (Iff.mpr (List.isChain_map _) hsorted)
    · intro s hs
      obtain ⟨t, ht, rfl⟩ := List.mem_map.1 hs
      simpa using hne t ht
    · intro s hs
      obtain ⟨t, ht, rfl⟩ := List.mem_map.1 hs
      exact hdom t ht

/-- Three transactions of size 1 with fees 1, 3 and 2. -/
def tieGraph : DepGraph := ⟨fun i => ⟨⟨[1, 3, 2].getD i 0, 1⟩, {i}, {i}⟩, 3, {0, 1, 2}⟩

/-- The second transaction absorbs the first into a chunk of rate 2, and the third, of the
same rate, stays a chunk of its own. -/
theorem chunking_concave_hull_tie :
    (∀ i ∈ [0, 1, 2], 0 < (tieGraph.FeeRate i).size) ∧
    sizeSum ([0, 1, 2].map tieGraph.FeeRate) < 2 ^ 31 ∧
    (∀ s, s <:+: [0, 1, 2].map tieGraph.FeeRate → -2 ^ 63 ≤ feeSum s ∧ feeSum s < 2 ^ 63) ∧
    ((∃ segs : List (List DepGraphIndex), segs.flatten = [0, 1, 2] ∧ (∀ s ∈ segs, s ≠ []) ∧
      ChunkLinearizationInfo tieGraph [0, 1, 2] = segs.map (chunkOf tieGraph)) ∧
    ((ChunkLinearizationInfo tieGraph [0, 1, 2]).map SetInfo.feerate).IsChain
      (fun a b => compareByRatio b a ≠ .gt) ∧
    IsLeastConcaveMajorant (Set.Icc 0 (sizeSum ([0, 1, 2].map tieGraph.FeeRate) : ℝ))
      (prefixPoints ([0, 1, 2].map tieGraph.FeeRate))
      (diagram ((ChunkLinearizationInfo tieGraph [0, 1, 2]).map SetInfo.feerate)) ∧
    ChunkLinearization tieGraph [0, 1, 2] =
      (ChunkLinearizationInfo tieGraph [0, 1, 2]).map SetInfo.feerate) := by
  have hpos : ∀ i ∈ [0, 1, 2], 0 < (tieGraph.FeeRate i).size := by decide
  have hsize : sizeSum ([0, 1, 2].map tieGraph.FeeRate) < 2 ^ 31 := by decide
  have hfee : ∀ s, s <:+: [0, 1, 2].map tieGraph.FeeRate → -2 ^ 63 ≤ feeSum s ∧ feeSum s < 2 ^ 63 :=
    fee_range_of_abs (by decide)
  exact ⟨hpos, hsize, hfee, chunking_concave_hull tieGraph [0, 1, 2] hpos hsize hfee⟩

/-- Two transactions of size 1 with fees `2^62` and `2^62 + 1`: the second has the higher
rate and absorbs the first, and the chunk's fee `2^63 + 1` wraps in `int64_t` to
`1 - 2^63`, so no split of the linearization into runs gives the chunks with the sums of
their members. -/
theorem ChunkLinearizationInfo_wraps :
    ¬∃ segs : List (List DepGraphIndex), segs.flatten = [0, 1] ∧ (∀ s ∈ segs, s ≠ []) ∧
      ChunkLinearizationInfo ⟨fun i => ⟨⟨2 ^ 62 + (i : Int), 1⟩, {i}, {i}⟩, 2, {0, 1}⟩ [0, 1] =
        segs.map (chunkOf ⟨fun i => ⟨⟨2 ^ 62 + (i : Int), 1⟩, {i}, {i}⟩, 2, {0, 1}⟩) := by
  rintro ⟨segs, hflat, -, hinfo⟩
  have hval : (ChunkLinearizationInfo ⟨fun i => ⟨⟨2 ^ 62 + (i : Int), 1⟩, {i}, {i}⟩, 2, {0, 1}⟩
      [0, 1]).map (fun c => c.feerate.fee) = [1 - 2 ^ 63] := by decide
  rw [hinfo, List.map_map] at hval
  -- one chunk, so one run: the whole linearization, whose fees add up to `2^63 + 1`
  rcases segs with _ | ⟨s, _ | ⟨t, rest⟩⟩
  · simp at hval
  · rw [List.flatten_singleton] at hflat
    subst hflat
    revert hval
    decide
  · simp at hval

end Namecoin.Cluster
