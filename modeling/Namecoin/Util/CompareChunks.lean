import Mathlib.Data.List.Infix
import Mathlib.Data.Real.Basic
import Mathlib.Order.Compare
import Mathlib.Tactic.FieldSimp
import Mathlib.Tactic.Linarith
import Mathlib.Tactic.Ring
import Namecoin.Lib.PiecewiseLinear
import Namecoin.Util.FeeFrac

/-! # CompareChunks is the pointwise order of the diagrams

The diagram of a list of chunks starts at (0, 0), runs through the cumulative
(size, fee) points of its chunks, and is horizontal after the last one
(`diagram`). When the sizes are positive, the total sizes stay below 2^31,
and the fee sums of any two initial segments of the inputs differ by less
than 2^63, the arithmetic of `CompareChunks` is exact (`Fits`). It then
reports `greater` exactly when the first diagram is nowhere below the second
and above it somewhere, and so on (`CompareChunks_diagrams`).

The proof follows the walk. Up to the frontier, the larger size of the two
processed points, each `better_somewhere` flag says whether its diagram is
above the other somewhere (`WalkInv`). Up to the next point both diagrams are
affine, so their difference is positive somewhere there exactly when it is
at an end (`Lib.PiecewiseLinear.exists_pos_Icc_iff`), and the comparison at
the next point decides it (`compareAt_walkInv`).

Without the bound on the fee sums, a difference `P - A` of fees from the two
inputs can leave `int64_t` even on sorted inputs whose sums all fit: it wraps,
and the walk records the wrong side (`CompareChunks_wraps`). -/

namespace Namecoin.Util
open Lib.PiecewiseLinear

/-! ## Fee rate diagrams -/

/-- The fee of `chunks` together, exactly. -/
def feeSum (chunks : List FeeFrac) : Int := (chunks.map FeeFrac.fee).sum

/-- The size of `chunks` together, exactly. -/
def sizeSum (chunks : List FeeFrac) : Int := (chunks.map FeeFrac.size).sum

@[simp] theorem feeSum_nil : feeSum [] = 0 := rfl
@[simp] theorem sizeSum_nil : sizeSum [] = 0 := rfl

@[simp] theorem feeSum_append (l l' : List FeeFrac) : feeSum (l ++ l') = feeSum l + feeSum l' := by
  simp [feeSum]

@[simp] theorem sizeSum_append (l l' : List FeeFrac) :
    sizeSum (l ++ l') = sizeSum l + sizeSum l' := by
  simp [sizeSum]

@[simp] theorem feeSum_cons (c : FeeFrac) (l : List FeeFrac) : feeSum (c :: l) = c.fee + feeSum l := by
  simp [feeSum]

@[simp] theorem sizeSum_cons (c : FeeFrac) (l : List FeeFrac) :
    sizeSum (c :: l) = c.size + sizeSum l := by
  simp [sizeSum]

/-- The diagram from the point (`size0`, `fee0`) on: through the cumulative
points of `chunks`, then horizontal. -/
noncomputable def diagramFrom (fee0 size0 : ℝ) : List FeeFrac → ℝ → ℝ
  | [], _ => fee0
  | c :: chunks, x =>
    if x ≤ size0 + c.size then fee0 + (x - size0) * (c.fee / c.size)
    else diagramFrom (fee0 + c.fee) (size0 + c.size) chunks x

/-- The fee rate diagram of `chunks`. -/
noncomputable def diagram (chunks : List FeeFrac) : ℝ → ℝ := diagramFrom 0 0 chunks

/-- Chunks sorted as `CompareChunks` asks of its inputs: no chunk has a higher
fee rate than one before it. -/
def SortedByRate (chunks : List FeeFrac) : Prop :=
  chunks.Pairwise fun a b => compareByRatio a b ≠ .lt

instance (chunks : List FeeFrac) : Decidable (SortedByRate chunks) :=
  inferInstanceAs (Decidable (List.Pairwise _ _))

section Diagram

variable {chunks : List FeeFrac} (hpos : ∀ c ∈ chunks, 0 < c.size)
include hpos

theorem sizeSum_nonneg : 0 ≤ sizeSum chunks := by
  induction chunks with
  | nil => rfl
  | cons c chunks ih =>
    have := hpos c List.mem_cons_self
    have := ih fun c' h => hpos c' (List.mem_cons_of_mem _ h)
    simp only [sizeSum_cons]
    omega

/-- A diagram starts at its start point. -/
theorem diagramFrom_start (fee0 size0 : ℝ) : diagramFrom fee0 size0 chunks size0 = fee0 := by
  cases chunks with
  | nil => rfl
  | cons c chunks =>
    have : (0 : ℝ) < c.size := by exact_mod_cast hpos c List.mem_cons_self
    rw [diagramFrom, if_pos (by linarith)]
    ring

/-- Chunks of fee at most 0 keep the diagram at most at its start. -/
theorem diagramFrom_le_start (hfee : ∀ c ∈ chunks, c.fee ≤ 0) (fee0 size0 : ℝ) {x : ℝ}
    (hx : size0 ≤ x) : diagramFrom fee0 size0 chunks x ≤ fee0 := by
  induction chunks generalizing fee0 size0 with
  | nil => exact le_rfl
  | cons c chunks ih =>
    have hc : (0 : ℝ) < c.size := by exact_mod_cast hpos c List.mem_cons_self
    have hcf : (c.fee : ℝ) ≤ 0 := by exact_mod_cast hfee c List.mem_cons_self
    rw [diagramFrom]
    split
    · have := mul_nonpos_of_nonneg_of_nonpos (sub_nonneg.2 hx)
        (div_nonpos_of_nonpos_of_nonneg hcf hc.le)
      linarith
    · next hlt =>
      have := ih (fun c' h => hpos c' (List.mem_cons_of_mem _ h))
        (fun c' h => hfee c' (List.mem_cons_of_mem _ h)) (fee0 + c.fee) (size0 + c.size)
        (not_le.1 hlt).le
      linarith

/-- Chunks of fee at least 0 keep the diagram at least at its start. -/
theorem start_le_diagramFrom (hfee : ∀ c ∈ chunks, 0 ≤ c.fee) (fee0 size0 : ℝ) {x : ℝ}
    (hx : size0 ≤ x) : fee0 ≤ diagramFrom fee0 size0 chunks x := by
  induction chunks generalizing fee0 size0 with
  | nil => exact le_rfl
  | cons c chunks ih =>
    have hc : (0 : ℝ) < c.size := by exact_mod_cast hpos c List.mem_cons_self
    have hcf : (0 : ℝ) ≤ c.fee := by exact_mod_cast hfee c List.mem_cons_self
    rw [diagramFrom]
    split
    · have := mul_nonneg (sub_nonneg.2 hx) (div_nonneg hcf hc.le)
      linarith
    · next hlt =>
      have := ih (fun c' h => hpos c' (List.mem_cons_of_mem _ h))
        (fun c' h => hfee c' (List.mem_cons_of_mem _ h)) (fee0 + c.fee) (size0 + c.size)
        (not_le.1 hlt).le
      linarith

end Diagram

/-- Past an initial segment `done` of its chunks, a diagram is the diagram of
the rest from the point that `done` reaches. -/
theorem diagramFrom_append {done rest : List FeeFrac} (hpos : ∀ c ∈ done ++ rest, 0 < c.size)
    (fee0 size0 x : ℝ) (hx : size0 + sizeSum done ≤ x) :
    diagramFrom fee0 size0 (done ++ rest) x =
      diagramFrom (fee0 + feeSum done) (size0 + sizeSum done) rest x := by
  induction done generalizing fee0 size0 with
  | nil => simp
  | cons c done ih =>
    have hc : (0 : ℝ) < c.size := by exact_mod_cast hpos c (by simp)
    have hdone : (0 : ℝ) ≤ sizeSum done := by
      exact_mod_cast sizeSum_nonneg fun c' h => hpos c' (by simp [h])
    simp only [sizeSum_cons, feeSum_cons, Int.cast_add] at hx ⊢
    rw [List.cons_append, diagramFrom]
    split
    · next hle =>
      -- `x` is the end of `c`, so `done` is empty and the rest starts there
      have hx' : x = size0 + c.size := by linarith
      have hzero : (sizeSum done : ℝ) = 0 := by linarith
      have hnil : done = [] := by
        cases done with
        | nil => rfl
        | cons c' done' =>
          have h1 : (0 : ℝ) < c'.size := by exact_mod_cast hpos c' (by simp)
          have h2 : (0 : ℝ) ≤ sizeSum done' := by
            exact_mod_cast sizeSum_nonneg fun c'' h => hpos c'' (by simp [h])
          simp only [sizeSum_cons, Int.cast_add] at hzero
          linarith
      subst hnil
      have hrest : ∀ c' ∈ rest, 0 < c'.size := fun c' h => hpos c' (by simp [h])
      rw [hx', feeSum_nil, sizeSum_nil, Int.cast_zero, add_zero, add_zero,
        diagramFrom_start hrest]
      field_simp
      ring
    · rw [ih (fun c' h => hpos c' (List.mem_cons_of_mem _ h)) _ _ (by linarith)]
      ring_nf

/-! ## The arithmetic is exact -/

/-- What `CompareChunks` needs of its inputs for its arithmetic to be exact:
positive sizes, total sizes below 2^31, and fee sums of initial segments of
the inputs less than 2^63 apart. -/
structure Fits (chunks0 chunks1 : List FeeFrac) : Prop where
  size_pos : ∀ c ∈ chunks0 ++ chunks1, 0 < c.size
  size_lt0 : sizeSum chunks0 < 2 ^ 31
  size_lt1 : sizeSum chunks1 < 2 ^ 31
  fee_spread : ∀ d ∈ chunks0.inits ++ chunks1.inits, ∀ d' ∈ chunks0.inits ++ chunks1.inits,
    feeSum d - feeSum d' < 2 ^ 63

theorem Fits.symm {chunks0 chunks1 : List FeeFrac} (h : Fits chunks0 chunks1) :
    Fits chunks1 chunks0 where
  size_pos c hc := h.size_pos c (List.mem_append.2 (List.mem_append.1 hc).symm)
  size_lt0 := h.size_lt1
  size_lt1 := h.size_lt0
  fee_spread d hd d' hd' := h.fee_spread d (List.mem_append.2 (List.mem_append.1 hd).symm) d'
    (List.mem_append.2 (List.mem_append.1 hd').symm)

theorem wrapInt_64 {x : Int} (h1 : -2 ^ 63 ≤ x) (h2 : x < 2 ^ 63) : wrapInt 64 x = x := by
  unfold wrapInt
  omega

theorem wrapInt_32 {x : Int} (h1 : -2 ^ 31 ≤ x) (h2 : x < 2 ^ 31) : wrapInt 32 x = x := by
  unfold wrapInt
  omega

section Bounds

variable {chunks other : List FeeFrac} (hfits : Fits chunks other)
include hfits

theorem Fits.pos : ∀ c ∈ chunks, 0 < c.size :=
  fun c h => hfits.size_pos c (List.mem_append_left _ h)

/-- Fee sums of initial segments of the two inputs differ by less than 2^63
either way. -/
theorem Fits.cross {d d' : List FeeFrac} (hd : d <+: chunks) (hd' : d' <+: other) :
    feeSum d - feeSum d' < 2 ^ 63 ∧ feeSum d' - feeSum d < 2 ^ 63 := by
  have hm : d ∈ chunks.inits ++ other.inits := List.mem_append_left _ (List.mem_inits _ _ |>.2 hd)
  have hm' : d' ∈ chunks.inits ++ other.inits :=
    List.mem_append_right _ (List.mem_inits _ _ |>.2 hd')
  exact ⟨hfits.fee_spread d hm d' hm', hfits.fee_spread d' hm' d hm⟩

/-- Fee sums of two initial segments of one input differ by less than 2^63. -/
theorem Fits.self_spread {d d' : List FeeFrac} (hd : d <+: chunks) (hd' : d' <+: chunks) :
    feeSum d - feeSum d' < 2 ^ 63 :=
  hfits.fee_spread d (List.mem_append_left _ (List.mem_inits _ _ |>.2 hd)) d'
    (List.mem_append_left _ (List.mem_inits _ _ |>.2 hd'))

/-- The fee sum of an initial segment fits in an `int64_t`. -/
theorem Fits.fee_bound {d : List FeeFrac} (hd : d <+: chunks) :
    -2 ^ 63 < feeSum d ∧ feeSum d < 2 ^ 63 := by
  have hnil : [] ∈ chunks.inits ++ other.inits :=
    List.mem_append_left _ (List.mem_inits _ _ |>.2 (List.nil_prefix))
  have hm : d ∈ chunks.inits ++ other.inits := List.mem_append_left _ (List.mem_inits _ _ |>.2 hd)
  have h1 := hfits.fee_spread d hm [] hnil
  have h2 := hfits.fee_spread [] hnil d hm
  simp only [feeSum_nil] at h1 h2
  omega

/-- The size of an initial segment is at most the total. -/
theorem Fits.size_bound {d : List FeeFrac} (hd : d <+: chunks) :
    0 ≤ sizeSum d ∧ sizeSum d < 2 ^ 31 := by
  obtain ⟨t, rfl⟩ := hd
  have hpos := hfits.pos
  have h1 := sizeSum_nonneg fun c h => hpos c (List.mem_append_left _ h)
  have h2 := sizeSum_nonneg fun c h => hpos c (List.mem_append_right _ h)
  have h3 := hfits.size_lt0
  simp only [sizeSum_append] at h3
  omega

end Bounds

/-- Side `s` of the walk over `chunks` has processed an initial segment of
them, and `accum` is its exact sum. -/
def Side.At (chunks : List FeeFrac) (s : Side) : Prop :=
  ∃ done, done ++ s.rest = chunks ∧ s.accum = ⟨feeSum done, sizeSum done⟩

theorem Side.at_start (chunks : List FeeFrac) : (⟨chunks, default, false⟩ : Side).At chunks :=
  ⟨[], rfl, rfl⟩

section SideAt

variable {chunks other : List FeeFrac} (hfits : Fits chunks other) {s : Side} (hs : s.At chunks)
include hfits hs

theorem Side.At.size_bound : 0 ≤ s.accum.size ∧ s.accum.size < 2 ^ 31 := by
  obtain ⟨done, hdone, hacc⟩ := hs
  rw [hacc]
  exact hfits.size_bound ⟨s.rest, hdone⟩

/-- The next point, and `advance`, are exact. -/
theorem Side.At.next {c : FeeFrac} {rest : List FeeFrac} (hrest : s.rest = c :: rest) :
    s.nextPoint = ⟨s.accum.fee + c.fee, s.accum.size + c.size⟩ ∧
      s.advance = { s with rest := rest, accum := ⟨s.accum.fee + c.fee, s.accum.size + c.size⟩ } ∧
      s.advance.At chunks := by
  obtain ⟨done, hdone, hacc⟩ := hs
  -- `done ++ [c]` is an initial segment too, so its sums fit
  have hpre : done ++ [c] <+: chunks := ⟨rest, by rw [← hdone, hrest]; simp⟩
  have hfee := hfits.fee_bound hpre
  have hsize := hfits.size_bound hpre
  simp only [feeSum_append, sizeSum_append, feeSum_cons, sizeSum_cons, feeSum_nil,
    sizeSum_nil, add_zero] at hfee hsize
  have hfee0 : s.accum.fee = feeSum done := by rw [hacc]
  have hsize0 : s.accum.size = sizeSum done := by rw [hacc]
  have hf : wrapInt 64 (s.accum.fee + c.fee) = s.accum.fee + c.fee :=
    wrapInt_64 (by omega) (by omega)
  have hs' : wrapInt 32 (s.accum.size + c.size) = s.accum.size + c.size :=
    wrapInt_32 (by omega) (by omega)
  have hadv : s.advance = { s with rest := rest, accum := ⟨s.accum.fee + c.fee, s.accum.size + c.size⟩ } := by
    simp only [Side.advance, hrest, FeeFrac.add_def, hf, hs']
  refine ⟨?_, hadv, ?_⟩
  · simp only [Side.nextPoint, hrest, List.headD_cons, FeeFrac.add_def]
    rw [Int.add_comm c.fee, Int.add_comm c.size, hf, hs']
  · rw [hadv]
    exact ⟨done ++ [c], by rw [← hdone, hrest]; simp, by rw [hacc]; simp⟩

/-- From `accum` on, the diagram is the diagram of the rest. -/
theorem Side.At.diagram_eq {x : ℝ} (hx : (s.accum.size : ℝ) ≤ x) :
    diagram chunks x = diagramFrom s.accum.fee s.accum.size s.rest x := by
  obtain ⟨done, hdone, hacc⟩ := hs
  rw [hacc] at hx ⊢
  rw [diagram, ← hdone, diagramFrom_append (hdone ▸ hfits.pos) 0 0 x (by simpa using hx)]
  simp

/-- On the segment to its next point, the diagram of a side is that segment. -/
theorem Side.At.diagram_segment {c : FeeFrac} {rest : List FeeFrac} (hrest : s.rest = c :: rest)
    {x : ℝ} (h1 : (s.accum.size : ℝ) ≤ x) (h2 : x ≤ s.accum.size + c.size) :
    diagram chunks x = s.accum.fee + (x - s.accum.size) * (c.fee / c.size) := by
  rw [hs.diagram_eq hfits h1, hrest, diagramFrom, if_pos h2]

/-- Past its last point, the diagram of a side is horizontal. -/
theorem Side.At.diagram_done (hrest : s.rest = []) {x : ℝ} (h1 : (s.accum.size : ℝ) ≤ x) :
    diagram chunks x = s.accum.fee := by
  rw [hs.diagram_eq hfits h1, hrest, diagramFrom]

/-- Up to its next point, the diagram of a side is affine. -/
theorem Side.At.affine {X X' : ℝ} (hX : (s.accum.size : ℝ) ≤ X)
    (hX' : ∀ c ∈ s.rest.head?, X' ≤ s.accum.size + c.size) :
    ∃ slope, ∀ x ∈ Set.Icc X X', diagram chunks x = diagram chunks X + (x - X) * slope := by
  cases hrest : s.rest with
  | nil =>
    refine ⟨0, fun x hx => ?_⟩
    rw [hs.diagram_done hfits hrest (hX.trans hx.1), hs.diagram_done hfits hrest hX]
    ring
  | cons c rest =>
    have hend : X' ≤ s.accum.size + c.size := hX' c (by simp [hrest])
    refine ⟨c.fee / c.size, fun x hx => ?_⟩
    rw [hs.diagram_segment hfits hrest (hX.trans hx.1) (hx.2.trans hend),
      hs.diagram_segment hfits hrest hX (hx.1.trans (hx.2.trans hend))]
    ring

end SideAt

/-! ## One comparison -/

section Compare

variable {cp co : List FeeFrac} (hfits : Fits cp co) {p o : Side} (hp : p.At cp) (ho : o.At co)
  {c : FeeFrac} {r : List FeeFrac} (hrest : p.rest = c :: r)
  (hfirst : ∀ c' ∈ o.rest.head?, p.accum.size + c.size ≤ o.accum.size + c'.size)
  (hbehind : o.accum.size < p.accum.size + c.size)
include hfits hp ho hrest hfirst hbehind

omit hfirst in
/-- `P - A` is exact. -/
theorem slope_ap_eq : p.nextPoint - o.accum =
    ⟨p.accum.fee + c.fee - o.accum.fee, p.accum.size + c.size - o.accum.size⟩ := by
  have hP := (hp.next hfits hrest).1
  obtain ⟨dp, hdp, hpacc⟩ := hp
  obtain ⟨d, hd, hoacc⟩ := ho
  have hpre : dp ++ [c] <+: cp := ⟨r, by rw [← hdp, hrest]; simp⟩
  have hcross := hfits.cross hpre ⟨o.rest, hd⟩
  have hsp := hfits.size_bound hpre
  have hso := hfits.symm.size_bound ⟨o.rest, hd⟩
  have hpf : p.accum.fee = feeSum dp := by rw [hpacc]
  have hps : p.accum.size = sizeSum dp := by rw [hpacc]
  have hof : o.accum.fee = feeSum d := by rw [hoacc]
  have hos : o.accum.size = sizeSum d := by rw [hoacc]
  simp only [feeSum_append, sizeSum_append, feeSum_cons, sizeSum_cons, feeSum_nil,
    sizeSum_nil, add_zero] at hcross hsp
  rw [hP, FeeFrac.sub_def]
  dsimp only
  rw [wrapInt_64 (by omega) (by omega), wrapInt_32 (by omega) (by omega)]

/-- The comparison finds on which side the other diagram is at `P`. -/
theorem compareSlope_cmp :
    ((compareSlope p o).1 = .gt ↔
        diagram co (p.accum.size + c.size) < diagram cp (p.accum.size + c.size)) ∧
      ((compareSlope p o).1 = .lt ↔
        diagram cp (p.accum.size + c.size) < diagram co (p.accum.size + c.size)) := by
  have hc : 0 < c.size := hfits.pos c (by obtain ⟨dp, hdp, -⟩ := hp; rw [← hdp, hrest]; simp)
  have hc' : (0 : ℝ) < c.size := by exact_mod_cast hc
  have hpP : diagram cp (p.accum.size + c.size) = p.accum.fee + c.fee := by
    rw [hp.diagram_segment hfits hrest (by linarith) le_rfl]
    field_simp
    ring
  have hAP := slope_ap_eq hfits hp ho hrest hbehind
  have hoP : (o.accum.size : ℝ) ≤ p.accum.size + c.size := by exact_mod_cast hbehind.le
  unfold compareSlope
  cases hor : o.rest with
  | nil =>
    -- `o` is done: compare `P` with the horizontal line through `A`
    dsimp only
    rw [ho.diagram_done hfits.symm hor hoP, hpP, ← Int.cast_add, Int.cast_lt, Int.cast_lt]
    simp only [hAP, compareByRatio, mul_one, zero_mul, compare_gt_iff_gt, compare_lt_iff_lt]
    constructor <;> constructor <;> intro h <;> omega
  | cons co_c ro =>
    -- compare the slope from `A` to `P` with the slope of the segment from `A` to `B`
    dsimp only
    have hB := (ho.next hfits.symm hor).1
    obtain ⟨d, hd, hoacc⟩ := ho
    have hpre : d ++ [co_c] <+: co := ⟨ro, by rw [← hd, hor]; simp⟩
    have h1 := hfits.symm.self_spread hpre ⟨o.rest, hd⟩
    have h2 := hfits.symm.self_spread ⟨o.rest, hd⟩ hpre
    have hsize := hfits.symm.size_bound hpre
    have hsize0 := hfits.symm.size_bound ⟨o.rest, hd⟩
    have hco : 0 < co_c.size := hfits.symm.pos co_c (by rw [← hd, hor]; simp)
    have hco' : (0 : ℝ) < co_c.size := by exact_mod_cast hco
    have hof : o.accum.fee = feeSum d := by rw [hoacc]
    have hos : o.accum.size = sizeSum d := by rw [hoacc]
    simp only [feeSum_append, sizeSum_append, feeSum_cons, sizeSum_cons, feeSum_nil,
      sizeSum_nil, add_zero] at h1 h2 hsize
    have hAB : o.nextPoint - o.accum = co_c := by
      rw [hB, FeeFrac.sub_def]
      dsimp only
      rw [wrapInt_64 (by omega) (by omega), wrapInt_32 (by omega) (by omega)]
      simp
    have hoPval := Side.At.diagram_segment hfits.symm ⟨d, hd, hoacc⟩ hor hoP
      (by exact_mod_cast hfirst co_c (by simp [hor]))
    rw [hoPval, hpP]
    simp only [hAP, hAB, compareByRatio, compare_gt_iff_gt, compare_lt_iff_lt]
    -- `P` is `A` plus `(P.size - A.size, P.fee - A.fee)`
    have hu : (p.accum.fee : ℝ) + c.fee =
        o.accum.fee + ((p.accum.fee + c.fee - o.accum.fee : Int) : ℝ) := by push_cast; ring
    have hv : ((p.accum.size : ℝ) + c.size - o.accum.size) =
        ((p.accum.size + c.size - o.accum.size : Int) : ℝ) := by push_cast; ring
    rw [hu, hv, segment_lt_iff hco', lt_segment_iff hco']
    exact ⟨by norm_cast, by norm_cast⟩

/-- After the comparison, the other side is still at its input, with its flag,
at most at `P`, and with its next point past `P`. -/
theorem compareSlope_side :
    (compareSlope p o).2.At co ∧ (compareSlope p o).2.better = o.better ∧
      (compareSlope p o).2.accum.size ≤ p.accum.size + c.size ∧
      (∀ c' ∈ (compareSlope p o).2.rest.head?,
        p.accum.size + c.size < (compareSlope p o).2.accum.size + c'.size) ∧
      (compareSlope p o).2.rest.length ≤ o.rest.length := by
  have hP := (hp.next hfits hrest).1
  unfold compareSlope
  cases hor : o.rest with
  | nil => exact ⟨ho, rfl, hbehind.le, by simp [hor], by simp [hor]⟩
  | cons co_c ro =>
    dsimp only
    obtain ⟨hB, hadv, hat⟩ := ho.next hfits.symm hor
    have hend := hfirst co_c (by simp [hor])
    obtain ⟨d, hd, -⟩ := id ho
    split
    · next hsame =>
      -- `B` has the size of `P`: it is processed too
      rw [hB, hP] at hsame
      simp only at hsame
      refine ⟨hat, by rw [hadv], by rw [hadv]; dsimp only; omega, fun c' hc' => ?_,
        by simp [hadv]⟩
      rw [hadv] at hc' ⊢
      dsimp only at hc'
      have : 0 < c'.size := hfits.symm.pos c' (by
        rw [← hd, hor]
        exact List.mem_append_right _ (List.mem_cons_of_mem _ (List.mem_of_mem_head? hc')))
      dsimp only
      omega
    · next hdiff =>
      rw [hB, hP] at hdiff
      simp only at hdiff
      refine ⟨ho, rfl, hbehind.le, fun c' hc' => ?_, by simp [hor]⟩
      simp only [hor, List.head?_cons, Option.mem_def, Option.some.injEq] at hc'
      subst hc'
      omega

end Compare

theorem Side.advance_better (s : Side) (b : Bool) :
    ({ s with better := b } : Side).advance = { s.advance with better := b } := by
  rcases s with ⟨_ | ⟨c, rest⟩, accum, better⟩ <;> rfl

@[simp] theorem Side.better_advance (s : Side) : s.advance.better = s.better := by
  rcases s with ⟨_ | ⟨c, rest⟩, accum, better⟩ <;> rfl

/-- A comparison sets the flag of the side above the other diagram at `P`. -/
theorem compareAt_eq (p o : Side) : compareAt p o =
    ({ p.advance with better := p.better || (compareSlope p o).1 == .gt },
      { (compareSlope p o).2 with
        better := (compareSlope p o).2.better || (compareSlope p o).1 == .lt }) := by
  unfold compareAt
  dsimp only
  have h := Side.better_advance p
  cases (compareSlope p o).1 <;> simp [Side.advance_better]
  -- where the flag of `p` stays, `p.advance` is left up to its flag
  all_goals rw [← h]

/-! ## The order of the diagrams -/

/-- The diagram of `chunks0` is above the diagram of `chunks1` somewhere. -/
def Above (chunks0 chunks1 : List FeeFrac) : Prop :=
  ∃ x : ℝ, 0 ≤ x ∧ diagram chunks1 x < diagram chunks0 x

open Classical in
/-- The pointwise order of the diagrams on sizes from 0 on. -/
noncomputable def diagramOrder (chunks0 chunks1 : List FeeFrac) : PartialOrdering :=
  if Above chunks0 chunks1 ∧ Above chunks1 chunks0 then .unordered
  else if Above chunks0 chunks1 then .greater
  else if Above chunks1 chunks0 then .less
  else .equivalent

theorem diagramOrder_of_above {chunks0 chunks1 : List FeeFrac} (h0 : Above chunks0 chunks1)
    (h1 : Above chunks1 chunks0) : diagramOrder chunks0 chunks1 = .unordered := by
  simp [diagramOrder, h0, h1]

/-- Where at most one diagram is above the other somewhere, the order is the
comparison of the two flags that say so. -/
theorem diagramOrder_of_flags {chunks0 chunks1 : List FeeFrac} {b0 b1 : Bool}
    (h0 : b0 = true ↔ Above chunks0 chunks1) (h1 : b1 = true ↔ Above chunks1 chunks0)
    (hnot : ¬(b0 = true ∧ b1 = true)) :
    diagramOrder chunks0 chunks1 = .ofOrdering (compare b0 b1) := by
  cases b0 <;> cases b1 <;> simp_all [diagramOrder] <;> rfl

/-! ## The walk -/

/-- The larger size of the two processed points. -/
def frontier (s0 s1 : Side) : Int := max s0.accum.size s1.accum.size

theorem frontier_comm (s0 s1 : Side) : frontier s1 s0 = frontier s0 s1 := max_comm _ _

/-- What the walk knows: each side is at its input with its next point past
the frontier, and each flag says whether its diagram is above the other one
somewhere up to the frontier. -/
structure WalkInv (chunks0 chunks1 : List FeeFrac) (s0 s1 : Side) : Prop where
  at0 : s0.At chunks0
  at1 : s1.At chunks1
  ahead0 : ∀ c ∈ s0.rest.head?, frontier s0 s1 < s0.accum.size + c.size
  ahead1 : ∀ c ∈ s1.rest.head?, frontier s0 s1 < s1.accum.size + c.size
  better0 : s0.better = true ↔
    ∃ x ∈ Set.Icc (0 : ℝ) (frontier s0 s1), diagram chunks1 x < diagram chunks0 x
  better1 : s1.better = true ↔
    ∃ x ∈ Set.Icc (0 : ℝ) (frontier s0 s1), diagram chunks0 x < diagram chunks1 x

theorem WalkInv.symm {chunks0 chunks1 : List FeeFrac} {s0 s1 : Side}
    (h : WalkInv chunks0 chunks1 s0 s1) : WalkInv chunks1 chunks0 s1 s0 where
  at0 := h.at1
  at1 := h.at0
  ahead0 := by rw [frontier_comm]; exact h.ahead1
  ahead1 := by rw [frontier_comm]; exact h.ahead0
  better0 := by rw [frontier_comm]; exact h.better1
  better1 := by rw [frontier_comm]; exact h.better0

/-- A set flag is a place where its diagram is above the other. -/
theorem WalkInv.above {s0 s1 : Side} (hinv : WalkInv chunks0 chunks1 s0 s1) :
    (s0.better = true → Above chunks0 chunks1) ∧ (s1.better = true → Above chunks1 chunks0) := by
  constructor
  · intro h
    obtain ⟨x, hx, hlt⟩ := Iff.mp hinv.better0 h
    exact ⟨x, hx.1, hlt⟩
  · intro h
    obtain ⟨x, hx, hlt⟩ := Iff.mp hinv.better1 h
    exact ⟨x, hx.1, hlt⟩

section Walk

variable {chunks0 chunks1 : List FeeFrac} (hfits : Fits chunks0 chunks1)
include hfits

theorem walkInv_start :
    WalkInv chunks0 chunks1 ⟨chunks0, default, false⟩ ⟨chunks1, default, false⟩ := by
  have hfront : frontier ⟨chunks0, default, false⟩ ⟨chunks1, default, false⟩ = 0 := rfl
  -- both diagrams start at 0, so neither is above the other up to 0
  have hzero0 : diagram chunks0 0 = 0 := diagramFrom_start hfits.pos 0 0
  have hzero1 : diagram chunks1 0 = 0 := diagramFrom_start hfits.symm.pos 0 0
  have hnone : ∀ {f g : ℝ → ℝ}, f 0 = 0 → g 0 = 0 → ¬∃ x ∈ Set.Icc (0 : ℝ) 0, g x < f x := by
    rintro f g hf hg ⟨x, ⟨h1, h2⟩, hlt⟩
    obtain rfl : x = 0 := le_antisymm h2 h1
    rw [hf, hg] at hlt
    exact lt_irrefl _ hlt
  refine ⟨Side.at_start chunks0, Side.at_start chunks1, fun c hc => ?_, fun c hc => ?_, ?_, ?_⟩
  · have := hfits.pos c (List.mem_of_mem_head? hc)
    rw [hfront]
    show (0 : Int) < 0 + c.size
    omega
  · have := hfits.symm.pos c (List.mem_of_mem_head? hc)
    rw [hfront]
    show (0 : Int) < 0 + c.size
    omega
  · rw [hfront, Int.cast_zero]
    simpa using hnone hzero0 hzero1
  · rw [hfront, Int.cast_zero]
    simpa using hnone hzero1 hzero0

/-- Processing the first unprocessed point, of side 0, keeps the invariant and
shortens what is left. -/
theorem compareAt_walkInv {s0 s1 : Side} (hinv : WalkInv chunks0 chunks1 s0 s1) {c : FeeFrac}
    {r : List FeeFrac} (hrest : s0.rest = c :: r)
    (hfirst : ∀ c' ∈ s1.rest.head?, s0.accum.size + c.size ≤ s1.accum.size + c'.size) :
    WalkInv chunks0 chunks1 (compareAt s0 s1).1 (compareAt s0 s1).2 ∧
      (compareAt s0 s1).1.rest.length + (compareAt s0 s1).2.rest.length <
        s0.rest.length + s1.rest.length := by
  have hF0 : s0.accum.size ≤ frontier s0 s1 := le_max_left _ _
  have hF1 : s1.accum.size ≤ frontier s0 s1 := le_max_right _ _
  have hahead : frontier s0 s1 < s0.accum.size + c.size := hinv.ahead0 c (by simp [hrest])
  have hbehind : s1.accum.size < s0.accum.size + c.size := lt_of_le_of_lt hF1 hahead
  obtain ⟨-, hadv, -⟩ := hinv.at0.next hfits hrest
  obtain ⟨hat1, hbetter1, hle, hahead1, hlen⟩ :=
    compareSlope_side hfits hinv.at0 hinv.at1 hrest hfirst hbehind
  obtain ⟨hgt, hlt⟩ := compareSlope_cmp hfits hinv.at0 hinv.at1 hrest hfirst hbehind
  -- both diagrams are affine from the frontier to `P`
  have hX0 : (s0.accum.size : ℝ) ≤ frontier s0 s1 := by exact_mod_cast hF0
  have hX1 : (s1.accum.size : ℝ) ≤ frontier s0 s1 := by exact_mod_cast hF1
  have hend0 : ∀ c' ∈ s0.rest.head?, (s0.accum.size : ℝ) + c.size ≤ s0.accum.size + c'.size := by
    simp [hrest]
  have hend1 : ∀ c' ∈ s1.rest.head?, (s0.accum.size : ℝ) + c.size ≤ s1.accum.size + c'.size :=
    fun c' hc' => by exact_mod_cast hfirst c' hc'
  obtain ⟨sf, hf⟩ := hinv.at0.affine hfits hX0 hend0
  obtain ⟨sg, hg⟩ := hinv.at1.affine hfits.symm hX1 hend1
  have hzero : (0 : ℝ) ≤ frontier s0 s1 := by
    exact_mod_cast (hinv.at0.size_bound hfits).1.trans hF0
  have hFP : (frontier s0 s1 : ℝ) ≤ s0.accum.size + c.size := by exact_mod_cast hahead.le
  have hext0 := exists_lt_Icc_extend hzero hFP hf hg
  have hext1 := exists_lt_Icc_extend hzero hFP hg hf
  -- after the comparison, the frontier is `P`
  have hfront : frontier (compareAt s0 s1).1 (compareAt s0 s1).2 = s0.accum.size + c.size := by
    rw [compareAt_eq, hadv]
    exact max_eq_left hle
  have hpos : ∀ c' ∈ r.head?, 0 < c'.size := fun c' hc' =>
    hfits.pos c' (by
      obtain ⟨d, hd, -⟩ := hinv.at0
      rw [← hd, hrest]
      exact List.mem_append_right _ (List.mem_cons_of_mem _ (List.mem_of_mem_head? hc')))
  refine ⟨⟨?_, ?_, ?_, ?_, ?_, ?_⟩, ?_⟩
  · rw [compareAt_eq]
    exact (hinv.at0.next hfits hrest).2.2
  · rw [compareAt_eq]
    exact hat1
  · rw [hfront, compareAt_eq, hadv]
    intro c' hc'
    have := hpos c' hc'
    dsimp only at hc' ⊢
    omega
  · rw [hfront, compareAt_eq]
    exact hahead1
  · rw [hfront, compareAt_eq, hadv]
    simp only [Bool.or_eq_true, beq_iff_eq, Int.cast_add]
    rw [hinv.better0, hgt, hext0]
  · rw [hfront, compareAt_eq]
    simp only [Bool.or_eq_true, beq_iff_eq, Int.cast_add, hbetter1]
    rw [hinv.better1, hlt, hext1]
  · rw [compareAt_eq, hadv, hrest]
    dsimp only
    simp only [List.length_cons]
    omega

/-- When both sides are done, both diagrams are flat past the frontier, so the
flags say where the diagrams are above each other anywhere. -/
theorem walkInv_done {s0 s1 : Side} (hinv : WalkInv chunks0 chunks1 s0 s1) (h0 : s0.rest = [])
    (h1 : s1.rest = []) :
    (s0.better = true ↔ Above chunks0 chunks1) ∧ (s1.better = true ↔ Above chunks1 chunks0) := by
  have hF0 : (s0.accum.size : ℝ) ≤ frontier s0 s1 := by exact_mod_cast le_max_left _ _
  have hF1 : (s1.accum.size : ℝ) ≤ frontier s0 s1 := by exact_mod_cast le_max_right _ _
  have hzero : (0 : ℝ) ≤ frontier s0 s1 := by
    exact_mod_cast (hinv.at0.size_bound hfits).1.trans (le_max_left _ _)
  have hflat0 : ∀ x, (frontier s0 s1 : ℝ) ≤ x →
      diagram chunks0 x = diagram chunks0 (frontier s0 s1) := fun x hx => by
    rw [hinv.at0.diagram_done hfits h0 (hF0.trans hx), hinv.at0.diagram_done hfits h0 hF0]
  have hflat1 : ∀ x, (frontier s0 s1 : ℝ) ≤ x →
      diagram chunks1 x = diagram chunks1 (frontier s0 s1) := fun x hx => by
    rw [hinv.at1.diagram_done hfits.symm h1 (hF1.trans hx),
      hinv.at1.diagram_done hfits.symm h1 hF1]
  exact ⟨hinv.better0.trans (exists_lt_Icc_iff_of_const hzero hflat0 hflat1),
    hinv.better1.trans (exists_lt_Icc_iff_of_const hzero hflat1 hflat0)⟩

/-- The loop, from any state of the walk with at most one flag set and enough
fuel, ends with the order of the diagrams. -/
theorem compareLoop_walk (fuel : Nat) {s0 s1 : Side} (hinv : WalkInv chunks0 chunks1 s0 s1)
    (hfuel : s0.rest.length + s1.rest.length ≤ fuel)
    (hnot : ¬(s0.better = true ∧ s1.better = true)) :
    compareLoop fuel s0 s1 = diagramOrder chunks0 chunks1 := by
  induction fuel generalizing s0 s1 with
  | zero =>
    have h0 : s0.rest = [] := List.eq_nil_of_length_eq_zero (by omega)
    have h1 : s1.rest = [] := List.eq_nil_of_length_eq_zero (by omega)
    obtain ⟨hb0, hb1⟩ := walkInv_done hfits hinv h0 h1
    exact (diagramOrder_of_flags hb0 hb1 hnot).symm
  | succ fuel ih =>
    -- after a step that keeps the invariant, the loop stops or goes on
    have hnext : ∀ t0 t1 : Side, WalkInv chunks0 chunks1 t0 t1 →
        t0.rest.length + t1.rest.length < s0.rest.length + s1.rest.length →
        (if (t0.better && t1.better) = true then PartialOrdering.unordered
          else compareLoop fuel t0 t1) = diagramOrder chunks0 chunks1 := by
      intro t0 t1 ht hlt
      split
      · next hboth =>
        rw [Bool.and_eq_true] at hboth
        exact (diagramOrder_of_above (ht.above.1 hboth.1)
          (ht.above.2 hboth.2)).symm
      · next hnot' =>
        exact ih ht (by omega) (by simpa using hnot')
    rw [compareLoop]
    dsimp only
    cases h0 : s0.rest with
    | nil =>
      cases h1 : s1.rest with
      | nil =>
        -- both done
        obtain ⟨hb0, hb1⟩ := walkInv_done hfits hinv h0 h1
        simp only [List.isEmpty_nil, Bool.and_self, if_true]
        exact (diagramOrder_of_flags hb0 hb1 hnot).symm
      | cons c r =>
        -- only side 1 has points left
        obtain ⟨ht, hlt⟩ := compareAt_walkInv hfits.symm hinv.symm h1 (by simp [h0])
        simp only [List.isEmpty_nil, List.isEmpty_cons, Bool.true_and, Bool.true_or,
          Bool.false_eq_true, if_false, if_true, Prod.fst_swap, Prod.snd_swap]
        exact hnext _ _ ht.symm (by omega)
    | cons c r =>
      cases h1 : s1.rest with
      | nil =>
        -- only side 0 has points left
        obtain ⟨ht, hlt⟩ := compareAt_walkInv hfits hinv h0 (by simp [h1])
        simp only [List.isEmpty_nil, List.isEmpty_cons, Bool.false_and, Bool.or_true,
          Bool.false_eq_true, if_false, if_true]
        exact hnext _ _ ht hlt
      | cons c' r' =>
        -- the point of smaller size goes first, side 0 on a tie
        have hP0 := (hinv.at0.next hfits h0).1
        have hP1 := (hinv.at1.next hfits.symm h1).1
        simp only [List.isEmpty_cons, Bool.false_and, Bool.or_self, Bool.false_eq_true,
          if_false]
        by_cases hgt : s0.nextPoint.size > s1.nextPoint.size
        · rw [hP0, hP1] at hgt
          dsimp only at hgt
          obtain ⟨ht, hlt⟩ := compareAt_walkInv hfits.symm hinv.symm h1
            (fun c'' hc'' => by simp [h0] at hc''; subst hc''; omega)
          simp only [hP0, hP1, hgt, decide_true, if_true, Prod.fst_swap, Prod.snd_swap]
          exact hnext _ _ ht.symm (by omega)
        · rw [hP0, hP1] at hgt
          dsimp only at hgt
          obtain ⟨ht, hlt⟩ := compareAt_walkInv hfits hinv h0
            (fun c'' hc'' => by simp [h1] at hc''; subst hc''; omega)
          simp only [hP0, hP1, hgt, decide_false, Bool.false_eq_true, if_false]
          exact hnext _ _ ht hlt

/-- `CompareChunks` computes the order of the diagrams. -/
theorem CompareChunks_eq_diagramOrder :
    CompareChunks chunks0 chunks1 = diagramOrder chunks0 chunks1 :=
  compareLoop_walk hfits _ (walkInv_start hfits) le_rfl (by simp)

end Walk

theorem not_above_iff {chunks0 chunks1 : List FeeFrac} :
    ¬Above chunks0 chunks1 ↔ ∀ x : ℝ, 0 ≤ x → diagram chunks0 x ≤ diagram chunks1 x := by
  simp [Above]

theorem diagramOrder_swap (chunks0 chunks1 : List FeeFrac) :
    diagramOrder chunks1 chunks0 = (diagramOrder chunks0 chunks1).reverse := by
  by_cases h0 : Above chunks0 chunks1 <;> by_cases h1 : Above chunks1 chunks0 <;>
    simp [diagramOrder, h0, h1, PartialOrdering.reverse]

/-- Each value of the order, by where each diagram is above the other. -/
theorem diagramOrder_cases (chunks0 chunks1 : List FeeFrac) :
    (diagramOrder chunks0 chunks1 = .greater ↔
      Above chunks0 chunks1 ∧ ¬Above chunks1 chunks0) ∧
    (diagramOrder chunks0 chunks1 = .less ↔ ¬Above chunks0 chunks1 ∧ Above chunks1 chunks0) ∧
    (diagramOrder chunks0 chunks1 = .equivalent ↔
      ¬Above chunks0 chunks1 ∧ ¬Above chunks1 chunks0) ∧
    (diagramOrder chunks0 chunks1 = .unordered ↔ Above chunks0 chunks1 ∧ Above chunks1 chunks0) := by
  by_cases h0 : Above chunks0 chunks1 <;> by_cases h1 : Above chunks1 chunks0 <;>
    simp [diagramOrder, h0, h1]

theorem CompareChunks_diagrams (chunks0 chunks1 : List FeeFrac) (hfits : Fits chunks0 chunks1) :
    (CompareChunks chunks0 chunks1 = .greater ↔
      (∀ x : ℝ, 0 ≤ x → diagram chunks1 x ≤ diagram chunks0 x) ∧
        ∃ x : ℝ, 0 ≤ x ∧ diagram chunks1 x < diagram chunks0 x) ∧
    (CompareChunks chunks0 chunks1 = .less ↔
      (∀ x : ℝ, 0 ≤ x → diagram chunks0 x ≤ diagram chunks1 x) ∧
        ∃ x : ℝ, 0 ≤ x ∧ diagram chunks0 x < diagram chunks1 x) ∧
    (CompareChunks chunks0 chunks1 = .equivalent ↔
      ∀ x : ℝ, 0 ≤ x → diagram chunks0 x = diagram chunks1 x) ∧
    (CompareChunks chunks0 chunks1 = .unordered ↔
      (∃ x : ℝ, 0 ≤ x ∧ diagram chunks1 x < diagram chunks0 x) ∧
        ∃ x : ℝ, 0 ≤ x ∧ diagram chunks0 x < diagram chunks1 x) ∧
    CompareChunks chunks1 chunks0 = (CompareChunks chunks0 chunks1).reverse := by
  -- everywhere equal is nowhere above either way
  have heq : (∀ x : ℝ, 0 ≤ x → diagram chunks0 x = diagram chunks1 x) ↔
      ¬Above chunks0 chunks1 ∧ ¬Above chunks1 chunks0 := by
    rw [not_above_iff, not_above_iff]
    constructor
    · intro h
      exact ⟨fun x hx => (h x hx).le, fun x hx => (h x hx).ge⟩
    · rintro ⟨h0, h1⟩ x hx
      exact le_antisymm (h0 x hx) (h1 x hx)
  obtain ⟨hg, hl, he, hu⟩ := diagramOrder_cases chunks0 chunks1
  rw [CompareChunks_eq_diagramOrder hfits, CompareChunks_eq_diagramOrder hfits.symm,
    diagramOrder_swap chunks0 chunks1, hg, hl, he, hu, heq, ← not_above_iff, ← not_above_iff]
  -- the `∃` sides are `Above` as it is defined
  exact ⟨and_comm, Iff.rfl, Iff.rfl, Iff.rfl, rfl⟩

/-- Two diagrams that cross: the first is above the second at size 1 and below
it at size 2. -/
theorem CompareChunks_diagrams_crossing :
    CompareChunks [⟨3, 1⟩, ⟨0, 1⟩] [⟨2, 1⟩, ⟨2, 1⟩] = .unordered ∧
    Fits [⟨3, 1⟩, ⟨0, 1⟩] [⟨2, 1⟩, ⟨2, 1⟩] ∧
    (CompareChunks [⟨3, 1⟩, ⟨0, 1⟩] [⟨2, 1⟩, ⟨2, 1⟩] = .greater ↔
      (∀ x : ℝ, 0 ≤ x → diagram [⟨2, 1⟩, ⟨2, 1⟩] x ≤ diagram [⟨3, 1⟩, ⟨0, 1⟩] x) ∧
        ∃ x : ℝ, 0 ≤ x ∧ diagram [⟨2, 1⟩, ⟨2, 1⟩] x < diagram [⟨3, 1⟩, ⟨0, 1⟩] x) ∧
    (CompareChunks [⟨3, 1⟩, ⟨0, 1⟩] [⟨2, 1⟩, ⟨2, 1⟩] = .less ↔
      (∀ x : ℝ, 0 ≤ x → diagram [⟨3, 1⟩, ⟨0, 1⟩] x ≤ diagram [⟨2, 1⟩, ⟨2, 1⟩] x) ∧
        ∃ x : ℝ, 0 ≤ x ∧ diagram [⟨3, 1⟩, ⟨0, 1⟩] x < diagram [⟨2, 1⟩, ⟨2, 1⟩] x) ∧
    (CompareChunks [⟨3, 1⟩, ⟨0, 1⟩] [⟨2, 1⟩, ⟨2, 1⟩] = .equivalent ↔
      ∀ x : ℝ, 0 ≤ x → diagram [⟨3, 1⟩, ⟨0, 1⟩] x = diagram [⟨2, 1⟩, ⟨2, 1⟩] x) ∧
    (CompareChunks [⟨3, 1⟩, ⟨0, 1⟩] [⟨2, 1⟩, ⟨2, 1⟩] = .unordered ↔
      (∃ x : ℝ, 0 ≤ x ∧ diagram [⟨2, 1⟩, ⟨2, 1⟩] x < diagram [⟨3, 1⟩, ⟨0, 1⟩] x) ∧
        ∃ x : ℝ, 0 ≤ x ∧ diagram [⟨3, 1⟩, ⟨0, 1⟩] x < diagram [⟨2, 1⟩, ⟨2, 1⟩] x) ∧
    CompareChunks [⟨2, 1⟩, ⟨2, 1⟩] [⟨3, 1⟩, ⟨0, 1⟩] =
      (CompareChunks [⟨3, 1⟩, ⟨0, 1⟩] [⟨2, 1⟩, ⟨2, 1⟩]).reverse := by
  have hfits : Fits [⟨3, 1⟩, ⟨0, 1⟩] [⟨2, 1⟩, ⟨2, 1⟩] := ⟨by decide, by decide, by decide, by decide⟩
  exact ⟨by decide, hfits, CompareChunks_diagrams _ _ hfits⟩

/-- Both inputs are sorted by fee rate, every chunk has a positive size, and
every fee and size sum of an initial segment fits, but `P - A` at the second
point is `-(2^63 + 2^61)`. It wraps to a positive fee, the first diagram is
taken to be above the second at size 2, and the walk returns `unordered`,
although the first diagram is below the second everywhere past 0. -/
theorem CompareChunks_wraps :
    SortedByRate [⟨-2 ^ 61, 1⟩, ⟨-2 ^ 62, 1⟩] ∧ SortedByRate [⟨2 ^ 62, 1⟩, ⟨2 ^ 61, 1⟩] ∧
    (∀ c ∈ [⟨-2 ^ 61, 1⟩, ⟨-2 ^ 62, 1⟩] ++ [⟨2 ^ 62, 1⟩, ⟨2 ^ 61, 1⟩], 0 < FeeFrac.size c) ∧
    (∀ d ∈ List.inits [⟨-2 ^ 61, 1⟩, ⟨-2 ^ 62, 1⟩] ++ List.inits [⟨2 ^ 62, 1⟩, ⟨2 ^ 61, 1⟩],
      -2 ^ 63 ≤ feeSum d ∧ feeSum d < 2 ^ 63 ∧ sizeSum d < 2 ^ 31) ∧
    CompareChunks [⟨-2 ^ 61, 1⟩, ⟨-2 ^ 62, 1⟩] [⟨2 ^ 62, 1⟩, ⟨2 ^ 61, 1⟩] = .unordered ∧
    (∀ x : ℝ, 0 ≤ x →
      diagram [⟨-2 ^ 61, 1⟩, ⟨-2 ^ 62, 1⟩] x ≤ diagram [⟨2 ^ 62, 1⟩, ⟨2 ^ 61, 1⟩] x) ∧
    diagram [⟨-2 ^ 61, 1⟩, ⟨-2 ^ 62, 1⟩] 1 < diagram [⟨2 ^ 62, 1⟩, ⟨2 ^ 61, 1⟩] 1 := by
  refine ⟨by decide, by decide, by decide, by decide, by decide, fun x hx => ?_, ?_⟩
  · -- the first diagram falls from 0 and the second rises from 0
    exact (diagramFrom_le_start (by decide) (by decide) 0 0 hx).trans
      (start_le_diagramFrom (by decide) (by decide) 0 0 hx)
  · -- at the first point the diagrams are the chunks' fees
    simp only [diagram, diagramFrom]
    norm_num

end Namecoin.Util
