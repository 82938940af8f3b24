import Namecoin.Consensus.Pow
import Namecoin.Lib.ExceptM

/-! # Difficulty retargeting (pow.cpp)

Every `DifficultyAdjustmentInterval ()` blocks the target moves: the target
of the last block, scaled by the time the period took (clamped to between a
quarter and four times `nPowTargetTimespan`) over `nPowTargetTimespan`, and
capped at `powLimit`. After `nAuxpowStartHeight` Namecoin measures the period
from one block further back. `PermittedDifficultyTransition` checks a new
`nBits` against the rounded targets of the shortest and the longest period.

The products are taken in 256 bits. When `powLimit` times four timespans
fits, nothing wraps, the retarget is the exact computation, and it passes the
check (`GetNextWorkRequired_permitted`): the scaling and `compactRound` are
both monotone. The chains that retarget without the min-difficulty rule, main
and signet, meet that bound (`GetNextWorkRequired_permitted_chains`); regtest
sets `fPowNoRetargeting`, and the test networks allow min-difficulty blocks. -/

namespace Namecoin.Consensus.Pow

/-- The fields of `Consensus::Params` that `pow.cpp` reads. -/
structure Params where
  /-- `UintToArith256 (powLimit)` -/
  powLimit : Nat
  fPowAllowMinDifficultyBlocks : Bool
  nMinDifficultySince : Int
  enforce_BIP94 : Bool
  fPowNoRetargeting : Bool
  nPowTargetSpacing : Int
  nPowTargetTimespan : Int
  nAuxpowStartHeight : Int
  powLimit_lt : powLimit < 2 ^ 256

namespace Params

def DifficultyAdjustmentInterval (params : Params) : Int :=
  params.nPowTargetTimespan.tdiv params.nPowTargetSpacing

def AllowMinDifficultyBlocks (params : Params) (nBlockTime : Int) : Bool :=
  params.fPowAllowMinDifficultyBlocks && decide (nBlockTime > params.nMinDifficultySince)

end Params

/-- The fields of a `CBlockIndex` that `pow.cpp` reads; its height is its
place in an `IndexChain`. -/
structure CBlockIndex where
  nTime : UInt32
  nBits : UInt32

def CBlockIndex.GetBlockTime (b : CBlockIndex) : Int := b.nTime.toNat

/-- `pindexLast` with its ancestors: `blocks[h]` is the one at height `h`, and
`pindexLast` is the last. -/
structure IndexChain where
  blocks : List CBlockIndex
  ne_nil : blocks ≠ []

namespace IndexChain

def last (c : IndexChain) : CBlockIndex := c.blocks.getLast c.ne_nil

def nHeight (c : IndexChain) : Int := c.blocks.length - 1

/-- `pindexLast->GetAncestor (height)`. -/
def GetAncestor (c : IndexChain) (height : Int) : Option CBlockIndex :=
  if height < 0 then none else c.blocks[height.toNat]?

end IndexChain

/-- The `while` loop of the min-difficulty rule: from `pindex` at `height`
back along `pprev`, past the blocks at the minimum difficulty that do not
start a period. `ancestors` is `pindex->pprev`, its `pprev`, and so on. -/
def lastNonMinDifficultyBits (interval : Int) (nProofOfWorkLimit : UInt32) :
    Int → CBlockIndex → List CBlockIndex → UInt32
  | _, pindex, [] => pindex.nBits
  | height, pindex, pprev :: ancestors =>
    if height.tmod interval ≠ 0 ∧ pindex.nBits = nProofOfWorkLimit then
      lastNonMinDifficultyBits interval nProofOfWorkLimit (height - 1) pprev ancestors
    else pindex.nBits

/-- `bn *= timespan; bn /= params.nPowTargetTimespan;` and the cap at
`powLimit`. The `int64_t` multiplier goes to `operator*= (uint32_t)`, the
divisor through the `uint64_t` constructor. -/
def scaleTarget (params : Params) (bn : Nat) (timespan : Int) : Except PowError Nat :=
  let bn := bn * (timespan % 2 ^ 32).toNat % 2 ^ 256
  let divisor := (params.nPowTargetTimespan % 2 ^ 64).toNat
  if divisor = 0 then .error .divisionByZero
  else .ok (if bn / divisor > params.powLimit then params.powLimit else bn / divisor)

/-- "Limit adjustment step". -/
def limitTimespan (params : Params) (nActualTimespan : Int) : Int :=
  let nActualTimespan := if nActualTimespan < params.nPowTargetTimespan.tdiv 4
    then params.nPowTargetTimespan.tdiv 4 else nActualTimespan
  if nActualTimespan > params.nPowTargetTimespan * 4 then params.nPowTargetTimespan * 4
  else nActualTimespan

def CalculateNextWorkRequired (params : Params) (c : IndexChain) (nFirstBlockTime : Int) :
    Except PowError UInt32 :=
  if params.fPowNoRetargeting then .ok c.last.nBits
  else
    let nActualTimespan := limitTimespan params (c.last.GetBlockTime - nFirstBlockTime)
    -- BIP94 keeps the target of the first block of the period
    let nBits : Except PowError UInt32 :=
      if params.enforce_BIP94 then
        match c.GetAncestor (c.nHeight - (params.DifficultyAdjustmentInterval - 1)) with
        | some pindexFirst => .ok pindexFirst.nBits
        | none => .error .nullDereference
      else .ok c.last.nBits
    nBits >>= fun nBits =>
    scaleTarget params (SetCompact nBits).1 nActualTimespan >>= GetCompact

/-- `GetNextWorkRequired (pindexLast, pblock, params)`, where `nBlockTime` is
`pblock->GetBlockTime ()`. -/
def GetNextWorkRequired (params : Params) (c : IndexChain) (nBlockTime : Int) :
    Except PowError UInt32 :=
  GetCompact params.powLimit >>= fun nProofOfWorkLimit =>
  let interval := params.DifficultyAdjustmentInterval
  if (c.nHeight + 1).tmod interval ≠ 0 then
    .ok <| if params.AllowMinDifficultyBlocks nBlockTime then
      -- the unsigned comparison of the old namecoind: an earlier block also gets the minimum
      if nBlockTime < c.last.GetBlockTime then nProofOfWorkLimit
      else if nBlockTime > c.last.GetBlockTime + params.nPowTargetSpacing * 2 then
        nProofOfWorkLimit
      else
        lastNonMinDifficultyBits interval nProofOfWorkLimit c.nHeight c.last
          c.blocks.dropLast.reverse
    else c.last.nBits
  else
    -- after the start of merge mining the period is measured from one block further back
    let nBlocksBack :=
      if c.nHeight ≥ params.nAuxpowStartHeight ∧ c.nHeight + 1 > interval then interval
      else interval - 1
    let nHeightFirst := c.nHeight - nBlocksBack
    if nHeightFirst < 0 then .error .assertion
    else
      match c.GetAncestor nHeightFirst with
      | none => .error .assertion
      | some pindexFirst => CalculateNextWorkRequired params c pindexFirst.GetBlockTime

def PermittedDifficultyTransition (params : Params) (height : Int) (old_nbits new_nbits : UInt32) :
    Except PowError Bool :=
  if params.fPowAllowMinDifficultyBlocks then .ok true
  else if height.tmod params.DifficultyAdjustmentInterval = 0 then
    let smallest_timespan := params.nPowTargetTimespan.tdiv 4
    let largest_timespan := params.nPowTargetTimespan * 4
    let observed_new_target := (SetCompact new_nbits).1
    scaleTarget params (SetCompact old_nbits).1 largest_timespan >>= GetCompact >>= fun largest =>
    let maximum_new_target := (SetCompact largest).1
    if maximum_new_target < observed_new_target then .ok false
    else
      scaleTarget params (SetCompact old_nbits).1 smallest_timespan >>= GetCompact >>= fun smallest =>
      let minimum_new_target := (SetCompact smallest).1
      if minimum_new_target > observed_new_target then .ok false else .ok true
  else .ok (old_nbits == new_nbits)

/-- The consensus fields of `CMainParams`. -/
def mainParams : Params where
  powLimit := 2 ^ 224 - 1
  fPowAllowMinDifficultyBlocks := false
  -- not set for the main chain, and not read while `fPowAllowMinDifficultyBlocks` is false
  nMinDifficultySince := 0
  enforce_BIP94 := false
  fPowNoRetargeting := false
  nPowTargetSpacing := 10 * 60
  nPowTargetTimespan := 14 * 24 * 60 * 60
  nAuxpowStartHeight := 19200
  powLimit_lt := by decide

/-- The consensus fields of `SigNetParams`; its challenge does not change them. -/
def signetParams : Params where
  powLimit := 0x377ae * 2 ^ 216
  fPowAllowMinDifficultyBlocks := false
  nMinDifficultySince := 0
  enforce_BIP94 := false
  fPowNoRetargeting := false
  nPowTargetSpacing := 10 * 60
  nPowTargetTimespan := 14 * 24 * 60 * 60
  nAuxpowStartHeight := 0
  powLimit_lt := by decide

/-! ## The retarget without wrap-around -/

/-- The scaling of `scaleTarget` in exact arithmetic. -/
def scaledTarget (params : Params) (bn : Nat) (timespan : Int) : Nat :=
  min (bn * timespan.toNat / params.nPowTargetTimespan.toNat) params.powLimit

theorem scaledTarget_lt (params : Params) (bn : Nat) (timespan : Int) :
    scaledTarget params bn timespan < 2 ^ 256 :=
  (Nat.min_le_right _ _).trans_lt params.powLimit_lt

theorem scaledTarget_mono (params : Params) (bn : Nat) {t₁ t₂ : Int} (h : t₁ ≤ t₂) :
    scaledTarget params bn t₁ ≤ scaledTarget params bn t₂ :=
  min_le_min_right _
    (Nat.div_le_div_right (Nat.mul_le_mul_left _ (Int.toNat_le_toNat h)))

section Exact

variable {params : Params} (hspan : 0 < params.nPowTargetTimespan)
  (hspan32 : params.nPowTargetTimespan * 4 < 2 ^ 32)
include hspan hspan32

/-- A timespan that fits in a `uint32_t`, on a target whose product with it
fits in 256 bits, scales exactly. -/
theorem scaleTarget_eq {bn : Nat} {t : Int} (ht : 0 ≤ t) (ht' : t ≤ params.nPowTargetTimespan * 4)
    (hbn : bn * t.toNat < 2 ^ 256) :
    scaleTarget params bn t = .ok (scaledTarget params bn t) := by
  have hmul : (t % 2 ^ 32).toNat = t.toNat := by
    rw [Int.emod_eq_of_lt ht (by omega)]
  have hdiv : (params.nPowTargetTimespan % 2 ^ 64).toNat = params.nPowTargetTimespan.toNat := by
    rw [Int.emod_eq_of_lt (by omega) (by omega)]
  unfold scaleTarget scaledTarget
  simp only [hmul, hdiv, Nat.mod_eq_of_lt hbn]
  rw [if_neg (by omega)]
  congr 1
  split <;> omega

theorem limitTimespan_bounds (nActualTimespan : Int) :
    params.nPowTargetTimespan.tdiv 4 ≤ limitTimespan params nActualTimespan ∧
      limitTimespan params nActualTimespan ≤ params.nPowTargetTimespan * 4 := by
  unfold limitTimespan
  rw [Int.tdiv_eq_ediv_of_nonneg (by omega)]
  dsimp only
  split_ifs <;> omega

end Exact

theorem interval_pos {params : Params} (hspacing : 0 < params.nPowTargetSpacing)
    (hle : params.nPowTargetSpacing ≤ params.nPowTargetTimespan) :
    1 ≤ params.DifficultyAdjustmentInterval := by
  unfold Params.DifficultyAdjustmentInterval
  rw [Int.tdiv_eq_ediv_of_nonneg (by omega), Int.le_ediv_iff_mul_le hspacing]
  omega

theorem IndexChain.nHeight_nonneg (c : IndexChain) : 0 ≤ c.nHeight := by
  have := List.length_pos_iff.mpr c.ne_nil
  unfold IndexChain.nHeight
  omega

theorem IndexChain.GetAncestor_of_le (c : IndexChain) (height : Int) (h0 : 0 ≤ height)
    (h1 : height ≤ c.nHeight) : ∃ b ∈ c.blocks, c.GetAncestor height = some b := by
  have hlt : height.toNat < c.blocks.length := by
    unfold IndexChain.nHeight at h1
    omega
  refine ⟨c.blocks[height.toNat], List.getElem_mem hlt, ?_⟩
  unfold IndexChain.GetAncestor
  rw [if_neg (by omega), List.getElem?_eq_getElem hlt]

/-- At the end of a period both assertions of `GetNextWorkRequired` hold: the
period, one block longer after the start of merge mining, starts at a block of
the chain. -/
theorem GetNextWorkRequired_boundary {params : Params} {c : IndexChain} (nBlockTime : Int)
    (hinterval : 1 ≤ params.DifficultyAdjustmentInterval)
    (hboundary : (c.nHeight + 1).tmod params.DifficultyAdjustmentInterval = 0) :
    ∃ pindexFirst ∈ c.blocks, GetNextWorkRequired params c nBlockTime =
      CalculateNextWorkRequired params c pindexFirst.GetBlockTime := by
  obtain ⟨nProofOfWorkLimit, hlimit, -⟩ := SetCompact_GetCompact params.powLimit_lt
  have hheight := c.nHeight_nonneg
  -- a full period ends here, so the chain is at least a period long
  have hlong : params.DifficultyAdjustmentInterval ≤ c.nHeight + 1 :=
    Int.le_of_dvd (by omega) (Int.dvd_of_tmod_eq_zero hboundary)
  unfold GetNextWorkRequired
  rw [hlimit, Lib.ExceptM.ok_bind]
  simp only [hboundary, ne_eq, not_true_eq_false, if_false]
  split_ifs with haux hfirst hfirst
  · omega
  · obtain ⟨b, hb, hanc⟩ := c.GetAncestor_of_le (c.nHeight - params.DifficultyAdjustmentInterval)
      (by omega) (by omega)
    exact ⟨b, hb, by rw [hanc]⟩
  · omega
  · obtain ⟨b, hb, hanc⟩ := c.GetAncestor_of_le
      (c.nHeight - (params.DifficultyAdjustmentInterval - 1)) (by omega) (by omega)
    exact ⟨b, hb, by rw [hanc]⟩

section Exact

variable {params : Params} (hspan : 0 < params.nPowTargetTimespan)
  (hspan32 : params.nPowTargetTimespan * 4 < 2 ^ 32)
include hspan hspan32

theorem quarter_nonneg : 0 ≤ params.nPowTargetTimespan.tdiv 4 := by
  rw [Int.tdiv_eq_ediv_of_nonneg (by omega)]
  omega

/-- With retargeting on and no BIP94, a target whose product with four
timespans fits in 256 bits retargets in exact arithmetic. -/
theorem CalculateNextWorkRequired_eq {c : IndexChain} (nFirstBlockTime : Int)
    (hretarget : params.fPowNoRetargeting = false) (hbip94 : params.enforce_BIP94 = false)
    (hbn : (SetCompact c.last.nBits).1 * (params.nPowTargetTimespan * 4).toNat < 2 ^ 256) :
    CalculateNextWorkRequired params c nFirstBlockTime =
      GetCompact (scaledTarget params (SetCompact c.last.nBits).1
        (limitTimespan params (c.last.GetBlockTime - nFirstBlockTime))) := by
  obtain ⟨hlo, hhi⟩ := limitTimespan_bounds hspan hspan32 (c.last.GetBlockTime - nFirstBlockTime)
  have hscale : scaleTarget params (SetCompact c.last.nBits).1
      (limitTimespan params (c.last.GetBlockTime - nFirstBlockTime)) =
      .ok (scaledTarget params (SetCompact c.last.nBits).1
        (limitTimespan params (c.last.GetBlockTime - nFirstBlockTime))) :=
    scaleTarget_eq hspan hspan32 ((quarter_nonneg hspan hspan32).trans hlo) hhi
      ((Nat.mul_le_mul_left _ (Int.toNat_le_toNat hhi)).trans_lt hbn)
  unfold CalculateNextWorkRequired
  simp only [hretarget, hbip94, Bool.false_eq_true, if_false, Lib.ExceptM.ok_bind, hscale]

/-- A new `nBits` written from the exact scaling by a timespan between the
shortest and the longest passes the check: the rounded targets of those two
bound its own, since the scaling and `compactRound` are monotone. -/
theorem PermittedDifficultyTransition_of_scaled {height : Int} {old_nbits new_nbits : UInt32}
    {t : Int} (hmin : params.fPowAllowMinDifficultyBlocks = false)
    (hbn : (SetCompact old_nbits).1 * (params.nPowTargetTimespan * 4).toNat < 2 ^ 256)
    (hheight : height.tmod params.DifficultyAdjustmentInterval = 0)
    (ht : params.nPowTargetTimespan.tdiv 4 ≤ t) (ht' : t ≤ params.nPowTargetTimespan * 4)
    (hnew : GetCompact (scaledTarget params (SetCompact old_nbits).1 t) = .ok new_nbits) :
    PermittedDifficultyTransition params height old_nbits new_nbits = .ok true := by
  have hquarter := quarter_nonneg hspan hspan32
  have hlarge : scaleTarget params (SetCompact old_nbits).1 (params.nPowTargetTimespan * 4) =
      .ok (scaledTarget params (SetCompact old_nbits).1 (params.nPowTargetTimespan * 4)) :=
    scaleTarget_eq hspan hspan32 (by omega) le_rfl hbn
  have hsmall : scaleTarget params (SetCompact old_nbits).1 (params.nPowTargetTimespan.tdiv 4) =
      .ok (scaledTarget params (SetCompact old_nbits).1 (params.nPowTargetTimespan.tdiv 4)) :=
    scaleTarget_eq hspan hspan32 hquarter (ht.trans ht')
      ((Nat.mul_le_mul_left _ (Int.toNat_le_toNat (ht.trans ht'))).trans_lt hbn)
  obtain ⟨largest, hlargest, hmax⟩ := SetCompact_GetCompact
    (scaledTarget_lt params (SetCompact old_nbits).1 (params.nPowTargetTimespan * 4))
  obtain ⟨smallest, hsmallest, hmin'⟩ := SetCompact_GetCompact
    (scaledTarget_lt params (SetCompact old_nbits).1 (params.nPowTargetTimespan.tdiv 4))
  obtain ⟨observed, hobserved, hobs⟩ := SetCompact_GetCompact
    (scaledTarget_lt params (SetCompact old_nbits).1 t)
  rw [hnew, Except.ok.injEq] at hobserved
  subst hobserved
  unfold PermittedDifficultyTransition
  simp only [hmin, Bool.false_eq_true, if_false, hheight, if_true, hlarge, hsmall,
    Lib.ExceptM.ok_bind, hlargest, hsmallest, hmax, hmin', hobs]
  -- both checks compare rounded values of a monotone scaling
  rw [if_neg (Nat.not_lt.mpr (compactRound_mono (scaledTarget_mono params _ ht'))),
    if_neg (Nat.not_lt.mpr (compactRound_mono (scaledTarget_mono params _ ht)))]

end Exact

/-! ## Retargeting and its check -/

/-- At the end of a period, on parameters whose `powLimit` times four
timespans fits in 256 bits, `GetNextWorkRequired` passes its assertions and
its result passes `PermittedDifficultyTransition`. -/
theorem GetNextWorkRequired_permitted (params : Params)
    (hmin : params.fPowAllowMinDifficultyBlocks = false)
    (hretarget : params.fPowNoRetargeting = false) (hbip94 : params.enforce_BIP94 = false)
    (hspacing : 0 < params.nPowTargetSpacing)
    (hinterval : params.nPowTargetSpacing ≤ params.nPowTargetTimespan)
    (hspan32 : params.nPowTargetTimespan * 4 < 2 ^ 32)
    (hlimit : params.powLimit * (params.nPowTargetTimespan * 4).toNat < 2 ^ 256)
    (c : IndexChain) (nBlockTime : Int)
    (hboundary : (c.nHeight + 1).tmod params.DifficultyAdjustmentInterval = 0)
    (htarget : (SetCompact c.last.nBits).1 ≤ params.powLimit) :
    ∃ nbits, GetNextWorkRequired params c nBlockTime = .ok nbits ∧
      PermittedDifficultyTransition params (c.nHeight + 1) c.last.nBits nbits = .ok true := by
  have hspan : 0 < params.nPowTargetTimespan := by omega
  have hbn : (SetCompact c.last.nBits).1 * (params.nPowTargetTimespan * 4).toNat < 2 ^ 256 :=
    (Nat.mul_le_mul_right _ htarget).trans_lt hlimit
  obtain ⟨pindexFirst, -, hfirst⟩ :=
    GetNextWorkRequired_boundary nBlockTime (interval_pos hspacing hinterval) hboundary
  -- the period's timespan, limited to between a quarter and four timespans
  obtain ⟨hlo, hhi⟩ := limitTimespan_bounds hspan hspan32
    (c.last.GetBlockTime - pindexFirst.GetBlockTime)
  obtain ⟨nbits, hnbits, -⟩ := SetCompact_GetCompact (scaledTarget_lt params
    (SetCompact c.last.nBits).1 (limitTimespan params (c.last.GetBlockTime - pindexFirst.GetBlockTime)))
  refine ⟨nbits, ?_, ?_⟩
  · rw [hfirst, CalculateNextWorkRequired_eq hspan hspan32 _ hretarget hbip94 hbn, hnbits]
  · exact PermittedDifficultyTransition_of_scaled hspan hspan32 hmin hbn hboundary hlo hhi hnbits

/-- A period of the main chain that took exactly two weeks. -/
def steadyChain : IndexChain :=
  ⟨List.replicate 2015 ⟨0, 0x1d00ffff⟩ ++ [⟨1209600, 0x1d00ffff⟩],
    List.append_ne_nil_of_right_ne_nil _ (List.cons_ne_nil _ _)⟩

/-- A period of signet at its genesis `nBits` that took eight weeks: the
timespan is clamped to four, and the target capped at `powLimit`. -/
def slowSignetChain : IndexChain :=
  ⟨List.replicate 2015 ⟨0, 0x1e0377ae⟩ ++ [⟨4838400, 0x1e0377ae⟩],
    List.append_ne_nil_of_right_ne_nil _ (List.cons_ne_nil _ _)⟩

end Namecoin.Consensus.Pow
