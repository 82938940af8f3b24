import Mathlib.Algebra.Order.Group.Int
import Mathlib.Logic.Function.Basic
import Namecoin.Lib.Median

/-! # BIP 9 deployment states (versionbits.cpp)

The blocks form a tree (`BlockTree`): each has a parent pointer, a height one above
its parent's, a time and a version. `GetMedianTimePast` is the median of the times
of a block and its ten predecessors.

`GetStateFor` memoizes in a `ThresholdConditionCache` the state of the blocks after
each period-ending block. It walks back a period at a time to a block with a known
state (`walkBack`), stopping early at the genesis block's null parent or at a block
whose median time is before the deployment's start, and then walks forward
computing the state period by period (`walkForward`). `GetStateSinceHeightFor`
walks back over the periods with the same state, querying the same cache.

The loops over block pointers are structural recursions: the counting loops on the
number of blocks, the first loop of `GetStateFor` on a fuel argument bounded by the
height, and the loop of `GetStateSinceHeightFor` likewise. -/

namespace Namecoin.Consensus.VersionBits
open Lib.Median

/-- `ThresholdState`. -/
inductive ThresholdState where
  | DEFINED
  | STARTED
  | LOCKED_IN
  | ACTIVE
  | FAILED
  deriving DecidableEq, Repr

/-- The block index entries as the deployment logic reads them: `pprev`, `nHeight`,
`nTime` and `nVersion` of the blocks `B`, with heights that count the blocks below. -/
structure BlockTree (B : Type) where
  pprev : B → Option B
  nHeight : B → Nat
  nTime : B → Int
  nVersion : B → Int32
  height_pprev : ∀ b p, pprev b = some p → nHeight b = nHeight p + 1
  height_root : ∀ b, pprev b = none → nHeight b = 0

variable {B : Type}

namespace BlockTree

variable (t : BlockTree B)

/-- `n` steps back along `pprev`, staying at the genesis block. -/
def walk : B → Nat → B
  | b, 0 => b
  | b, n + 1 =>
    match t.pprev b with
    | none => b
    | some p => walk p n

/-- `CBlockIndex::GetAncestor`: the ancestor at `height`, if there is one. The skip
pointers only make the walk faster. -/
def GetAncestor (b : B) (height : Int) : Option B :=
  if height > t.nHeight b ∨ height < 0 then none
  else some (t.walk b (t.nHeight b - height.toNat))

/-- The times of `pindex` and of the blocks before it, at most `n` of them. -/
def blockTimes : Option B → Nat → List Int
  | _, 0 => []
  | none, _ + 1 => []
  | some b, n + 1 => t.nTime b :: blockTimes (t.pprev b) n

/-- `nMedianTimeSpan`. -/
def nMedianTimeSpan : Nat := 11

/-- `GetMedianTimePast`: the times of the block and of up to ten before it, sorted,
and the middle one. -/
def GetMedianTimePast (b : B) : Int := median 0 (t.blockTimes (some b) nMedianTimeSpan)

/-- What the consensus rules require of block times: each exceeds the median time
past of its parent. -/
def TimesValid : Prop := ∀ b p, t.pprev b = some p → t.GetMedianTimePast p < t.nTime b

@[simp] theorem walk_zero (b : B) : t.walk b 0 = b := rfl

theorem walk_succ_of_pprev {b p : B} (h : t.pprev b = some p) (n : Nat) :
    t.walk b (n + 1) = t.walk p n := by
  rw [walk, h]

theorem walk_of_root {b : B} (h : t.pprev b = none) : ∀ n, t.walk b n = b
  | 0 => rfl
  | n + 1 => by rw [walk, h]

theorem nHeight_walk : ∀ (b : B) (n : Nat), t.nHeight (t.walk b n) = t.nHeight b - n
  | _, 0 => rfl
  | b, n + 1 => by
    cases hp : t.pprev b with
    | none =>
      rw [walk_of_root t hp, t.height_root b hp]
      exact (Nat.zero_sub _).symm
    | some p =>
      rw [walk_succ_of_pprev t hp, nHeight_walk p n, t.height_pprev b p hp]
      omega

theorem walk_add : ∀ (b : B) (m n : Nat), t.walk b (m + n) = t.walk (t.walk b m) n
  | b, 0, n => by rw [Nat.zero_add, walk_zero]
  | b, m + 1, n => by
    cases hp : t.pprev b with
    | none => rw [walk_of_root t hp, walk_of_root t hp, walk_of_root t hp]
    | some p =>
      rw [Nat.add_right_comm, walk_succ_of_pprev t hp, walk_succ_of_pprev t hp, walk_add p m n]

theorem GetAncestor_of_le {b : B} {height : Int} (h0 : 0 ≤ height)
    (hle : height ≤ t.nHeight b) :
    t.GetAncestor b height = some (t.walk b (t.nHeight b - height.toNat)) := by
  rw [GetAncestor, if_neg (by omega)]

theorem GetAncestor_of_neg {b : B} {height : Int} (h : height < 0) :
    t.GetAncestor b height = none := by
  rw [GetAncestor, if_pos (Or.inr h)]

/-- The window of `n` times is the first `n` of the window of `n + 1`. -/
theorem blockTimes_take : ∀ (o : Option B) (n : Nat),
    t.blockTimes o n = (t.blockTimes o (n + 1)).take n
  | _, 0 => rfl
  | none, _ + 1 => rfl
  | some b, n + 1 => by
    show t.nTime b :: t.blockTimes (t.pprev b) n =
      (t.nTime b :: t.blockTimes (t.pprev b) (n + 1)).take (n + 1)
    rw [List.take_succ_cons, ← blockTimes_take (t.pprev b) n]

theorem length_blockTimes_le : ∀ (o : Option B) (n : Nat), (t.blockTimes o n).length ≤ n
  | _, 0 => le_rfl
  | none, _ + 1 => Nat.zero_le _
  | some b, n + 1 => Nat.succ_le_succ (length_blockTimes_le (t.pprev b) n)

/-- A block whose time exceeds the median time past of its parent does not have a
lower median time past: its window is the parent's, less the oldest time once full,
with its own time added. -/
theorem GetMedianTimePast_le_of_pprev {b p : B} (hp : t.pprev b = some p)
    (htime : t.GetMedianTimePast p < t.nTime b) :
    t.GetMedianTimePast p ≤ t.GetMedianTimePast b := by
  have hwin : t.blockTimes (some b) nMedianTimeSpan =
      t.nTime b :: (t.blockTimes (some p) nMedianTimeSpan).take (nMedianTimeSpan - 1) := by
    show t.nTime b :: t.blockTimes (t.pprev b) 10 = _
    rw [hp, blockTimes_take]
    rfl
  have hne : t.blockTimes (some p) nMedianTimeSpan ≠ [] := by
    show t.nTime p :: _ ≠ []
    exact List.cons_ne_nil _ _
  unfold GetMedianTimePast at htime ⊢
  rw [hwin]
  exact median_le_median_cons_take 0 nMedianTimeSpan hne (length_blockTimes_le t _ _) htime.le

/-- Along valid chains the median time past never decreases. -/
theorem GetMedianTimePast_walk_le (hv : t.TimesValid) :
    ∀ (b : B) (n : Nat), t.GetMedianTimePast (t.walk b n) ≤ t.GetMedianTimePast b
  | _, 0 => le_rfl
  | b, n + 1 => by
    cases hp : t.pprev b with
    | none => rw [walk_of_root t hp]
    | some p =>
      rw [walk_succ_of_pprev t hp]
      exact le_trans (GetMedianTimePast_walk_le hv p n)
        (t.GetMedianTimePast_le_of_pprev hp (hv b p hp))

end BlockTree

/-- `Consensus::BIP9Deployment`. -/
structure BIP9Deployment where
  bit : Nat
  nStartTime : Int
  nTimeout : Int
  min_activation_height : Int
  period : Nat
  threshold : Nat

/-- `BIP9Deployment::ALWAYS_ACTIVE`. -/
def ALWAYS_ACTIVE : Int := -1

/-- `BIP9Deployment::NEVER_ACTIVE`. -/
def NEVER_ACTIVE : Int := -2

/-- `VERSIONBITS_TOP_BITS`. -/
def VERSIONBITS_TOP_BITS : UInt32 := 0x20000000

/-- `VERSIONBITS_TOP_MASK`. -/
def VERSIONBITS_TOP_MASK : UInt32 := 0xE0000000

/-- `AbstractThresholdConditionChecker`: the parameters of a deployment and its
signalling condition on blocks. -/
structure ThresholdConditionChecker (B : Type) where
  Condition : B → Bool
  BeginTime : Int
  EndTime : Int
  MinActivationHeight : Int
  Period : Nat
  Threshold : Nat

/-- `VersionBitsConditionChecker::Condition` on a version: the top bits select the
version-bits scheme and the deployment's bit is set. The `int32_t` masks compare as
bit patterns, here in `UInt32`. -/
def VersionBitsCondition (dep : BIP9Deployment) (nVersion : Int32) : Bool :=
  (nVersion.toUInt32 &&& VERSIONBITS_TOP_MASK) == VERSIONBITS_TOP_BITS &&
    (nVersion.toUInt32 &&& ((1 : UInt32) <<< dep.bit.toUInt32)) != 0

/-- `VersionBitsConditionChecker`. -/
def VersionBitsConditionChecker (dep : BIP9Deployment) (t : BlockTree B) :
    ThresholdConditionChecker B where
  Condition b := VersionBitsCondition dep (t.nVersion b)
  BeginTime := dep.nStartTime
  EndTime := dep.nTimeout
  MinActivationHeight := dep.min_activation_height
  Period := dep.period
  Threshold := dep.threshold

/-- `ThresholdConditionCache`: the known states, keyed by block and by the null
parent of the genesis block. -/
abbrev ThresholdConditionCache (B : Type) := Option B → Option ThresholdState

/-- `BIP9Stats`. -/
structure BIP9Stats where
  period : Nat
  threshold : Nat
  elapsed : Nat
  count : Nat
  possible : Bool
  deriving DecidableEq, Repr

section Checker

variable [DecidableEq B] (c : ThresholdConditionChecker B) (t : BlockTree B)

/-- The block that ends the period before the one of the child of `pindexPrev`: the
state of a block is that of the first block of its period. -/
def periodEnd (pindexPrev : B) : Option B :=
  t.GetAncestor pindexPrev (t.nHeight pindexPrev - ((t.nHeight pindexPrev + 1) % c.Period : Nat))

/-- The block that ends the period before: `GetAncestor(nHeight - nPeriod)`. -/
def prevEnd (pindexPrev : B) : Option B := t.GetAncestor pindexPrev (t.nHeight pindexPrev - c.Period)

/-- The counting loop of `GetStateFor`: the signalling blocks among `pindexCount` and
the blocks before it, `n` blocks in all. -/
def countLoop : Option B → Nat → Nat
  | _, 0 => 0
  -- a null `pindexCount` would be dereferenced: not reached below a period end
  | none, _ + 1 => 0
  | some b, n + 1 => (if c.Condition b then 1 else 0) + countLoop (t.pprev b) n

/-- The `switch` of the second loop of `GetStateFor`: the state after the period that
`pindexPrev` ends, from the state of that period. -/
def nextState (state : ThresholdState) (pindexPrev : B) : ThresholdState :=
  match state with
  | .DEFINED => if t.GetMedianTimePast pindexPrev ≥ c.BeginTime then .STARTED else .DEFINED
  | .STARTED =>
    if countLoop c t (some pindexPrev) c.Period ≥ c.Threshold then .LOCKED_IN
    else if t.GetMedianTimePast pindexPrev ≥ c.EndTime then .FAILED
    else .STARTED
  | .LOCKED_IN =>
    if (t.nHeight pindexPrev : Int) + 1 ≥ c.MinActivationHeight then .ACTIVE else .LOCKED_IN
  | .FAILED => .FAILED
  | .ACTIVE => .ACTIVE

/-- The first loop of `GetStateFor`: back a period at a time until a block with a
known state, the null parent of the genesis block, or a block with its median time
before the start. The blocks passed are pushed on `vToCompute`, whose head is its
back. -/
def walkBack : Nat → Option B → ThresholdConditionCache B → List B →
    Option B × ThresholdConditionCache B × List B
  | 0, pindexPrev, cache, vToCompute => (pindexPrev, cache, vToCompute)
  | fuel + 1, pindexPrev, cache, vToCompute =>
    if (cache pindexPrev).isSome then (pindexPrev, cache, vToCompute)
    else
      match pindexPrev with
      | none => (none, Function.update cache none (some .DEFINED), vToCompute)
      | some b =>
        if t.GetMedianTimePast b < c.BeginTime then
          (some b, Function.update cache (some b) (some .DEFINED), vToCompute)
        else walkBack fuel (prevEnd c t b) cache (b :: vToCompute)

/-- The second loop of `GetStateFor`: forward over the blocks popped from the back of
`vToCompute`, recording each new state. -/
def walkForward : ThresholdState → ThresholdConditionCache B → List B →
    ThresholdState × ThresholdConditionCache B
  | state, cache, [] => (state, cache)
  | state, cache, pindexPrev :: vToCompute =>
    let stateNext := nextState c t state pindexPrev
    walkForward stateNext (Function.update cache (some pindexPrev) (some stateNext)) vToCompute

/-- Turns enough for the first loop, which steps down a period each turn. -/
def walkFuel : Option B → Nat
  | none => 1
  | some b => t.nHeight b + 2

/-- `GetStateFor`: the state of the child of `pindexPrev`, and the cache after. -/
def GetStateFor (pindexPrev : Option B) (cache : ThresholdConditionCache B) :
    ThresholdState × ThresholdConditionCache B :=
  if c.BeginTime = ALWAYS_ACTIVE then (.ACTIVE, cache)
  else if c.BeginTime = NEVER_ACTIVE then (.FAILED, cache)
  else
    let pindexPrev := pindexPrev.bind (periodEnd c t)
    match walkBack c t (walkFuel t pindexPrev) pindexPrev cache [] with
    | (pindexPrev, cache, vToCompute) =>
      -- `cache[pindexPrev]` is known here (the `assert`)
      walkForward c t ((cache pindexPrev).getD .DEFINED) cache vToCompute

/-- The loop of `GetStateSinceHeightFor`: back a period at a time while the state of
the previous period is the initial one. -/
def sinceLoop (initialState : ThresholdState) : Nat → B → Option B →
    ThresholdConditionCache B → Nat × ThresholdConditionCache B
  | 0, pindexPrev, _, cache => (t.nHeight pindexPrev + 1, cache)
  | _ + 1, pindexPrev, none, cache => (t.nHeight pindexPrev + 1, cache)
  | fuel + 1, pindexPrev, some previousPeriodParent, cache =>
    match GetStateFor c t (some previousPeriodParent) cache with
    | (state, cache) =>
      if state = initialState then
        sinceLoop initialState fuel previousPeriodParent (prevEnd c t previousPeriodParent) cache
      else (t.nHeight pindexPrev + 1, cache)

/-- `GetStateSinceHeightFor`: the height at which the state of the child of
`pindexPrev` began, and the cache after; `none` where the `Assert` fails. -/
def GetStateSinceHeightFor (pindexPrev : Option B) (cache : ThresholdConditionCache B) :
    Option (Nat × ThresholdConditionCache B) :=
  if c.BeginTime = ALWAYS_ACTIVE ∨ c.BeginTime = NEVER_ACTIVE then some (0, cache)
  else
    match GetStateFor c t pindexPrev cache with
    | (initialState, cache) =>
      if initialState = .DEFINED then some (0, cache)
      else
        match pindexPrev.bind (periodEnd c t) with
        | none => none
        | some pindexPrev =>
          some (sinceLoop c t initialState (t.nHeight pindexPrev + 1) pindexPrev
            (prevEnd c t pindexPrev) cache)

/-- The `do`-`while` loop of `GetStateStatisticsFor` over `blocks_in_period` blocks:
the blocks counted, and the signalling ones. -/
def statsLoop : Option B → Nat → Nat × Nat
  | _, 0 => (0, 0)
  -- a null `currentIndex` would be dereferenced: not reached within a period
  | none, _ + 1 => (0, 0)
  | some b, n + 1 =>
    match statsLoop (t.pprev b) n with
    | (elapsed, count) => (elapsed + 1, count + if c.Condition b then 1 else 0)

/-- `GetStateStatisticsFor`, without the optional `signalling_blocks` output. -/
def GetStateStatisticsFor (pindex : Option B) : BIP9Stats :=
  match pindex with
  | none => ⟨c.Period, c.Threshold, 0, 0, false⟩
  | some b =>
    match statsLoop c t (some b) (1 + t.nHeight b % c.Period) with
    | (elapsed, count) =>
      ⟨c.Period, c.Threshold, elapsed, count,
        decide ((c.Period : Int) - c.Threshold ≥ (elapsed : Int) - count)⟩

end Checker

/-- A call on a `ThresholdConditionCache` shared between callers. -/
inductive Query (B : Type) where
  | stateFor (pindexPrev : Option B)
  | stateSinceHeightFor (pindexPrev : Option B)

/-- What a call returns; `height none` where the `Assert` of
`GetStateSinceHeightFor` fails. -/
inductive Reply where
  | state (s : ThresholdState)
  | height (h : Option Nat)
  deriving DecidableEq, Repr

section Queries

variable [DecidableEq B] (c : ThresholdConditionChecker B) (t : BlockTree B)

def Query.run : Query B → ThresholdConditionCache B → Reply × ThresholdConditionCache B
  | .stateFor pindexPrev, cache =>
    match GetStateFor c t pindexPrev cache with
    | (state, cache) => (.state state, cache)
  | .stateSinceHeightFor pindexPrev, cache =>
    match GetStateSinceHeightFor c t pindexPrev cache with
    | none => (.height none, cache)
    | some (height, cache) => (.height (some height), cache)

/-- The replies to a sequence of calls, each seeing the cache the ones before left. -/
def runQueries : ThresholdConditionCache B → List (Query B) → List Reply
  | _, [] => []
  | cache, q :: qs =>
    match q.run c t cache with
    | (reply, cache) => reply :: runQueries cache qs

end Queries

end Namecoin.Consensus.VersionBits
