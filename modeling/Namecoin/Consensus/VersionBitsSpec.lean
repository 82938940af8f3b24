import Namecoin.Consensus.VersionBits

/-! # The deployment states period by period, and the cache that computes them

The state of a block is defined period by period along its chain (`stateAfter`):
`DEFINED` before the first period ends, then at the end of each period the
transition of BIP 9 (`transition`) applied to the block that ends it, with the
signalling blocks counted over that period (`signals`). `stateSpec` reads it off
for the child of a block, and `sinceSpec` is the first height of the run of
periods ending with the child's that share its state.

The cache holds only states that agree with `stateSpec` (`CacheInv`). Both loops
of `GetStateFor` keep that: the walk back stops at a cached state, at the genesis
block's null parent, or at a block before the start time, which on a valid chain
is `DEFINED` along with every block below (`stateAfter_of_lt_BeginTime`); the
walk forward applies the transitions over blocks that each end the period after
the one before (`Links`). So every reply of any sequence of calls on one cache
is the specified one (`runQueries_spec`). -/

namespace Namecoin.Consensus.VersionBits

variable {B : Type} (c : ThresholdConditionChecker B) (t : BlockTree B)

/-- The blocks that signal among `b` and the `n - 1` blocks before it. -/
def signals (b : B) (n : Nat) : Nat := (List.range n).countP fun i => c.Condition (t.walk b i)

/-- The transition of BIP 9 at the end of the period that `pindexPrev` ends. -/
def transition : ThresholdState → B → ThresholdState
  | .DEFINED, pindexPrev =>
    if t.GetMedianTimePast pindexPrev ≥ c.BeginTime then .STARTED else .DEFINED
  | .STARTED, pindexPrev =>
    if signals c t pindexPrev c.Period ≥ c.Threshold then .LOCKED_IN
    else if t.GetMedianTimePast pindexPrev ≥ c.EndTime then .FAILED
    else .STARTED
  | .LOCKED_IN, pindexPrev =>
    if (t.nHeight pindexPrev : Int) + 1 ≥ c.MinActivationHeight then .ACTIVE else .LOCKED_IN
  | .FAILED, _ => .FAILED
  | .ACTIVE, _ => .ACTIVE

/-- The state of the blocks after `i` complete periods on the chain of `p`: the
`i`-th period ends at height `i * Period - 1`. -/
def stateAfter (p : B) : Nat → ThresholdState
  | 0 => .DEFINED
  | i + 1 => transition c t (stateAfter p i) (t.walk p (t.nHeight p + 1 - (i + 1) * c.Period))

/-- The state of the child of `pindexPrev`, after the complete periods up to it. -/
def stateSpec : Option B → ThresholdState
  | none => .DEFINED
  | some p => stateAfter c t p ((t.nHeight p + 1) / c.Period)

/-- The first of the periods before `j` from which on each period has the state `s`. -/
def runStart (f : Nat → ThresholdState) (s : ThresholdState) : Nat → Nat
  | 0 => 0
  | j + 1 => if f j = s then runStart f s j else j + 1

/-- The height at which the state of the child of `pindexPrev` began. -/
def sinceSpec : Option B → Nat
  | none => 0
  | some p =>
    runStart (stateAfter c t p) (stateSpec c t (some p)) ((t.nHeight p + 1) / c.Period) *
      c.Period

/-- What a call should return. -/
def Query.spec : Query B → Reply
  | .stateFor pindexPrev => .state (stateSpec c t pindexPrev)
  | .stateSinceHeightFor pindexPrev => .height (some (sinceSpec c t pindexPrev))

/-- Every state in the cache is the specified one. -/
def CacheInv (cache : ThresholdConditionCache B) : Prop :=
  ∀ k s, cache k = some s → s = stateSpec c t k

/-- A key that ends a period: the null parent of the genesis block, or a block whose
height plus one is a multiple of the period. -/
def Aligned : Option B → Prop
  | none => True
  | some b => c.Period ∣ t.nHeight b + 1

/-- The number of blocks up to a key. -/
def rank : Option B → Nat
  | none => 0
  | some b => t.nHeight b + 1

variable {c t}

theorem stateAfter_zero (p : B) : stateAfter c t p 0 = .DEFINED := rfl

theorem stateAfter_succ (p : B) (i : Nat) : stateAfter c t p (i + 1) =
    transition c t (stateAfter c t p i) (t.walk p (t.nHeight p + 1 - (i + 1) * c.Period)) := rfl

theorem stateSpec_some (p : B) :
    stateSpec c t (some p) = stateAfter c t p ((t.nHeight p + 1) / c.Period) := rfl

theorem runStart_succ (f : Nat → ThresholdState) (s : ThresholdState) (j : Nat) :
    runStart f s (j + 1) = if f j = s then runStart f s j else j + 1 := rfl

/-! ## Counting the signalling blocks -/

theorem signals_one (b : B) : signals c t b 1 = if c.Condition b then 1 else 0 := by
  rw [signals, List.range_one, List.countP_singleton, BlockTree.walk_zero]

theorem signals_succ_of_pprev {b p : B} (h : t.pprev b = some p) (n : Nat) :
    signals c t b (n + 1) = (if c.Condition b then 1 else 0) + signals c t p n := by
  -- the walk from `b` one step further is the walk from `p`
  have hfun : ((fun i => c.Condition (t.walk b i)) ∘ Nat.succ) =
      fun i => c.Condition (t.walk p i) := by
    funext i
    exact congrArg c.Condition (t.walk_succ_of_pprev h i)
  rw [signals, signals, List.range_succ_eq_map, List.countP_cons, List.countP_map, hfun,
    BlockTree.walk_zero, Nat.add_comm]

/-! ## The runs of a state -/

theorem runStart_le (f : Nat → ThresholdState) (s : ThresholdState) : ∀ j, runStart f s j ≤ j
  | 0 => le_rfl
  | j + 1 => by
    rw [runStart_succ]
    split
    · exact le_trans (runStart_le f s j) (Nat.le_succ j)
    · exact le_rfl

/-- From `runStart` on every period before `j` has the state `s`, and the period just
before it does not. -/
theorem runStart_spec (f : Nat → ThresholdState) (s : ThresholdState) : ∀ j,
    (∀ i, runStart f s j ≤ i → i < j → f i = s) ∧ (runStart f s j = 0 ∨ f (runStart f s j - 1) ≠ s)
  | 0 => ⟨fun i _ hi => absurd hi (Nat.not_lt_zero i), Or.inl rfl⟩
  | j + 1 => by
    by_cases hj : f j = s
    · obtain ⟨hrun, hfirst⟩ := runStart_spec f s j
      rw [runStart_succ, if_pos hj]
      refine ⟨fun i hi hij => ?_, hfirst⟩
      rcases Nat.lt_succ_iff_lt_or_eq.mp hij with hlt | rfl
      · exact hrun i hi hlt
      · exact hj
    · rw [runStart_succ, if_neg hj, Nat.add_sub_cancel]
      exact ⟨fun i hi hij => absurd hij (Nat.not_lt.mpr hi), Or.inr hj⟩

theorem runStart_congr {f g : Nat → ThresholdState} (s : ThresholdState) :
    ∀ j, (∀ i < j, f i = g i) → runStart f s j = runStart g s j
  | 0, _ => rfl
  | j + 1, h => by
    rw [runStart_succ, runStart_succ, h j (Nat.lt_succ_self j),
      runStart_congr s j fun i hi => h i (Nat.lt_succ_of_lt hi)]

theorem runStart_of_forall {f : Nat → ThresholdState} {s : ThresholdState} :
    ∀ j, (∀ i < j, f i = s) → runStart f s j = 0
  | 0, _ => rfl
  | j + 1, h => by
    rw [runStart_succ, if_pos (h j (Nat.lt_succ_self j))]
    exact runStart_of_forall j fun i hi => h i (Nat.lt_succ_of_lt hi)

/-! ## The period-by-period states -/

/-- No transition returns to `DEFINED`. -/
theorem transition_ne_DEFINED {s : ThresholdState} (hs : s ≠ .DEFINED) (b : B) :
    transition c t s b ≠ .DEFINED := by
  cases s
  case DEFINED => exact absurd rfl hs
  case STARTED | LOCKED_IN =>
    rw [transition]
    split_ifs <;> simp
  all_goals
    rw [transition]
    simp

theorem stateAfter_DEFINED_of_le {p : B} {i j : Nat} (hij : i ≤ j)
    (hj : stateAfter c t p j = .DEFINED) : stateAfter c t p i = .DEFINED := by
  induction j with
  | zero => rw [Nat.le_zero.mp hij]; exact hj
  | succ k ih =>
    rcases Nat.lt_or_ge k i with hlt | hle
    · rw [show i = k + 1 by omega]
      exact hj
    · refine ih hle ?_
      by_contra hne
      rw [stateAfter_succ] at hj
      exact transition_ne_DEFINED hne _ hj

/-- Before the start time on a valid chain every period is `DEFINED`: the blocks that
end the earlier periods have no later median time past. -/
theorem stateAfter_of_lt_BeginTime (hv : t.TimesValid) {b : B}
    (hb : t.GetMedianTimePast b < c.BeginTime) : ∀ i, stateAfter c t b i = .DEFINED
  | 0 => rfl
  | i + 1 => by
    have hmtp := t.GetMedianTimePast_walk_le hv b (t.nHeight b + 1 - (i + 1) * c.Period)
    rw [stateAfter_succ, stateAfter_of_lt_BeginTime hv hb i, transition, if_neg (by omega)]

/-- The states up to period `i` depend only on the blocks that end those periods, so an
ancestor that ends a later period has them too. -/
theorem stateAfter_walk {p : B} {m : Nat} (hm : m ≤ t.nHeight p) :
    ∀ i, i * c.Period ≤ t.nHeight p + 1 - m → stateAfter c t (t.walk p m) i = stateAfter c t p i
  | 0, _ => rfl
  | i + 1, hi => by
    have hIH := stateAfter_walk hm i (le_trans (Nat.mul_le_mul_right _ (Nat.le_succ i)) hi)
    have hwalk : t.walk (t.walk p m) (t.nHeight (t.walk p m) + 1 - (i + 1) * c.Period) =
        t.walk p (t.nHeight p + 1 - (i + 1) * c.Period) := by
      rw [← BlockTree.walk_add, BlockTree.nHeight_walk]
      congr 1
      omega
    rw [stateAfter_succ, stateAfter_succ, hIH, hwalk]

/-- A block that ends period `k + 1` ends with the transition of its own period. -/
theorem stateAfter_top {q : B} {k : Nat} (hk : t.nHeight q + 1 = c.Period * (k + 1)) :
    stateAfter c t q (k + 1) = transition c t (stateAfter c t q k) q := by
  have hzero : t.nHeight q + 1 - (k + 1) * c.Period = 0 := by
    rw [Nat.mul_comm, ← hk, Nat.sub_self]
  rw [stateAfter_succ, hzero, BlockTree.walk_zero]

theorem stateSpec_of_period {q : B} {k : Nat} (hP : 0 < c.Period)
    (hk : t.nHeight q + 1 = c.Period * k) : stateSpec c t (some q) = stateAfter c t q k := by
  rw [stateSpec_some, hk, Nat.mul_div_cancel_left k hP]

/-- An ancestor in the same period has the same state. -/
theorem stateSpec_walk_of_div_eq {p : B} {m : Nat} (hm : m ≤ t.nHeight p)
    (hdiv : (t.nHeight (t.walk p m) + 1) / c.Period = (t.nHeight p + 1) / c.Period) :
    stateSpec c t (some (t.walk p m)) = stateSpec c t (some p) := by
  have hle := Nat.div_mul_le_self (t.nHeight (t.walk p m) + 1) c.Period
  rw [BlockTree.nHeight_walk] at hle
  rw [stateSpec_some, stateSpec_some, hdiv]
  refine stateAfter_walk hm _ ?_
  rw [← hdiv, BlockTree.nHeight_walk]
  omega

/-- The ancestor at the height `n - 1` is `n` blocks below the child. -/
theorem GetAncestor_sub_one {p : B} {n : Nat} (hn : 0 < n) (hle : n ≤ t.nHeight p + 1) :
    t.GetAncestor p ((n : Int) - 1) = some (t.walk p (t.nHeight p + 1 - n)) := by
  rw [BlockTree.GetAncestor_of_le t (by omega) (by omega)]
  congr 2
  omega

/-- The state of the blocks of period `i` is that of the child of the ancestor that
ends period `i - 1`. -/
theorem stateSpec_GetAncestor (hP : 0 < c.Period) {p : B} {i : Nat}
    (hi : i ≤ (t.nHeight p + 1) / c.Period) :
    stateSpec c t (t.GetAncestor p ((i * c.Period : Nat) - 1 : Int)) = stateAfter c t p i := by
  have hle : i * c.Period ≤ t.nHeight p + 1 :=
    le_trans (Nat.mul_le_mul_right _ hi) (Nat.div_mul_le_self _ _)
  rcases Nat.eq_zero_or_pos i with rfl | hpos
  · rw [BlockTree.GetAncestor_of_neg t (by omega)]
    rfl
  · have hn : 0 < i * c.Period := Nat.mul_pos hpos hP
    have hheight : t.nHeight (t.walk p (t.nHeight p + 1 - i * c.Period)) + 1 = c.Period * i := by
      rw [BlockTree.nHeight_walk, Nat.mul_comm c.Period i]
      omega
    rw [GetAncestor_sub_one hn hle, stateSpec_of_period hP hheight]
    exact stateAfter_walk (by omega) i (by omega)

/-! ## The run of periods of one state -/

/-- `sinceSpec` starts the maximal run of periods ending with the child's that have its
state: every period from it on has the state, and the one before it does not. -/
theorem sinceSpec_spec (hP : 0 < c.Period) (p : B) :
    ∃ j ≤ (t.nHeight p + 1) / c.Period, sinceSpec c t (some p) = j * c.Period ∧
      (∀ i, j ≤ i → i ≤ (t.nHeight p + 1) / c.Period →
        stateSpec c t (t.GetAncestor p ((i * c.Period : Nat) - 1 : Int)) = stateSpec c t (some p)) ∧
      (j = 0 ∨ stateSpec c t (t.GetAncestor p (((j - 1) * c.Period : Nat) - 1 : Int)) ≠
        stateSpec c t (some p)) := by
  obtain ⟨hrun, hfirst⟩ := runStart_spec (stateAfter c t p) (stateSpec c t (some p))
    ((t.nHeight p + 1) / c.Period)
  have hle := runStart_le (stateAfter c t p) (stateSpec c t (some p)) ((t.nHeight p + 1) / c.Period)
  refine ⟨_, hle, rfl, fun i hi hiK => ?_, ?_⟩
  · rw [stateSpec_GetAncestor hP hiK]
    rcases Nat.lt_or_ge i ((t.nHeight p + 1) / c.Period) with hlt | hge
    · exact hrun i hi hlt
    · rw [show i = (t.nHeight p + 1) / c.Period by omega]
      rfl
  · rcases hfirst with hzero | hne
    · exact Or.inl hzero
    · right
      rw [stateSpec_GetAncestor hP (by omega)]
      exact hne

/-- A child in `DEFINED` has been there since the genesis block. -/
theorem sinceSpec_of_DEFINED {p : Option B} (hs : stateSpec c t p = .DEFINED) :
    sinceSpec c t p = 0 := by
  cases p with
  | none => rfl
  | some q =>
    rw [stateSpec_some] at hs
    rw [sinceSpec, stateSpec_some, hs,
      runStart_of_forall _ fun i hi => stateAfter_DEFINED_of_le hi.le hs, Nat.zero_mul]

/-! ## The cache invariant -/

theorem cacheInv_empty : CacheInv c t fun _ => none := by
  intro _ _ h
  cases h

/-- A key the cache holds has its specified state there. -/
theorem CacheInv.some_of_isSome {cache : ThresholdConditionCache B} (hc : CacheInv c t cache)
    {k : Option B} (h : (cache k).isSome) : cache k = some (stateSpec c t k) := by
  obtain ⟨s, hs⟩ := Option.isSome_iff_exists.mp h
  rw [hs, hc k s hs]

/-- `l` lists blocks that each end the period after the one before, from the period
after `base` up to `top`: the blocks of `vToCompute`, back first. -/
inductive Links (c : ThresholdConditionChecker B) (t : BlockTree B) :
    Option B → List B → Option B → Prop
  | nil (k : Option B) : Links c t k [] k
  | cons {k : Option B} {b : B} {l : List B} {top : Option B} :
      prevEnd c t b = k → c.Period ∣ t.nHeight b + 1 → Links c t (some b) l top →
        Links c t k (b :: l) top

theorem walkFuel_eq (o : Option B) : walkFuel t o = rank t o + 1 := by
  cases o <;> rfl

theorem countLoop_some_succ (b : B) (n : Nat) : countLoop c t (some b) (n + 1) =
    (if c.Condition b then 1 else 0) + countLoop c t (t.pprev b) n := rfl

theorem statsLoop_some_succ (b : B) (n : Nat) : statsLoop c t (some b) (n + 1) =
    ((statsLoop c t (t.pprev b) n).1 + 1,
      (statsLoop c t (t.pprev b) n).2 + if c.Condition b then 1 else 0) := rfl

/-! ## The counting loops -/

/-- Both loops count the same blocks. -/
theorem countLoop_eq_statsLoop : ∀ (o : Option B) (n : Nat),
    countLoop c t o n = (statsLoop c t o n).2
  | _, 0 => rfl
  | none, _ + 1 => rfl
  | some b, n + 1 => by
    rw [countLoop_some_succ, statsLoop_some_succ, countLoop_eq_statsLoop (t.pprev b) n]
    exact Nat.add_comm _ _

/-- Over at most the blocks of the chain, the statistics loop passes `n` blocks and
counts those that signal. -/
theorem statsLoop_some : ∀ (n : Nat) (b : B), n ≤ t.nHeight b + 1 →
    statsLoop c t (some b) n = (n, signals c t b n)
  | 0, _, _ => rfl
  | n + 1, b, hn => by
    rw [statsLoop_some_succ]
    cases hp : t.pprev b with
    | none =>
      -- the genesis block: the period has no block before it
      have hn0 : n = 0 := by
        have := t.height_root b hp
        omega
      subst hn0
      rw [signals_one]
      exact congrArg₂ Prod.mk rfl (Nat.zero_add _)
    | some p =>
      have hh := t.height_pprev b p hp
      rw [statsLoop_some n p (by omega), signals_succ_of_pprev hp, Nat.add_comm (signals c t p n)]

theorem countLoop_some {n : Nat} {b : B} (hn : n ≤ t.nHeight b + 1) :
    countLoop c t (some b) n = signals c t b n := by
  rw [countLoop_eq_statsLoop, statsLoop_some n b hn]

/-- The `switch` of `GetStateFor` is the transition of BIP 9 at a block with a whole
period below it. -/
theorem nextState_eq_transition {b : B} (hb : c.Period ≤ t.nHeight b + 1) (s : ThresholdState) :
    nextState c t s b = transition c t s b := by
  cases s
  case STARTED =>
    show (if countLoop c t (some b) c.Period ≥ c.Threshold then ThresholdState.LOCKED_IN
      else if t.GetMedianTimePast b ≥ c.EndTime then .FAILED else .STARTED) = _
    rw [countLoop_some hb]
    rfl
  all_goals rfl

/-- The statistics of the period of `pindex`: the blocks of it so far, those that
signal, and whether the threshold can still be reached in the blocks left. -/
theorem GetStateStatisticsFor_spec (b : B) :
    GetStateStatisticsFor c t (some b) =
      ⟨c.Period, c.Threshold, t.nHeight b % c.Period + 1,
        signals c t b (t.nHeight b % c.Period + 1),
        decide (signals c t b (t.nHeight b % c.Period + 1) + c.Period ≥
          t.nHeight b % c.Period + 1 + c.Threshold)⟩ := by
  have hloop : statsLoop c t (some b) (t.nHeight b % c.Period + 1) =
      (t.nHeight b % c.Period + 1, signals c t b (t.nHeight b % c.Period + 1)) :=
    statsLoop_some _ b (Nat.succ_le_succ (Nat.mod_le _ _))
  dsimp only [GetStateStatisticsFor]
  rw [Nat.add_comm 1, hloop]
  dsimp only
  congr 1
  -- the blocks left in the period against the signals still missing
  generalize signals c t b (t.nHeight b % c.Period + 1) = n
  generalize t.nHeight b % c.Period + 1 = e
  exact decide_eq_decide.mpr ⟨fun h => by omega, fun h => by omega⟩

/-! ## The periods and the blocks that end them -/

/-- Where a block ends its period: the genesis block's null parent in the first
period, otherwise the block of the period's start, with the same states. -/
theorem periodEnd_cases (hP : 0 < c.Period) (p : B) :
    (periodEnd c t p = none ∧ (t.nHeight p + 1) / c.Period = 0) ∨
      ∃ e, periodEnd c t p = some e ∧ Aligned c t (some e) ∧
        (t.nHeight e + 1) / c.Period = (t.nHeight p + 1) / c.Period ∧
        ∀ i ≤ (t.nHeight p + 1) / c.Period, stateAfter c t e i = stateAfter c t p i := by
  have hdiv := Nat.div_add_mod (t.nHeight p + 1) c.Period
  have hmod := Nat.mod_lt (t.nHeight p + 1) hP
  by_cases hsmall : t.nHeight p + 1 < c.Period
  · -- the first period: no period ends before it
    have hr : (t.nHeight p + 1) % c.Period = t.nHeight p + 1 := Nat.mod_eq_of_lt hsmall
    left
    refine ⟨?_, Nat.div_eq_of_lt hsmall⟩
    rw [periodEnd, hr]
    exact BlockTree.GetAncestor_of_neg t (by omega)
  · right
    have hr : (t.nHeight p + 1) % c.Period ≤ t.nHeight p := by omega
    have hcomm := Nat.mul_comm c.Period ((t.nHeight p + 1) / c.Period)
    have hheight : t.nHeight (t.walk p ((t.nHeight p + 1) % c.Period)) + 1 =
        c.Period * ((t.nHeight p + 1) / c.Period) := by
      rw [BlockTree.nHeight_walk]
      omega
    refine ⟨t.walk p ((t.nHeight p + 1) % c.Period), ?_, ⟨_, hheight⟩, ?_, ?_⟩
    · rw [periodEnd, BlockTree.GetAncestor_of_le t (by omega) (by omega)]
      congr 2
      omega
    · rw [hheight, Nat.mul_div_cancel_left _ hP]
    · intro i hi
      refine stateAfter_walk hr i (le_trans (Nat.mul_le_mul_right _ hi) ?_)
      omega

/-- The state of a block is that of the block that ends the period before its child's. -/
theorem stateSpec_periodEnd (hP : 0 < c.Period) (p : B) :
    stateSpec c t (periodEnd c t p) = stateSpec c t (some p) := by
  rcases periodEnd_cases hP p with ⟨hnone, hzero⟩ | ⟨e, hsome, -, hk, hstates⟩
  · rw [hnone, stateSpec_some, hzero]
    rfl
  · rw [hsome, stateSpec_some, stateSpec_some, hk]
    exact hstates _ le_rfl

theorem stateSpec_bind_periodEnd (hP : 0 < c.Period) (p : Option B) :
    stateSpec c t (p.bind (periodEnd c t)) = stateSpec c t p := by
  cases p with
  | none => rfl
  | some q => exact stateSpec_periodEnd hP q

theorem aligned_bind_periodEnd (hP : 0 < c.Period) (p : Option B) :
    Aligned c t (p.bind (periodEnd c t)) := by
  cases p with
  | none => trivial
  | some q =>
    rcases periodEnd_cases hP q with ⟨hnone, -⟩ | ⟨e, hsome, he, -⟩
    · show Aligned c t (periodEnd c t q)
      rw [hnone]
      trivial
    · show Aligned c t (periodEnd c t q)
      rw [hsome]
      exact he

/-- The period before the one that `q` ends: there is none before the first, otherwise
the block a period back ends it, with the states of `q` up to its own. -/
theorem prevEnd_cases (hP : 0 < c.Period) {q : B} {k : Nat}
    (hk : t.nHeight q + 1 = c.Period * (k + 1)) :
    (k = 0 ∧ prevEnd c t q = none) ∨
      ∃ k', k = k' + 1 ∧ prevEnd c t q = some (t.walk q c.Period) ∧
        t.nHeight (t.walk q c.Period) + 1 = c.Period * k ∧
        ∀ i ≤ k, stateAfter c t (t.walk q c.Period) i = stateAfter c t q i := by
  rcases k with _ | k'
  · left
    rw [Nat.zero_add, Nat.mul_one] at hk
    exact ⟨rfl, BlockTree.GetAncestor_of_neg t (by omega)⟩
  · right
    have hsucc := Nat.mul_add_one c.Period (k' + 1)
    have hge : c.Period ≤ t.nHeight q := by
      have := Nat.le_mul_of_pos_right c.Period (show 0 < k' + 1 by omega)
      omega
    have hheight := BlockTree.nHeight_walk t q c.Period
    refine ⟨k', rfl, ?_, by omega, fun i hi => stateAfter_walk hge i ?_⟩
    · rw [prevEnd, BlockTree.GetAncestor_of_le t (by omega) (by omega)]
      congr 2
      omega
    · have := Nat.mul_le_mul_right c.Period hi
      have hcomm := Nat.mul_comm c.Period (k' + 1)
      omega

theorem prevEnd_aligned (hP : 0 < c.Period) {q : B} (hq : c.Period ∣ t.nHeight q + 1) :
    Aligned c t (prevEnd c t q) ∧ rank t (prevEnd c t q) + c.Period = rank t (some q) := by
  obtain ⟨k, hk⟩ := hq
  rcases k with _ | k
  · omega
  rcases prevEnd_cases hP hk with ⟨hk0, hnone⟩ | ⟨k', -, hsome, hheight, -⟩
  · rw [hnone]
    rw [hk0, Nat.zero_add, Nat.mul_one] at hk
    exact ⟨trivial, by show 0 + c.Period = t.nHeight q + 1; omega⟩
  · rw [hsome]
    have hsucc := Nat.mul_add_one c.Period k
    refine ⟨⟨_, hheight⟩, ?_⟩
    show t.nHeight (t.walk q c.Period) + 1 + c.Period = t.nHeight q + 1
    omega

theorem stateSpec_prevEnd_eq (hP : 0 < c.Period) {q : B} {k : Nat}
    (hk : t.nHeight q + 1 = c.Period * (k + 1)) :
    stateSpec c t (prevEnd c t q) = stateAfter c t q k := by
  rcases prevEnd_cases hP hk with ⟨rfl, hnone⟩ | ⟨k', rfl, hsome, hheight, hstates⟩
  · rw [hnone]
    rfl
  · rw [hsome, stateSpec_of_period hP hheight]
    exact hstates _ le_rfl

/-- The recurrence at the end of each period. -/
theorem stateSpec_prevEnd (hP : 0 < c.Period) {q : B} (hq : c.Period ∣ t.nHeight q + 1) :
    stateSpec c t (some q) = transition c t (stateSpec c t (prevEnd c t q)) q := by
  obtain ⟨k, hk⟩ := hq
  rcases k with _ | k
  · omega
  · rw [stateSpec_of_period hP hk, stateAfter_top hk, stateSpec_prevEnd_eq hP hk]

/-! ## The two loops of `GetStateFor` -/

variable [DecidableEq B]

theorem CacheInv.update {cache : ThresholdConditionCache B} (hc : CacheInv c t cache)
    {k : Option B} {s : ThresholdState} (hs : s = stateSpec c t k) :
    CacheInv c t (Function.update cache k (some s)) := by
  intro k' s' h
  by_cases hk : k' = k
  · subst hk
    rw [Function.update_self] at h
    obtain rfl := Option.some_inj.mp h
    exact hs
  · rw [Function.update_of_ne hk] at h
    exact hc k' s' h

theorem walkForward_cons (s : ThresholdState) (cache : ThresholdConditionCache B) (b : B)
    (l : List B) : walkForward c t s cache (b :: l) =
      walkForward c t (nextState c t s b) (Function.update cache (some b) (some (nextState c t s b)))
        l := rfl

theorem runQueries_cons (cache : ThresholdConditionCache B) (q : Query B) (qs : List (Query B)) :
    runQueries c t cache (q :: qs) = (q.run c t cache).1 :: runQueries c t (q.run c t cache).2 qs :=
  rfl


section Walks

variable (hP : 0 < c.Period) (hv : t.TimesValid)
include hP hv

/-- The walk back ends at a key whose state the cache holds, with the blocks passed
linking it to the key it started from. -/
theorem walkBack_spec {top : Option B} : ∀ (fuel : Nat) (k : Option B)
    (cache : ThresholdConditionCache B) (v : List B),
    rank t k < fuel → Aligned c t k → CacheInv c t cache → Links c t k v top →
    ∀ k' cache' v', walkBack c t fuel k cache v = (k', cache', v') →
      CacheInv c t cache' ∧ cache' k' = some (stateSpec c t k') ∧ Links c t k' v' top
  | 0, _, _, _, hr, _, _, _ => absurd hr (Nat.not_lt_zero _)
  | fuel + 1, none, cache, v, _, _, hc, hl => by
    intro k' cache' v' hwb
    rw [walkBack] at hwb
    by_cases hcached : (cache none).isSome
    · rw [if_pos hcached] at hwb
      simp only [Prod.mk.injEq] at hwb
      obtain ⟨rfl, rfl, rfl⟩ := hwb
      exact ⟨hc, CacheInv.some_of_isSome hc hcached, hl⟩
    · -- the null parent of the genesis block is `DEFINED`
      rw [if_neg hcached] at hwb
      simp only [Prod.mk.injEq] at hwb
      obtain ⟨rfl, rfl, rfl⟩ := hwb
      exact ⟨CacheInv.update hc rfl, Function.update_self _ _ _, hl⟩
  | fuel + 1, some b, cache, v, hr, hk, hc, hl => by
    intro k' cache' v' hwb
    rw [walkBack] at hwb
    by_cases hcached : (cache (some b)).isSome
    · rw [if_pos hcached] at hwb
      simp only [Prod.mk.injEq] at hwb
      obtain ⟨rfl, rfl, rfl⟩ := hwb
      exact ⟨hc, CacheInv.some_of_isSome hc hcached, hl⟩
    rw [if_neg hcached] at hwb
    by_cases hmtp : t.GetMedianTimePast b < c.BeginTime
    · -- the shortcut: before the start time
      rw [if_pos hmtp] at hwb
      simp only [Prod.mk.injEq] at hwb
      obtain ⟨rfl, rfl, rfl⟩ := hwb
      have hdef : ThresholdState.DEFINED = stateSpec c t (some b) :=
        (stateAfter_of_lt_BeginTime hv hmtp _).symm
      exact ⟨CacheInv.update hc hdef, by rw [Function.update_self, hdef], hl⟩
    · -- a period further back
      rw [if_neg hmtp] at hwb
      obtain ⟨haligned, hrank⟩ := prevEnd_aligned hP hk
      have hrank' : rank t (prevEnd c t b) + c.Period = t.nHeight b + 1 := hrank
      have hr' : t.nHeight b + 1 < fuel + 1 := hr
      exact walkBack_spec fuel (prevEnd c t b) cache (b :: v) (by omega) haligned hc
        (Links.cons rfl hk hl) k' cache' v' hwb

omit hv in
/-- The walk forward computes the state of each block of the links from the state of
the one before, and records it. -/
theorem walkForward_spec {k top : Option B} {v : List B} (hl : Links c t k v top) :
    ∀ cache, CacheInv c t cache →
      (walkForward c t (stateSpec c t k) cache v).1 = stateSpec c t top ∧
      CacheInv c t (walkForward c t (stateSpec c t k) cache v).2 := by
  induction hl with
  | nil k => exact fun cache hc => ⟨rfl, hc⟩
  | @cons k b l top hprev hb _ ih =>
    intro cache hc
    have hnext : nextState c t (stateSpec c t k) b = stateSpec c t (some b) := by
      rw [nextState_eq_transition (Nat.le_of_dvd (Nat.succ_pos _) hb), ← hprev,
        ← stateSpec_prevEnd hP hb]
    rw [walkForward_cons, hnext]
    exact ih _ (CacheInv.update hc rfl)

end Walks

section Calls

variable (hP : 0 < c.Period) (hA : c.BeginTime ≠ ALWAYS_ACTIVE)
  (hN : c.BeginTime ≠ NEVER_ACTIVE) (hv : t.TimesValid)

omit [DecidableEq B] in
theorem not_always_or_never (hA : c.BeginTime ≠ ALWAYS_ACTIVE) (hN : c.BeginTime ≠ NEVER_ACTIVE) :
    ¬(c.BeginTime = ALWAYS_ACTIVE ∨ c.BeginTime = NEVER_ACTIVE) :=
  fun h => h.elim hA hN

theorem GetStateFor_of_walkBack (hA : c.BeginTime ≠ ALWAYS_ACTIVE)
    (hN : c.BeginTime ≠ NEVER_ACTIVE) {p : Option B} {cache cache' : ThresholdConditionCache B}
    {k' : Option B} {v' : List B}
    (hwb : walkBack c t (walkFuel t (p.bind (periodEnd c t))) (p.bind (periodEnd c t)) cache [] =
      (k', cache', v')) :
    GetStateFor c t p cache = walkForward c t ((cache' k').getD .DEFINED) cache' v' := by
  rw [GetStateFor, if_neg hA, if_neg hN]
  simp only [hwb]

include hP hA hN hv

/-- `GetStateFor` returns the specified state and leaves only specified states in the
cache. -/
theorem GetStateFor_spec {cache : ThresholdConditionCache B} (hc : CacheInv c t cache)
    (p : Option B) :
    (GetStateFor c t p cache).1 = stateSpec c t p ∧ CacheInv c t (GetStateFor c t p cache).2 := by
  rcases hwb : walkBack c t (walkFuel t (p.bind (periodEnd c t))) (p.bind (periodEnd c t)) cache []
    with ⟨k', cache', v'⟩
  obtain ⟨hc', hk', hl⟩ := walkBack_spec hP hv _ _ cache []
    (by rw [walkFuel_eq]; exact Nat.lt_succ_self _) (aligned_bind_periodEnd hP p) hc (Links.nil _)
    k' cache' v' hwb
  rw [GetStateFor_of_walkBack hA hN hwb, hk', Option.getD_some, ← stateSpec_bind_periodEnd hP p]
  exact walkForward_spec hP hl cache' hc'

/-- The walk back over the periods in state `s`: from a block that ends period
`k + 1`, the start of the run of periods in `s` up to it. -/
theorem sinceLoop_spec {s : ThresholdState} (hs : s ≠ .DEFINED) :
    ∀ (fuel : Nat) (e : B) (k : Nat) (cache : ThresholdConditionCache B),
      t.nHeight e + 1 = c.Period * (k + 1) → k < fuel → CacheInv c t cache →
      (sinceLoop c t s fuel e (prevEnd c t e) cache).1 =
        runStart (stateAfter c t e) s (k + 1) * c.Period ∧
      CacheInv c t (sinceLoop c t s fuel e (prevEnd c t e) cache).2
  | 0, _, _, _, _, hfuel, _ => absurd hfuel (Nat.not_lt_zero _)
  | fuel + 1, e, k, cache, hk, hfuel, hc => by
    rcases prevEnd_cases hP hk with ⟨rfl, hnone⟩ | ⟨k', rfl, hsome, hheight, hstates⟩
    · -- the first period: the run starts there, after `DEFINED`
      rw [hnone, runStart_succ, stateAfter_zero, if_neg (Ne.symm hs), Nat.zero_add, Nat.one_mul]
      rw [Nat.zero_add, Nat.mul_one] at hk
      exact ⟨hk, hc⟩
    · -- an earlier period: its state decides
      obtain ⟨hst, hc'⟩ := GetStateFor_spec hP hA hN hv hc (some (t.walk e c.Period))
      rcases hg : GetStateFor c t (some (t.walk e c.Period)) cache with ⟨st, cache'⟩
      rw [hg] at hst hc'
      have hst' : st = stateAfter c t e (k' + 1) := by
        rw [← hstates _ le_rfl, ← stateSpec_of_period hP hheight]
        exact hst
      have hloop : sinceLoop c t s (fuel + 1) e (some (t.walk e c.Period)) cache =
          if st = s then
            sinceLoop c t s fuel (t.walk e c.Period) (prevEnd c t (t.walk e c.Period)) cache'
          else (t.nHeight e + 1, cache') := by
        simp only [sinceLoop, hg]
      rw [hsome, hloop, runStart_succ (stateAfter c t e) s (k' + 1)]
      by_cases hsame : st = s
      · rw [if_pos hsame, if_pos (hst'.symm.trans hsame)]
        obtain ⟨h1, h2⟩ := sinceLoop_spec hs fuel (t.walk e c.Period) k' cache' hheight
          (by omega) hc'
        refine ⟨?_, h2⟩
        rw [h1, runStart_congr s (k' + 1) fun i hi => hstates i hi.le]
      · rw [if_neg hsame, if_neg fun h => hsame (hst'.trans h)]
        refine ⟨?_, hc'⟩
        show t.nHeight e + 1 = _
        rw [hk, Nat.mul_comm]

/-- `GetStateSinceHeightFor` returns the specified height and leaves only specified
states in the cache; in particular its `Assert` holds. -/
theorem GetStateSinceHeightFor_spec {cache : ThresholdConditionCache B}
    (hc : CacheInv c t cache) (p : Option B) :
    ∃ cache', GetStateSinceHeightFor c t p cache = some (sinceSpec c t p, cache') ∧
      CacheInv c t cache' := by
  obtain ⟨hst, hc'⟩ := GetStateFor_spec hP hA hN hv hc p
  rcases hg : GetStateFor c t p cache with ⟨s, cache'⟩
  rw [hg] at hst hc'
  change s = stateSpec c t p at hst
  rw [GetStateSinceHeightFor, if_neg (not_always_or_never hA hN)]
  simp only [hg]
  by_cases hs : s = .DEFINED
  · rw [if_pos hs, sinceSpec_of_DEFINED (hst ▸ hs)]
    exact ⟨cache', rfl, hc'⟩
  rw [if_neg hs]
  cases p with
  | none => exact absurd hst hs
  | some q =>
    rcases periodEnd_cases hP q with ⟨-, hzero⟩ | ⟨e, he, ⟨K, hK⟩, hdiv, hstates⟩
    · -- the first period is `DEFINED`
      exact absurd (hst.trans (by rw [stateSpec_some, hzero]; rfl)) hs
    rcases K with _ | k
    · omega
    have hKq : (t.nHeight q + 1) / c.Period = k + 1 := by
      rw [← hdiv, hK, Nat.mul_div_cancel_left _ hP]
    have hfuel := Nat.le_mul_of_pos_left (k + 1) hP
    obtain ⟨h1, h2⟩ := sinceLoop_spec hP hA hN hv hs (t.nHeight e + 1) e k cache' hK
      (by omega) hc'
    have hsince : sinceSpec c t (some q) =
        (sinceLoop c t s (t.nHeight e + 1) e (prevEnd c t e) cache').1 := by
      rw [h1, sinceSpec, ← hst, hKq]
      congr 1
      exact runStart_congr s (k + 1) fun i hi => (hstates i (hi.le.trans hKq.ge)).symm
    refine ⟨_, ?_, h2⟩
    show (match periodEnd c t q with
      | none => none
      | some pindexPrev => some (sinceLoop c t s (t.nHeight pindexPrev + 1) pindexPrev
          (prevEnd c t pindexPrev) cache')) = _
    rw [he, hsince]

theorem Query.run_spec {cache : ThresholdConditionCache B} (hc : CacheInv c t cache)
    (q : Query B) : (q.run c t cache).1 = q.spec c t ∧ CacheInv c t (q.run c t cache).2 := by
  cases q with
  | stateFor p =>
    obtain ⟨hst, hc'⟩ := GetStateFor_spec hP hA hN hv hc p
    exact ⟨congrArg Reply.state hst, hc'⟩
  | stateSinceHeightFor p =>
    obtain ⟨cache', heq, hc'⟩ := GetStateSinceHeightFor_spec hP hA hN hv hc p
    have hrun : Query.run c t (.stateSinceHeightFor p) cache =
        (.height (some (sinceSpec c t p)), cache') := by
      simp only [Query.run, heq]
    rw [hrun]
    exact ⟨rfl, hc'⟩

/-- Every reply of a sequence of calls sharing one cache is the specified one. -/
theorem runQueries_spec : ∀ {cache : ThresholdConditionCache B} (qs : List (Query B)),
    CacheInv c t cache → runQueries c t cache qs = qs.map (Query.spec c t)
  | _, [], _ => rfl
  | cache, q :: qs, hc => by
    obtain ⟨hreply, hc'⟩ := Query.run_spec hP hA hN hv hc q
    rw [runQueries_cons, hreply, runQueries_spec qs hc', List.map_cons]

end Calls

/-! ## The deployment logic against its definition -/

/-- The memoized state machine of BIP 9 is its period-by-period definition on any block
tree with valid times: every reply of any sequence of calls on one cache, from the empty
one, is the specified one; the state of the genesis block's null parent is `DEFINED`,
the state is constant within a period and follows the transitions of BIP 9 at each
period end; the height a state began is the first of the maximal run of periods up to
the child's with its state; and the statistics count the period so far. -/
theorem GetStateFor_period_spec (hP : 0 < c.Period) (hA : c.BeginTime ≠ ALWAYS_ACTIVE)
    (hN : c.BeginTime ≠ NEVER_ACTIVE) (hv : t.TimesValid) :
    (∀ qs : List (Query B), runQueries c t (fun _ => none) qs = qs.map (Query.spec c t)) ∧
    stateSpec c t none = .DEFINED ∧
    (∀ (p : B) (m : Nat), m ≤ t.nHeight p →
      (t.nHeight (t.walk p m) + 1) / c.Period = (t.nHeight p + 1) / c.Period →
      stateSpec c t (some (t.walk p m)) = stateSpec c t (some p)) ∧
    (∀ q : B, c.Period ∣ t.nHeight q + 1 →
      stateSpec c t (some q) = transition c t (stateSpec c t (prevEnd c t q)) q) ∧
    (∀ p : B, (stateSpec c t (some p) = .DEFINED → sinceSpec c t (some p) = 0) ∧
      ∃ j ≤ (t.nHeight p + 1) / c.Period, sinceSpec c t (some p) = j * c.Period ∧
        (∀ i, j ≤ i → i ≤ (t.nHeight p + 1) / c.Period →
          stateSpec c t (t.GetAncestor p ((i * c.Period : Nat) - 1 : Int)) =
            stateSpec c t (some p)) ∧
        (j = 0 ∨ stateSpec c t (t.GetAncestor p (((j - 1) * c.Period : Nat) - 1 : Int)) ≠
          stateSpec c t (some p))) ∧
    (∀ b : B, GetStateStatisticsFor c t (some b) =
      ⟨c.Period, c.Threshold, t.nHeight b % c.Period + 1,
        signals c t b (t.nHeight b % c.Period + 1),
        decide (signals c t b (t.nHeight b % c.Period + 1) + c.Period ≥
          t.nHeight b % c.Period + 1 + c.Threshold)⟩) := by
  refine ⟨fun qs => runQueries_spec hP hA hN hv qs cacheInv_empty, rfl,
    fun p m hm hdiv => stateSpec_walk_of_div_eq hm hdiv, fun q hq => stateSpec_prevEnd hP hq,
    fun p => ⟨sinceSpec_of_DEFINED, sinceSpec_spec hP p⟩, GetStateStatisticsFor_spec⟩

/-- A chain of six blocks, and a branch of four more from block 1. Times grow
along both, so every block is later than its parent's median time past. -/
def forkTree : BlockTree (Fin 10) where
  pprev b := [none, some 0, some 1, some 2, some 3, some 4, some 1, some 6, some 7, some 8].getD b.val none
  nHeight b := [0, 1, 2, 3, 4, 5, 2, 3, 4, 5].getD b.val 0
  nTime b := 10 * (b.val + 1)
  nVersion _ := 0
  height_pprev := by decide
  height_root := by decide

/-- Periods of two blocks and a threshold of two: blocks 2 and 3 of the chain
signal, and blocks 8 and 9 of the branch. -/
def forkChecker : ThresholdConditionChecker (Fin 10) :=
  ⟨fun b => decide (b.val ∈ [2, 3, 8, 9]), 0, 1000, 0, 2, 2⟩

/-- Calls on one cache that alternate between the chain and the branch. The
chain locks in a period before the branch, and the cache that the chain's
calls leave holds the blocks 0 and 1 that the branch shares. -/
def forkQueries : List (Query (Fin 10)) :=
  [.stateFor (some 5), .stateFor (some 9), .stateSinceHeightFor (some 9), .stateFor (some 4),
    .stateSinceHeightFor (some 5), .stateFor (some 7), .stateSinceHeightFor (some 7),
    .stateFor none]

theorem GetStateFor_period_spec_fork :
    0 < forkChecker.Period ∧ forkChecker.BeginTime ≠ ALWAYS_ACTIVE ∧
      forkChecker.BeginTime ≠ NEVER_ACTIVE ∧ forkTree.TimesValid ∧
      runQueries forkChecker forkTree (fun _ => none) forkQueries =
        forkQueries.map (Query.spec forkChecker forkTree) ∧
      forkQueries.map (Query.spec forkChecker forkTree) =
        [.state .ACTIVE, .state .LOCKED_IN, .height (some 6), .state .LOCKED_IN, .height (some 6),
          .state .STARTED, .height (some 2), .state .DEFINED] := by
  have hP : 0 < forkChecker.Period := by decide
  have hA : forkChecker.BeginTime ≠ ALWAYS_ACTIVE := by decide
  have hN : forkChecker.BeginTime ≠ NEVER_ACTIVE := by decide
  have hv : forkTree.TimesValid := by
    unfold BlockTree.TimesValid
    decide +kernel
  exact ⟨hP, hA, hN, hv, (GetStateFor_period_spec hP hA hN hv).1 forkQueries, by decide +kernel⟩

end Namecoin.Consensus.VersionBits
