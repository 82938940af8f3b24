import Namecoin.Lib.Flags
import Namecoin.Wallet.CoinSelection

/-! # Single random draw and knapsack coin selection (wallet/coinselection.cpp)

`SelectCoinsSRD` adds the groups of the pool in a random order to a heap and,
whenever the weight passes `max_selection_weight`, evicts the groups of least
amount until it does not; it returns the heap once its amount reaches the
target and the lower bound of the change. `KnapsackSolver` takes a group of
exactly the target amount, or all groups below the target and change if they
sum to the target, or else the least group above them, or the best of many
random subsets (`ApproximateBestSubset`).

The random choices are inputs: the order that `std::shuffle` leaves, and the
successive results of `randbool ()`. Over every order that is a permutation
and every stream of bits, a result uses each group at most once, an SRD result
reaches its target, a knapsack result is within the weight limit, and the
weight error comes only after some selection was too heavy
(`SelectCoinsSRD_sound`, `KnapsackSolver_sound`). The two other bounds hold on
the values `SelectCoins` passes: an SRD result is within the weight limit
unless its heap ran empty, which a positive target rules out, and a knapsack
result reaches `nTargetValue` when `0 ≤ change_target`, as its fallback group
only reaches `nTargetValue + change_target`. -/

namespace Namecoin.Wallet
open OutputGroup Lib.Flags

def CHANGE_LOWER : Int := 50000

/-- Sort by descending (effective) value, lower weight on a tie. -/
def descending_effval_weight (a b : OutputGroup) : Bool :=
  if a.GetSelectionAmount = b.GetSelectionAmount then a.m_weight < b.m_weight
  else a.GetSelectionAmount > b.GetSelectionAmount

/-- `GetSelectedEffectiveValue ()` of a result that holds `groups`. -/
def selectedAmount (groups : List OutputGroup) : Int := (groups.map GetSelectionAmount).sum

/-- `GetWeight ()` of a result that holds `groups`. -/
def selectionWeight (groups : List OutputGroup) : Int := (groups.map (·.m_weight)).sum

@[simp] theorem selectedAmount_nil : selectedAmount [] = 0 := rfl

@[simp] theorem selectedAmount_cons (g : OutputGroup) (gs : List OutputGroup) :
    selectedAmount (g :: gs) = g.GetSelectionAmount + selectedAmount gs := by
  simp [selectedAmount]

@[simp] theorem selectionWeight_nil : selectionWeight [] = 0 := rfl

@[simp] theorem selectionWeight_cons (g : OutputGroup) (gs : List OutputGroup) :
    selectionWeight (g :: gs) = g.m_weight + selectionWeight gs := by
  simp [selectionWeight]

/-- Some selection from `pool` is over the weight limit. -/
def SomeSelectionTooHeavy (pool : List OutputGroup) (max_selection_weight : Int) : Prop :=
  ∃ selection : List OutputGroup,
    selection.Subperm pool ∧ max_selection_weight < selectionWeight selection

/-! ## Single random draw -/

/-- The heap of `SelectCoinsSRD`, as a multiset, and its running sums. -/
structure SRDState where
  heap : List OutputGroup
  selected_eff_value : Int
  weight : Int
  max_tx_weight_exceeded : Bool

/-- `heap.top ()` under `MinOutputGroupComparator`: a group that no other ranks
above, of least amount and, among those, of greatest weight. Which of two
groups the comparator ties is on top is unspecified; the model takes the
first. -/
def heapTop : List OutputGroup → OutputGroup
  | [] => default
  | g :: heap => heap.foldl (fun top x => if descending_effval_weight top x then x else top) g

section SRD

variable (max_selection_weight : Int)

/-- Pop the top of the heap. -/
def popTop (st : SRDState) : SRDState :=
  let to_remove_group := heapTop st.heap
  { st with
    heap := st.heap.erase to_remove_group
    selected_eff_value := st.selected_eff_value - to_remove_group.GetSelectionAmount
    weight := st.weight - to_remove_group.m_weight }

/-- The `do … while` loop that pops the top of the heap until the weight is
within the limit or the heap is empty. `heap.length` turns suffice. -/
def evictLoop : Nat → SRDState → SRDState
  | 0, st => st
  | fuel + 1, st =>
    let st := popTop st
    if st.heap ≠ [] ∧ st.weight > max_selection_weight then evictLoop fuel st else st

/-- Add `group` to the heap, and evict while the weight is over the limit. -/
def pushGroup (group : OutputGroup) (st : SRDState) : SRDState :=
  let st := { st with
    heap := group :: st.heap
    selected_eff_value := st.selected_eff_value + group.GetSelectionAmount
    weight := st.weight + group.m_weight }
  if st.weight > max_selection_weight then
    evictLoop max_selection_weight st.heap.length { st with max_tx_weight_exceeded := true }
  else st

variable (utxo_pool : List OutputGroup) (target_value : Int)

/-- The loop over the shuffled `indexes`. The result holds the groups of the
heap, in the order it pops them; a `SelectionResult` keeps a set. -/
def srdLoop : List Nat → SRDState → Except SelectionError SelectionResult
  | [], st => .error (if st.max_tx_weight_exceeded then .maxWeightExceeded else .noSolution)
  | i :: indexes, st =>
    match utxo_pool[i]? with
    | none => .error .outOfRange
    | some group =>
      let st := pushGroup max_selection_weight group st
      if st.selected_eff_value ≥ target_value then .ok ⟨st.heap, true⟩
      else srdLoop indexes st

end SRD

/-- `SelectCoinsSRD (utxo_pool, target_value, change_fee, rng,
max_selection_weight)`, where `indexes` is the order that `std::shuffle`
leaves `0, …, utxo_pool.size () - 1` in. -/
def SelectCoinsSRD (utxo_pool : List OutputGroup) (target_value change_fee : Int)
    (indexes : List Nat) (max_selection_weight : Int) : Except SelectionError SelectionResult :=
  srdLoop max_selection_weight utxo_pool (target_value + CHANGE_LOWER + change_fee) indexes
    ⟨[], 0, 0, false⟩

/-! ## Knapsack -/

/-- The state of `ApproximateBestSubset`: the current draw, the best draw so
far, and how many results of `randbool ()` it has used. -/
structure SubsetState where
  vfIncluded : List Bool
  nTotal : Int
  selected_coins_weight : Int
  fReachedTarget : Bool
  vfBest : List Bool
  nBest : Int
  draws : Nat

section Subset

variable (randbool : Nat → Bool) (groups : List OutputGroup) (nTargetValue : Int)
  (max_selection_weight : Int)

/-- Include group `i`. On reaching the target within the weight limit, record
the draw if it is the best so far, and take the group out again. -/
def includeGroup (i : Nat) (group : OutputGroup) (st : SubsetState) : SubsetState :=
  let st := { st with
    nTotal := st.nTotal + group.GetSelectionAmount
    selected_coins_weight := st.selected_coins_weight + group.m_weight
    vfIncluded := st.vfIncluded.set i true }
  if st.nTotal ≥ nTargetValue ∧ st.selected_coins_weight ≤ max_selection_weight then
    let st := { st with fReachedTarget := true }
    let st := if st.nTotal < st.nBest then { st with nBest := st.nTotal, vfBest := st.vfIncluded }
      else st
    { st with
      nTotal := st.nTotal - group.GetSelectionAmount
      selected_coins_weight := st.selected_coins_weight - group.m_weight
      vfIncluded := st.vfIncluded.set i false }
  else st

/-- Pass `nPass` over the groups from index `i` on: the first pass includes a
group on a random bit, the second each group not yet included. -/
def passLoop (nPass : Nat) : List OutputGroup → Nat → SubsetState → SubsetState
  | [], _, st => st
  | group :: rest, i, st =>
    if nPass = 0 then
      let st' := { st with draws := st.draws + 1 }
      passLoop nPass rest (i + 1)
        (if randbool st.draws then includeGroup nTargetValue max_selection_weight i group st'
          else st')
    else
      passLoop nPass rest (i + 1)
        (if st.vfIncluded.getD i false then st
          else includeGroup nTargetValue max_selection_weight i group st)

/-- One repetition: a fresh draw, and the second pass only if the first did
not reach the target. -/
def repetition (st : SubsetState) : SubsetState :=
  let st := passLoop randbool nTargetValue max_selection_weight 0 groups 0
    { st with
      vfIncluded := List.replicate groups.length false
      nTotal := 0
      selected_coins_weight := 0
      fReachedTarget := false }
  if st.fReachedTarget then st
  else passLoop randbool nTargetValue max_selection_weight 1 groups 0 st

/-- The repetitions, at most `iterations` of them, until the best draw is
exactly the target. -/
def repLoop : Nat → SubsetState → SubsetState
  | 0, st => st
  | iterations + 1, st =>
    if st.nBest ≠ nTargetValue then
      repLoop iterations (repetition randbool groups nTargetValue max_selection_weight st)
    else st

end Subset

/-- `ApproximateBestSubset (insecure_rand, groups, nTotalLower, nTargetValue,
vfBest, nBest, max_selection_weight, iterations)`, with `randbool` from its
`draws`-th result on: the final state holds `vfBest` and `nBest`. -/
def ApproximateBestSubset (randbool : Nat → Bool) (draws : Nat) (groups : List OutputGroup)
    (nTotalLower nTargetValue : Int) (max_selection_weight : Int) (iterations : Nat) :
    SubsetState :=
  -- the worst best approximation is all of the groups
  repLoop randbool groups nTargetValue max_selection_weight iterations
    ⟨[], 0, 0, false, List.replicate groups.length true, nTotalLower, draws⟩

/-- What the first loop of `KnapsackSolver` collects. -/
structure KnapsackScan where
  max_weight_exceeded : Bool
  lowest_larger : Option OutputGroup
  applicable_groups : List OutputGroup
  nTotalLower : Int

section Knapsack

variable (nTargetValue change_target max_selection_weight : Int)

/-- The first loop of `KnapsackSolver`; a group of exactly the target amount
ends it (`.inl`). -/
def scanGroups : List OutputGroup → KnapsackScan → OutputGroup ⊕ KnapsackScan
  | [], s => .inr s
  | group :: rest, s =>
    if group.m_weight > max_selection_weight then
      scanGroups rest { s with max_weight_exceeded := true }
    else if group.GetSelectionAmount = nTargetValue then .inl group
    else if group.GetSelectionAmount < nTargetValue + change_target then
      scanGroups rest { s with
        applicable_groups := s.applicable_groups ++ [group]
        nTotalLower := s.nTotalLower + group.GetSelectionAmount }
    else if s.lowest_larger.all (group.GetSelectionAmount < ·.GetSelectionAmount) then
      scanGroups rest { s with lowest_larger := some group }
    else scanGroups rest s

end Knapsack

/-- Subset sum by stochastic approximation, with 1000 iterations: towards the
target, and then towards the target with change unless the first call met
the target exactly. -/
def solveSubsetSum (randbool : Nat → Bool) (applicable_groups : List OutputGroup)
    (nTotalLower nTargetValue change_target max_selection_weight : Int) : SubsetState :=
  let st := ApproximateBestSubset randbool 0 applicable_groups nTotalLower nTargetValue
    max_selection_weight 1000
  if st.nBest ≠ nTargetValue ∧ nTotalLower ≥ nTargetValue + change_target then
    ApproximateBestSubset randbool st.draws applicable_groups nTotalLower
      (nTargetValue + change_target) max_selection_weight 1000
  else st

/-- `KnapsackSolver (groups, nTargetValue, change_target, rng,
max_selection_weight)`, where `order` is the permutation that `std::shuffle`
applies to `groups` and `randbool` gives the successive results of
`randbool ()` after it. -/
def KnapsackSolver (groups : List OutputGroup) (nTargetValue change_target : Int)
    (order : List Nat) (randbool : Nat → Bool) (max_selection_weight : Int) :
    Except SelectionError SelectionResult :=
  let groups := order.map (groups.getD · default)
  match scanGroups nTargetValue change_target max_selection_weight groups ⟨false, none, [], 0⟩ with
  | .inl group => .ok ⟨[group], true⟩
  | .inr s =>
    if s.nTotalLower = nTargetValue ∧
        selectionWeight s.applicable_groups ≤ max_selection_weight then
      .ok ⟨s.applicable_groups, true⟩
    else
      -- the groups below the target sum to it, but are too heavy
      let max_weight_exceeded := s.max_weight_exceeded || decide (s.nTotalLower = nTargetValue)
      if s.nTotalLower < nTargetValue then
        match s.lowest_larger with
        | none => .error (if max_weight_exceeded then .maxWeightExceeded else .noSolution)
        | some lowest_larger => .ok ⟨[lowest_larger], true⟩
      else
        let applicable_groups := sortDescending s.applicable_groups
        let st := solveSubsetSum randbool applicable_groups s.nTotalLower nTargetValue change_target
          max_selection_weight
        let best := flagged applicable_groups st.vfBest
        match s.lowest_larger with
        | some lowest_larger =>
          if (st.nBest ≠ nTargetValue ∧ st.nBest < nTargetValue + change_target) ∨
              lowest_larger.GetSelectionAmount ≤ st.nBest then
            .ok ⟨[lowest_larger], true⟩
          -- the best subset, or the closest group above the target if it is too heavy
          else if selectionWeight best > max_selection_weight then .ok ⟨[lowest_larger], true⟩
          else .ok ⟨best, true⟩
        | none =>
          if selectionWeight best > max_selection_weight then .error .maxWeightExceeded
          else .ok ⟨best, true⟩

/-! ## Every SRD result is funded -/

theorem heapTop_mem {heap : List OutputGroup} (h : heap ≠ []) : heapTop heap ∈ heap := by
  obtain ⟨g, heap, rfl⟩ := List.exists_cons_of_ne_nil h
  -- the fold keeps one of the groups it has seen
  have seen : ∀ (l : List OutputGroup) (top : OutputGroup),
      l.foldl (fun top x => if descending_effval_weight top x then x else top) top ∈ top :: l := by
    intro l
    induction l with
    | nil => simp
    | cons x l ih =>
      intro top
      rw [List.foldl_cons]
      split
      · exact List.mem_cons_of_mem _ (ih x)
      · have := ih top
        simp only [List.mem_cons] at this ⊢
        tauto
  exact seen heap g

/-- The running sums of an SRD state are its heap's. -/
structure SRDState.Sums (st : SRDState) : Prop where
  amount : st.selected_eff_value = selectedAmount st.heap
  weight : st.weight = selectionWeight st.heap

@[simp] theorem popTop_heap (st : SRDState) : (popTop st).heap = st.heap.erase (heapTop st.heap) :=
  rfl

@[simp] theorem popTop_max_tx_weight_exceeded (st : SRDState) :
    (popTop st).max_tx_weight_exceeded = st.max_tx_weight_exceeded := rfl

theorem SRDState.Sums.popTop {st : SRDState} (hs : st.Sums) (hne : st.heap ≠ []) :
    (popTop st).Sums := by
  have htop := heapTop_mem hne
  constructor
  · simp only [Wallet.popTop, hs.amount, selectedAmount, sum_map_erase _ htop]
  · simp only [Wallet.popTop, hs.weight, selectionWeight, sum_map_erase _ htop]

section SRDSound

variable (max_selection_weight : Int)

/-- The eviction loop keeps the sums, only removes groups, and stops with the
heap empty or within the weight limit. -/
theorem evictLoop_spec (fuel : Nat) (st : SRDState) (hs : st.Sums) (hne : st.heap ≠ [])
    (hfuel : st.heap.length ≤ fuel) :
    (evictLoop max_selection_weight fuel st).Sums ∧
      (evictLoop max_selection_weight fuel st).heap.Sublist st.heap ∧
      ((evictLoop max_selection_weight fuel st).heap = [] ∨
        (evictLoop max_selection_weight fuel st).weight ≤ max_selection_weight) ∧
      (evictLoop max_selection_weight fuel st).max_tx_weight_exceeded =
        st.max_tx_weight_exceeded := by
  induction fuel generalizing st with
  | zero => exact absurd (List.length_eq_zero_iff.1 (by omega)) hne
  | succ fuel ih =>
    have hpop := hs.popTop hne
    have hlen : (popTop st).heap.length + 1 = st.heap.length := by
      rw [popTop_heap, List.length_erase_of_mem (heapTop_mem hne)]
      exact Nat.sub_add_cancel (List.length_pos_iff.2 hne)
    rw [evictLoop]
    split
    · next hmore =>
      obtain ⟨hsums, hsub, hend, hflag⟩ := ih (popTop st) hpop hmore.1 (by omega)
      exact ⟨hsums, hsub.trans (List.erase_sublist), hend, hflag⟩
    · next hdone =>
      refine ⟨hpop, List.erase_sublist, ?_, rfl⟩
      by_cases hempty : (popTop st).heap = []
      · exact .inl hempty
      · exact .inr (by have := mt (And.intro hempty) hdone; omega)

/-- Adding a group keeps the sums, and the heap is empty or within the weight
limit after it; the flag is raised only for a heap over the limit. -/
theorem pushGroup_spec (group : OutputGroup) (st : SRDState) (hs : st.Sums) :
    (pushGroup max_selection_weight group st).Sums ∧
      (pushGroup max_selection_weight group st).heap.Sublist (group :: st.heap) ∧
      ((pushGroup max_selection_weight group st).heap = [] ∨
        (pushGroup max_selection_weight group st).weight ≤ max_selection_weight) ∧
      ((pushGroup max_selection_weight group st).max_tx_weight_exceeded = true →
        st.max_tx_weight_exceeded = true ∨
          max_selection_weight < selectionWeight (group :: st.heap)) := by
  have hpushed : SRDState.Sums { st with
      heap := group :: st.heap
      selected_eff_value := st.selected_eff_value + group.GetSelectionAmount
      weight := st.weight + group.m_weight } :=
    ⟨by simp only [hs.amount, selectedAmount_cons]; omega,
      by simp only [hs.weight, selectionWeight_cons]; omega⟩
  unfold pushGroup
  dsimp only
  split
  · next hover =>
    obtain ⟨hsums, hsub, hend, -⟩ := evictLoop_spec max_selection_weight
      (group :: st.heap).length
      ⟨group :: st.heap, st.selected_eff_value + group.GetSelectionAmount,
        st.weight + group.m_weight, true⟩
      ⟨hpushed.amount, hpushed.weight⟩ (List.cons_ne_nil _ _) le_rfl
    exact ⟨hsums, hsub, hend, fun _ => .inr (by rw [← hpushed.weight]; exact hover)⟩
  · next hwithin =>
    exact ⟨hpushed, List.Sublist.refl _, .inr (by dsimp only; omega), .inl⟩

/-- What holds before each turn of the loop over `indexes`. -/
structure SRDInv (pool : List OutputGroup) (indexes : List Nat) (st : SRDState) : Prop where
  sums : st.Sums
  subperm : (st.heap ++ indexes.map (pool.getD · default)).Subperm pool
  in_range : ∀ i ∈ indexes, i < pool.length
  exceeded : st.max_tx_weight_exceeded = true → SomeSelectionTooHeavy pool max_selection_weight

variable {max_selection_weight} (pool : List OutputGroup) (target_value : Int)

theorem srdLoop_spec (indexes : List Nat) (st : SRDState)
    (hinv : SRDInv max_selection_weight pool indexes st) :
    (∀ r, srdLoop max_selection_weight pool target_value indexes st = .ok r →
      r.inputs.Subperm pool ∧ target_value ≤ selectedAmount r.inputs ∧
        (r.inputs = [] ∨ selectionWeight r.inputs ≤ max_selection_weight)) ∧
    (srdLoop max_selection_weight pool target_value indexes st = .error .maxWeightExceeded →
      SomeSelectionTooHeavy pool max_selection_weight) := by
  induction indexes generalizing st with
  | nil =>
    refine ⟨fun r h => by simp [srdLoop] at h, fun h => hinv.exceeded ?_⟩
    simp only [srdLoop, Except.error.injEq] at h
    split at h
    · assumption
    · cases h
  | cons i indexes ih =>
    have hi := hinv.in_range i List.mem_cons_self
    have hget : pool[i]? = some (pool.getD i default) := by simp [hi]
    obtain ⟨hsums, hsub, hweight, hflag⟩ :=
      pushGroup_spec max_selection_weight (pool.getD i default) st hinv.sums
    -- the pushed group moves from the groups to come into the heap
    have hmiddle : (pool.getD i default :: (st.heap ++ indexes.map (pool.getD · default))).Subperm
        pool := List.perm_middle.symm.subperm.trans (by simpa using hinv.subperm)
    have hheap : (pushGroup max_selection_weight (pool.getD i default) st).heap.Subperm pool :=
      (hsub.trans ((List.sublist_append_left _ _).cons_cons _)).subperm.trans hmiddle
    rw [srdLoop, hget]
    dsimp only
    split
    · next hfunded =>
      refine ⟨fun r h => ?_, fun h => by cases h⟩
      cases h
      exact ⟨hheap, hsums.amount ▸ hfunded, hweight.imp_right fun h => hsums.weight ▸ h⟩
    · refine ih _ ⟨hsums, ?_, fun j hj => hinv.in_range j (List.mem_cons_of_mem _ hj), ?_⟩
      · exact ((hsub.append_right _).subperm).trans hmiddle
      · intro h
        rcases hflag h with hold | hover
        · exact hinv.exceeded hold
        · exact ⟨_, ((List.sublist_append_left _ _).cons_cons _).subperm.trans hmiddle, hover⟩

end SRDSound

/-- Over every shuffled order, an SRD result uses each group at most once and
reaches the target with the change; it is empty or within the weight limit;
and the weight error comes only after some selection was too heavy. -/
theorem SelectCoinsSRD_sound (utxo_pool : List OutputGroup) (target_value change_fee : Int)
    (indexes : List Nat) (max_selection_weight : Int)
    (hindexes : indexes.Perm (List.range utxo_pool.length)) :
    (∀ r, SelectCoinsSRD utxo_pool target_value change_fee indexes max_selection_weight = .ok r →
      r.inputs.Subperm utxo_pool ∧
        target_value + CHANGE_LOWER + change_fee ≤ selectedAmount r.inputs ∧
        (r.inputs = [] ∨ selectionWeight r.inputs ≤ max_selection_weight)) ∧
    (SelectCoinsSRD utxo_pool target_value change_fee indexes max_selection_weight =
        .error .maxWeightExceeded → SomeSelectionTooHeavy utxo_pool max_selection_weight) :=
  srdLoop_spec utxo_pool _ indexes _
    ⟨⟨rfl, rfl⟩, by simpa using (map_getD_perm hindexes).subperm,
      fun i hi => List.mem_range.1 (hindexes.subset hi), fun h => by cases h⟩

/-! ## Every knapsack result is within the weight limit -/

theorem selectedAmount_perm {l l' : List OutputGroup} (h : l.Perm l') :
    selectedAmount l = selectedAmount l' := (h.map _).sum_eq

theorem selectionWeight_perm {l l' : List OutputGroup} (h : l.Perm l') :
    selectionWeight l = selectionWeight l' := (h.map _).sum_eq

@[simp] theorem selectedAmount_append (l l' : List OutputGroup) :
    selectedAmount (l ++ l') = selectedAmount l + selectedAmount l' := by
  simp [selectedAmount]

/-- The best draw of `ApproximateBestSubset` over `groups`: `nBest` is its
amount, and at least `bound`. -/
structure SubsetState.BestInv (groups : List OutputGroup) (bound : Int) (st : SubsetState) :
    Prop where
  best : st.nBest = selectedAmount (flagged groups st.vfBest)
  bound_le : bound ≤ st.nBest

/-- The current draw as well: `nTotal` and the weight are its sums. -/
structure SubsetState.Inv (groups : List OutputGroup) (bound : Int) (st : SubsetState) : Prop
    extends SubsetState.BestInv groups bound st where
  included_length : st.vfIncluded.length = groups.length
  total : st.nTotal = selectedAmount (flagged groups st.vfIncluded)
  weight : st.selected_coins_weight = selectionWeight (flagged groups st.vfIncluded)

section SubsetSound

variable (randbool : Nat → Bool) {groups : List OutputGroup} {nTargetValue : Int}
  (max_selection_weight : Int) {bound : Int}

/-- Including group `i`, whose flag is clear, keeps the invariant, and sets
its flag or leaves the flags as they were. -/
theorem includeGroup_spec {i : Nat} {st : SubsetState} (hinv : st.Inv groups bound)
    (hbound : bound ≤ nTargetValue) (hi : i < groups.length) (hf : st.vfIncluded[i]? = some false) :
    (includeGroup nTargetValue max_selection_weight i groups[i] st).Inv groups bound ∧
      ((includeGroup nTargetValue max_selection_weight i groups[i] st).vfIncluded =
          st.vfIncluded.set i true ∨
        (includeGroup nTargetValue max_selection_weight i groups[i] st).vfIncluded =
          st.vfIncluded) := by
  -- the draw with group `i` included
  have hperm := flagged_set_true_perm groups st.vfIncluded i hi hf
  have hamount : selectedAmount (flagged groups (st.vfIncluded.set i true)) =
      st.nTotal + groups[i].GetSelectionAmount := by
    rw [selectedAmount_perm hperm, selectedAmount_cons, hinv.total, Int.add_comm]
  have hweight : selectionWeight (flagged groups (st.vfIncluded.set i true)) =
      st.selected_coins_weight + groups[i].m_weight := by
    rw [selectionWeight_perm hperm, selectionWeight_cons, hinv.weight, Int.add_comm]
  have hlen : (st.vfIncluded.set i true).length = groups.length := by
    rw [List.length_set, hinv.included_length]
  unfold includeGroup
  dsimp only
  split
  · next hreached =>
    -- the group is taken out again, so the draw is the one before
    have htotal := hinv.total
    have hw := hinv.weight
    split <;> dsimp only <;> rw [set_true_set_false hf]
    · refine ⟨⟨⟨hamount.symm, ?_⟩, hinv.included_length, ?_, ?_⟩, .inr rfl⟩ <;> dsimp only <;>
        omega
    · refine ⟨⟨⟨hinv.best, hinv.bound_le⟩, hinv.included_length, ?_, ?_⟩, .inr rfl⟩ <;>
        dsimp only <;> omega
  · exact ⟨⟨⟨hinv.best, hinv.bound_le⟩, hlen, hamount.symm, hweight.symm⟩, .inl rfl⟩

/-- A pass keeps the invariant. The first pass finds the flags from `i` on
clear, as it sets no flag ahead of itself. -/
theorem passLoop_spec (nPass : Nat) (rest : List OutputGroup) (i : Nat) (st : SubsetState)
    (hinv : st.Inv groups bound) (hbound : bound ≤ nTargetValue) (hrest : groups.drop i = rest)
    (hclear : nPass = 0 → ∀ j, i ≤ j → st.vfIncluded.getD j false = false) :
    (passLoop randbool nTargetValue max_selection_weight nPass rest i st).Inv groups bound := by
  induction rest generalizing i st with
  | nil => exact hinv
  | cons group rest ih =>
    have hi : i < groups.length := by
      by_contra h
      rw [List.drop_eq_nil_of_le (by omega)] at hrest
      cases hrest
    rw [List.drop_eq_getElem_cons hi, List.cons.injEq] at hrest
    obtain ⟨rfl, hrest⟩ := hrest
    have hlen : i < st.vfIncluded.length := hinv.included_length ▸ hi
    rw [passLoop]
    split
    · next h0 =>
      have hinv' : ({ st with draws := st.draws + 1 } : SubsetState).Inv groups bound :=
        ⟨⟨hinv.best, hinv.bound_le⟩, hinv.included_length, hinv.total, hinv.weight⟩
      have hinc := includeGroup_spec max_selection_weight hinv' hbound hi
        (getElem?_of_getD hlen (hclear h0 i le_rfl))
      refine ih (i + 1) _ ?_ hrest fun _ j hj => ?_
      · split
        · exact hinc.1
        · exact hinv'
      · have hj' := hclear h0 j (by omega)
        split
        · rcases hinc.2 with h | h <;> rw [h]
          · rw [getD_set_ne (by omega)]; exact hj'
          · exact hj'
        · exact hj'
    · next h0 =>
      refine ih (i + 1) _ ?_ hrest fun h => absurd h h0
      split
      · exact hinv
      · next hset =>
        exact (includeGroup_spec max_selection_weight hinv hbound hi
          (getElem?_of_getD hlen (Bool.eq_false_iff.2 hset))).1

/-- A repetition starts a fresh draw and keeps the best one. -/
theorem repetition_spec (st : SubsetState) (hbest : st.BestInv groups bound)
    (hbound : bound ≤ nTargetValue) :
    (repetition randbool groups nTargetValue max_selection_weight st).BestInv groups bound := by
  have hfresh : ({ st with
      vfIncluded := List.replicate groups.length false
      nTotal := 0
      selected_coins_weight := 0
      fReachedTarget := false } : SubsetState).Inv groups bound :=
    ⟨⟨hbest.best, hbest.bound_le⟩, by simp, by simp, by simp [selectionWeight]⟩
  have hfirst := passLoop_spec randbool max_selection_weight 0 groups 0 _ hfresh hbound rfl
    fun _ j _ => by
      rw [List.getD_eq_getElem?_getD, List.getElem?_replicate]
      split <;> rfl
  unfold repetition
  dsimp only
  split
  · exact hfirst.toBestInv
  · exact (passLoop_spec randbool max_selection_weight 1 groups 0 _ hfirst hbound rfl
      (by omega)).toBestInv

theorem repLoop_spec (iterations : Nat) (st : SubsetState) (hbest : st.BestInv groups bound)
    (hbound : bound ≤ nTargetValue) :
    (repLoop randbool groups nTargetValue max_selection_weight iterations st).BestInv groups
      bound := by
  induction iterations generalizing st with
  | zero => exact hbest
  | succ iterations ih =>
    rw [repLoop]
    split
    · exact ih _ (repetition_spec randbool max_selection_weight st hbest hbound)
    · exact hbest

end SubsetSound

/-- The best subset of `ApproximateBestSubset` has amount `nBest`, which is at
least the target or the amount of all of `groups`. -/
theorem ApproximateBestSubset_spec (randbool : Nat → Bool) (draws : Nat)
    (groups : List OutputGroup) (nTotalLower nTargetValue max_selection_weight : Int)
    (iterations : Nat) (hlower : nTotalLower = selectedAmount groups) :
    (ApproximateBestSubset randbool draws groups nTotalLower nTargetValue max_selection_weight
      iterations).BestInv groups (min nTargetValue nTotalLower) :=
  repLoop_spec randbool max_selection_weight iterations _ ⟨by simpa using hlower, min_le_right _ _⟩
    (min_le_left _ _)

/-- Whichever call gives it, the best subset has amount `nBest`, which reaches
the target when the change target is not negative. -/
theorem solveSubsetSum_spec (randbool : Nat → Bool) (applicable_groups : List OutputGroup)
    (nTotalLower nTargetValue change_target max_selection_weight : Int)
    (hlower : nTotalLower = selectedAmount applicable_groups) (hhigh : nTargetValue ≤ nTotalLower) :
    (solveSubsetSum randbool applicable_groups nTotalLower nTargetValue change_target
        max_selection_weight).nBest =
      selectedAmount (flagged applicable_groups (solveSubsetSum randbool applicable_groups
        nTotalLower nTargetValue change_target max_selection_weight).vfBest) ∧
    (0 ≤ change_target → nTargetValue ≤ (solveSubsetSum randbool applicable_groups nTotalLower
        nTargetValue change_target max_selection_weight).nBest) := by
  have hfirst := ApproximateBestSubset_spec randbool 0 applicable_groups nTotalLower nTargetValue
    max_selection_weight 1000 hlower
  unfold solveSubsetSum
  dsimp only
  split
  · next hsecond =>
    have h := ApproximateBestSubset_spec randbool (ApproximateBestSubset randbool 0
      applicable_groups nTotalLower nTargetValue max_selection_weight 1000).draws applicable_groups
      nTotalLower (nTargetValue + change_target) max_selection_weight 1000 hlower
    exact ⟨h.best, fun hc => le_trans (le_min (by omega) hhigh) h.bound_le⟩
  · exact ⟨hfirst.best, fun _ => le_trans (le_min le_rfl hhigh) hfirst.bound_le⟩

/-- What the scan has collected from `groups` before `rest`. -/
structure KnapsackScan.Inv (nTargetValue change_target max_selection_weight : Int)
    (groups rest : List OutputGroup) (s : KnapsackScan) : Prop where
  sublist : (s.applicable_groups ++ rest).Sublist groups
  total : s.nTotalLower = selectedAmount s.applicable_groups
  lowest_larger : ∀ l, s.lowest_larger = some l →
    l ∈ groups ∧ l.m_weight ≤ max_selection_weight ∧
      nTargetValue + change_target ≤ l.GetSelectionAmount
  exceeded : s.max_weight_exceeded = true → ∃ g ∈ groups, max_selection_weight < g.m_weight

section ScanSound

variable (nTargetValue change_target max_selection_weight : Int) {groups : List OutputGroup}

theorem scanGroups_spec (rest : List OutputGroup) (s : KnapsackScan)
    (hinv : s.Inv nTargetValue change_target max_selection_weight groups rest) :
    (∀ group, scanGroups nTargetValue change_target max_selection_weight rest s = .inl group →
      group ∈ groups ∧ group.GetSelectionAmount = nTargetValue ∧
        group.m_weight ≤ max_selection_weight) ∧
    (∀ s', scanGroups nTargetValue change_target max_selection_weight rest s = .inr s' →
      s'.Inv nTargetValue change_target max_selection_weight groups []) := by
  induction rest generalizing s with
  | nil =>
    refine ⟨fun _ h => ?_, fun s' h => ?_⟩
    · cases h
    · cases h
      exact hinv
  | cons group rest ih =>
    have hmem : group ∈ groups := hinv.sublist.subset (by simp)
    -- the scan passes `group` by
    have hskip : (s.applicable_groups ++ rest).Sublist groups :=
      ((List.sublist_cons_self group rest).append_left _).trans hinv.sublist
    rw [scanGroups]
    split
    · next hheavy =>
      exact ih _ ⟨hskip, hinv.total, hinv.lowest_larger, fun _ => ⟨group, hmem, hheavy⟩⟩
    · next hlight =>
      split
      · next hexact =>
        refine ⟨fun g h => ?_, fun _ h => by cases h⟩
        cases h
        exact ⟨hmem, hexact, by omega⟩
      · split
        · refine ih _ ⟨by simpa using hinv.sublist, ?_, hinv.lowest_larger, hinv.exceeded⟩
          simp [hinv.total]
        · next hlarger =>
          split
          · refine ih _ ⟨hskip, hinv.total, fun l hl => ?_, hinv.exceeded⟩
            cases hl
            exact ⟨hmem, by omega, by omega⟩
          · exact ih _ ⟨hskip, hinv.total, hinv.lowest_larger, hinv.exceeded⟩

end ScanSound

/-- Over every shuffled order and every stream of random bits, a knapsack
result uses each group at most once and is within the weight limit; it
reaches the target when the change target is not negative; and the weight
error comes only after some selection was too heavy. -/
theorem KnapsackSolver_sound (groups : List OutputGroup) (nTargetValue change_target : Int)
    (order : List Nat) (randbool : Nat → Bool) (max_selection_weight : Int)
    (horder : order.Perm (List.range groups.length)) :
    (∀ r, KnapsackSolver groups nTargetValue change_target order randbool max_selection_weight =
        .ok r →
      r.inputs.Subperm groups ∧ selectionWeight r.inputs ≤ max_selection_weight ∧
        (0 ≤ change_target → nTargetValue ≤ selectedAmount r.inputs)) ∧
    (KnapsackSolver groups nTargetValue change_target order randbool max_selection_weight =
        .error .maxWeightExceeded → SomeSelectionTooHeavy groups max_selection_weight) := by
  have hperm := map_getD_perm horder
  have hinit : KnapsackScan.Inv nTargetValue change_target max_selection_weight
      (order.map (groups.getD · default)) (order.map (groups.getD · default))
      ⟨false, none, [], 0⟩ := ⟨by simp, rfl, by simp, by simp⟩
  obtain ⟨hexact, hdone⟩ := scanGroups_spec nTargetValue change_target max_selection_weight _ _ hinit
  -- a single group of the shuffled pool is a selection from the pool
  have hsingle : ∀ g ∈ order.map (groups.getD · default), [g].Subperm groups :=
    fun g hg => List.singleton_subperm_iff.2 (hperm.subset hg)
  unfold KnapsackSolver
  dsimp only
  split
  · next group hscan =>
    obtain ⟨hmem, hamount, hweight⟩ := hexact group hscan
    refine ⟨fun r h => ?_, fun h => by cases h⟩
    cases h
    exact ⟨hsingle group hmem, by simpa using hweight, fun _ => by simp [hamount]⟩
  · next s hscan =>
    have hs := hdone s hscan
    have happ : s.applicable_groups.Subperm groups :=
      (by simpa using hs.sublist : s.applicable_groups.Sublist _).subperm.trans hperm.subperm
    -- the closest group above the target and change
    have hlarger : ∀ l, s.lowest_larger = some l →
        [l].Subperm groups ∧ selectionWeight [l] ≤ max_selection_weight ∧
          (0 ≤ change_target → nTargetValue ≤ selectedAmount [l]) := fun l hl => by
      obtain ⟨hmem, hw, ha⟩ := hs.lowest_larger l hl
      exact ⟨hsingle l hmem, by simpa using hw, fun _ => by simp; omega⟩
    split
    · next hall =>
      refine ⟨fun r h => ?_, fun h => by cases h⟩
      cases h
      exact ⟨happ, hall.2, fun _ => by rw [← hs.total, hall.1]⟩
    · split
      · next hlow =>
        split
        · next hl =>
          refine ⟨fun r h => ?_, fun h => ?_⟩
          · cases h
          · simp only [Except.error.injEq] at h
            split at h
            · next hflag =>
              -- the groups below the target fall short of it, so the flag is the scan's
              have hflag' : s.max_weight_exceeded = true := by
                simpa [show s.nTotalLower ≠ nTargetValue by omega] using hflag
              obtain ⟨g, hg, hheavy⟩ := hs.exceeded hflag'
              exact ⟨[g], hsingle g hg, by simpa using hheavy⟩
            · cases h
        · next l hl =>
          refine ⟨fun r h => ?_, fun h => by cases h⟩
          cases h
          exact hlarger l hl
      · next hhigh =>
        have hsorted := List.perm_insertionSort (fun a b => descending a b = true) s.applicable_groups
        obtain ⟨hamount, hreach⟩ := solveSubsetSum_spec randbool (sortDescending s.applicable_groups)
          s.nTotalLower nTargetValue change_target max_selection_weight
          (hs.total.trans (selectedAmount_perm hsorted.symm)) (by omega)
        have hbest := ((flagged_sublist (sortDescending s.applicable_groups)
          (solveSubsetSum randbool (sortDescending s.applicable_groups) s.nTotalLower nTargetValue
            change_target max_selection_weight).vfBest).subperm.trans hsorted.subperm).trans happ
        generalize solveSubsetSum randbool (sortDescending s.applicable_groups) s.nTotalLower
          nTargetValue change_target max_selection_weight = st at hamount hreach hbest
        split
        · next l hl =>
          refine ⟨fun r h => ?_, fun h => ?_⟩
          · split_ifs at h with hcloser hheavy <;> cases h
            · exact hlarger l hl
            · exact hlarger l hl
            · exact ⟨hbest, by dsimp only; omega, fun hc => hamount ▸ hreach hc⟩
          · split_ifs at h
        · next hl =>
          refine ⟨fun r h => ?_, fun h => ?_⟩
          · split_ifs at h with hheavy
            cases h
            exact ⟨hbest, by dsimp only; omega, fun hc => hamount ▸ hreach hc⟩
          · split_ifs at h with hheavy
            exact ⟨_, hbest, hheavy⟩

/-- Four groups in a shuffled order: at a weight limit of 600, SRD evicts the
smallest group before it reaches its target; at a limit of -1, which
`SelectCoins` passes on when the change output alone is too heavy, it evicts
every group. -/
def evictPool : List OutputGroup :=
  [⟨40000, 40000, 0, 0, false, 300⟩, ⟨30000, 30000, 0, 0, false, 200⟩,
    ⟨5000, 5000, 0, 0, false, 400⟩, ⟨25000, 25000, 0, 0, false, 100⟩]

end Namecoin.Wallet
