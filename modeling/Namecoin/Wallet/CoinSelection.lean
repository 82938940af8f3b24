import Mathlib.Data.List.Sort
import Mathlib.Algebra.Order.Ring.Int

/-! # Branch and bound coin selection (wallet/coinselection.cpp)

`SelectCoinsBnB` searches, depth first, for a set of output groups whose
selection amount lies between `selection_target` and `selection_target +
cost_of_change`, within `max_selection_weight`, and with the least waste. The
pool is sorted by descending amount, and among equal amounts by ascending
waste `fee - long_term_fee`. When the search omits a group, it also skips the
groups after it with the same amount: with lower waste first, such a group
can only do as well or worse.

That holds for the waste, but not for the weight. At a feerate below the long
term feerate the waste of a group is negative and falls with its weight, so
of two groups with one amount the heavier comes first. If the heavier one
alone is too heavy, the search omits it and skips the lighter one with it:
it finishes without a selection, and reports the weight limit, although the
lighter group alone is a solution (`SelectCoinsBnB_skips_lighter_clone`). -/

namespace Namecoin.Wallet

/-- The fields of an `OutputGroup` that the selection algorithms read. -/
structure OutputGroup where
  m_value : Int
  effective_value : Int
  fee : Int
  long_term_fee : Int
  m_subtract_fee_outputs : Bool
  m_weight : Int
  deriving DecidableEq, Repr, Inhabited

namespace OutputGroup

def GetSelectionAmount (g : OutputGroup) : Int :=
  if g.m_subtract_fee_outputs then g.m_value else g.effective_value

end OutputGroup

open OutputGroup

/-- How a selection ends without a result. -/
inductive SelectionError where
  /-- `util::Error ()` -/
  | noSolution
  /-- `ErrorMaxWeightExceeded ()` -/
  | maxWeightExceeded
  /-- `std::vector::at` throws `std::out_of_range` -/
  | outOfRange
  deriving DecidableEq, Repr

/-- The selected groups, and whether the search ran to its end. -/
structure SelectionResult where
  inputs : List OutputGroup
  algoCompleted : Bool
  deriving DecidableEq, Repr

def TOTAL_TRIES : Nat := 100000

def MAX_MONEY : Int := 21000000 * 100000000

/-- Sort by descending (effective) value, lower waste on a tie. -/
def descending (a b : OutputGroup) : Bool :=
  if a.GetSelectionAmount = b.GetSelectionAmount then
    a.fee - a.long_term_fee < b.fee - b.long_term_fee
  else a.GetSelectionAmount > b.GetSelectionAmount

/-- `std::sort (utxo_pool.begin (), utxo_pool.end (), descending)`. The order
of groups the comparator ties is unspecified; the model sorts by insertion. -/
def sortDescending (utxo_pool : List OutputGroup) : List OutputGroup :=
  utxo_pool.insertionSort (fun a b => descending a b = true)

/-- `lookahead[index]`: the amount of the groups after `index`. -/
def lookahead (pool : List OutputGroup) (index : Nat) : Int :=
  ((pool.drop (index + 1)).map GetSelectionAmount).sum

/-- The search state of `SelectCoinsBnB`. `curr_selection` holds the selected
indices from the last selected one back. -/
structure BnBState where
  curr_selection : List Nat
  best_selection : List Nat
  curr_amount : Int
  curr_selection_waste : Int
  best_waste : Int
  curr_weight : Int
  max_tx_weight_exceeded : Bool
  next_utxo : Nat
  curr_try : Nat

section BnB

variable (pool : List OutputGroup) (selection_target cost_of_change : Int)
  (max_selection_weight : Int) (is_feerate_high : Bool)

/-- Select `next_utxo`. -/
def selectNext (st : BnBState) : BnBState :=
  let utxo := pool.getD st.next_utxo default
  { st with
    curr_amount := st.curr_amount + utxo.GetSelectionAmount
    curr_weight := st.curr_weight + utxo.m_weight
    curr_selection_waste := st.curr_selection_waste + (utxo.fee - utxo.long_term_fee)
    curr_selection := st.next_utxo :: st.curr_selection
    next_utxo := st.next_utxo + 1
    curr_try := st.curr_try + 1 }

/-- `deselect_last ()`. -/
def deselectLast (st : BnBState) : BnBState :=
  match st.curr_selection with
  | [] => st
  | last :: rest =>
    let utxo := pool.getD last default
    { st with
      curr_amount := st.curr_amount - utxo.GetSelectionAmount
      curr_weight := st.curr_weight - utxo.m_weight
      curr_selection_waste := st.curr_selection_waste - (utxo.fee - utxo.long_term_fee)
      curr_selection := rest }

/-- Evaluate the current selection: the new state, `should_shift` and
`should_cut`. -/
def evaluate (st : BnBState) : BnBState × Bool × Bool :=
  if st.curr_amount + lookahead pool (st.curr_selection.headD 0) < selection_target then
    -- insufficient funds with lookahead: CUT
    (st, false, true)
  else if st.curr_weight > max_selection_weight then
    ({ st with max_tx_weight_exceeded := true }, true, false)
  else if st.curr_amount > selection_target + cost_of_change then (st, true, false)
  else if is_feerate_high ∧ st.curr_selection_waste > st.best_waste then (st, true, false)
  else if st.curr_amount ≥ selection_target then
    let curr_waste := st.curr_selection_waste + (st.curr_amount - selection_target)
    if curr_waste ≤ st.best_waste then
      ({ st with best_selection := st.curr_selection, best_waste := curr_waste }, true, false)
    else (st, true, false)
  else (st, false, false)

/-- The clone-skipping loop from `next_utxo`: past the groups with the amount
of the one before, and `true` when it reaches the end of the pool, which asks
for another SHIFT. `pool.length` turns suffice. -/
def skipClones : Nat → Nat → Nat × Bool
  | 0, next_utxo => (next_utxo, false)
  | fuel + 1, next_utxo =>
    if (pool.getD (next_utxo - 1) default).GetSelectionAmount =
        (pool.getD next_utxo default).GetSelectionAmount then
      if next_utxo ≥ pool.length - 1 then (next_utxo, true)
      else skipClones fuel (next_utxo + 1)
    else (next_utxo, false)

/-- The `while (should_shift)` loop over the selection `selection`, which is
`st.curr_selection`: the new state, and `true` once the selection is empty
and the search is done. -/
def shiftLoop : List Nat → BnBState → BnBState × Bool
  | [], st => (st, true)
  | last :: rest, st =>
    let r := skipClones pool pool.length (last + 1)
    let st := { deselectLast pool st with next_utxo := r.1 }
    if r.2 then shiftLoop rest st else (st, false)

/-- The `while (!is_done)` loop, for at most `fuel` more tries: the final
state, and whether the search ran to its end. -/
def bnbLoop : Nat → BnBState → BnBState × Bool
  | 0, st => (st, false)
  | fuel + 1, st =>
    let e := evaluate pool selection_target cost_of_change max_selection_weight is_feerate_high
      (selectNext pool st)
    let st := e.1
    if st.curr_try ≥ TOTAL_TRIES then (st, false)
    else
      -- the last group of the pool was added: CUT
      let should_cut := e.2.2 || st.next_utxo == pool.length
      let st := if should_cut then deselectLast pool st else st
      if e.2.1 || should_cut then
        let s := shiftLoop pool st.curr_selection st
        if s.2 then (s.1, true) else bnbLoop fuel s.1
      else bnbLoop fuel st

end BnB

/-- `SelectCoinsBnB (utxo_pool, selection_target, cost_of_change,
max_selection_weight)`. -/
def SelectCoinsBnB (utxo_pool : List OutputGroup) (selection_target cost_of_change : Int)
    (max_selection_weight : Int) : Except SelectionError SelectionResult :=
  let pool := sortDescending utxo_pool
  let total_available := (pool.map GetSelectionAmount).sum
  if total_available < selection_target then .error .noSolution
  else
    match pool with
    | [] => .error .outOfRange
    | first :: _ =>
      -- fee to long_term_fee is as feerate to long term feerate
      let is_feerate_high := first.fee > first.long_term_fee
      let r := bnbLoop pool selection_target cost_of_change max_selection_weight is_feerate_high
        TOTAL_TRIES ⟨[], [], 0, 0, MAX_MONEY, 0, false, 0, 0⟩
      if r.1.best_selection.isEmpty then
        .error (if r.1.max_tx_weight_exceeded then .maxWeightExceeded else .noSolution)
      else .ok ⟨r.1.best_selection.map (pool.getD · default), r.2⟩

/-! ## What the search is for -/

/-- `selection` takes each group of `pool` at most once, its amount is within
the target range, and its weight within the limit. -/
def IsBnBSolution (pool : List OutputGroup) (selection_target cost_of_change : Int)
    (max_selection_weight : Int) (selection : List OutputGroup) : Prop :=
  selection.Subperm pool ∧
    selection_target ≤ (selection.map GetSelectionAmount).sum ∧
    (selection.map GetSelectionAmount).sum ≤ selection_target + cost_of_change ∧
    (selection.map (·.m_weight)).sum ≤ max_selection_weight

theorem sortDescending_pair {A A' : OutputGroup}
    (hamount : A.GetSelectionAmount = A'.GetSelectionAmount)
    (hwaste : A.fee - A.long_term_fee < A'.fee - A'.long_term_fee) :
    sortDescending [A, A'] = [A, A'] := by
  simp [sortDescending, descending, hamount, hwaste]

section Clones

variable {A A' : OutputGroup} {selection_target cost_of_change max_selection_weight : Int}
  (hamount : A.GetSelectionAmount = A'.GetSelectionAmount) (hpos : 0 < A'.GetSelectionAmount)
  (hheavy : max_selection_weight < A.m_weight) (hlo : selection_target ≤ A'.GetSelectionAmount)
include hamount hpos hheavy hlo

/-- The first try selects the heavy group, which breaks the weight limit. -/
theorem evaluate_heavy_first (is_feerate_high : Bool) :
    evaluate [A, A'] selection_target cost_of_change max_selection_weight is_feerate_high
        (selectNext [A, A'] ⟨[], [], 0, 0, MAX_MONEY, 0, false, 0, 0⟩) =
      (⟨[0], [], A.GetSelectionAmount, A.fee - A.long_term_fee, MAX_MONEY, A.m_weight, true, 1, 1⟩,
        true, false) := by
  have hlook : lookahead [A, A'] 0 = A'.GetSelectionAmount := by simp [lookahead]
  have hcut : ¬ 0 + A.GetSelectionAmount + A'.GetSelectionAmount < selection_target := by omega
  have hweight : 0 + A.m_weight > max_selection_weight := by omega
  simp only [evaluate, selectNext, List.headD_cons, hlook, List.getD_cons_zero, if_neg hcut,
    if_pos hweight]
  simp

/-- One try and one SHIFT, which skips the clone, end the search. -/
theorem bnbLoop_heavy_clone (is_feerate_high : Bool) :
    bnbLoop [A, A'] selection_target cost_of_change max_selection_weight is_feerate_high
        TOTAL_TRIES ⟨[], [], 0, 0, MAX_MONEY, 0, false, 0, 0⟩ =
      (⟨[], [], 0, 0, MAX_MONEY, 0, true, 1, 1⟩, true) := by
  have hshift : shiftLoop [A, A'] [0]
      ⟨[0], [], A.GetSelectionAmount, A.fee - A.long_term_fee, MAX_MONEY, A.m_weight, true, 1, 1⟩ =
      (⟨[], [], 0, 0, MAX_MONEY, 0, true, 1, 1⟩, true) := by
    simp [shiftLoop, skipClones, deselectLast, hamount]
  rw [show TOTAL_TRIES = 99999 + 1 from rfl, bnbLoop]
  simp only [evaluate_heavy_first hamount hpos hheavy hlo]
  simp [TOTAL_TRIES, hshift]

end Clones

/-- Two groups of one amount at one feerate below the long-term feerate, where
the heavier alone is too heavy and the lighter alone is a solution: the waste
puts the heavier first, the search omits it, skips the lighter as its clone,
and reports the weight limit. -/
theorem SelectCoinsBnB_skips_lighter_clone (A A' : OutputGroup)
    (feerate long_term_feerate selection_target cost_of_change max_selection_weight : Int)
    (hfee : A.fee = feerate * A.m_weight ∧ A'.fee = feerate * A'.m_weight)
    (hlong : A.long_term_fee = long_term_feerate * A.m_weight ∧
      A'.long_term_fee = long_term_feerate * A'.m_weight)
    (hlow : feerate < long_term_feerate)
    (hamount : A.GetSelectionAmount = A'.GetSelectionAmount)
    (hpos : 0 < A'.GetSelectionAmount) (hheavy : max_selection_weight < A.m_weight)
    (hlo : selection_target ≤ A'.GetSelectionAmount)
    (hhi : A'.GetSelectionAmount ≤ selection_target + cost_of_change)
    (hlight : A'.m_weight ≤ max_selection_weight) :
    SelectCoinsBnB [A, A'] selection_target cost_of_change max_selection_weight =
        .error .maxWeightExceeded ∧
      IsBnBSolution [A, A'] selection_target cost_of_change max_selection_weight [A'] := by
  refine ⟨?_, (List.sublist_cons_self A [A']).subperm, by simpa using hlo, by simpa using hhi,
    by simpa using hlight⟩
  -- the waste is (feerate - long_term_feerate) * weight, negative and falling with the weight
  have hwaste : A.fee - A.long_term_fee < A'.fee - A'.long_term_fee := by
    calc A.fee - A.long_term_fee = (feerate - long_term_feerate) * A.m_weight := by
          rw [hfee.1, hlong.1, Int.sub_mul]
      _ < (feerate - long_term_feerate) * A'.m_weight :=
          mul_lt_mul_of_neg_left (by omega) (by omega)
      _ = A'.fee - A'.long_term_fee := by rw [hfee.2, hlong.2, Int.sub_mul]
  have htotal : ¬ A.GetSelectionAmount + A'.GetSelectionAmount < selection_target := by omega
  unfold SelectCoinsBnB
  rw [sortDescending_pair hamount hwaste]
  simp [htotal, bnbLoop_heavy_clone hamount hpos hheavy hlo]

/-- A group of weight 100 and one of weight 50, both of amount 10000, at a
feerate of 1 and a long-term feerate of 2, for a target of 10000 and a limit
of 60. -/
theorem SelectCoinsBnB_skips_lighter_clone_example :
    ((100 : Int) = 1 * 100 ∧ (50 : Int) = 1 * 50) ∧ ((200 : Int) = 2 * 100 ∧ (100 : Int) = 2 * 50) ∧
      (1 : Int) < 2 ∧
      (⟨10100, 10000, 100, 200, false, 100⟩ : OutputGroup).GetSelectionAmount =
        (⟨10050, 10000, 50, 100, false, 50⟩ : OutputGroup).GetSelectionAmount ∧
      (0 : Int) < 10000 ∧ (60 : Int) < 100 ∧ (10000 : Int) ≤ 10000 ∧ (10000 : Int) ≤ 10000 + 0 ∧
      (50 : Int) ≤ 60 ∧
      SelectCoinsBnB [⟨10100, 10000, 100, 200, false, 100⟩, ⟨10050, 10000, 50, 100, false, 50⟩]
          10000 0 60 = .error .maxWeightExceeded :=
  ⟨by decide, by decide, by decide, by decide, by decide, by decide, by decide, by decide,
    by decide,
    (SelectCoinsBnB_skips_lighter_clone ⟨10100, 10000, 100, 200, false, 100⟩
      ⟨10050, 10000, 50, 100, false, 50⟩ 1 2 10000 0 60 (by decide) (by decide) (by decide)
      (by decide) (by decide) (by decide) (by decide) (by decide) (by decide)).1⟩

end Namecoin.Wallet
