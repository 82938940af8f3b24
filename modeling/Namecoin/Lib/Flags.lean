import Mathlib.Algebra.BigOperators.Group.List.Basic
import Mathlib.Data.List.Perm.Subperm

/-! # Subsets as flag vectors, and lists in a shuffled order

A vector of flags beside a list picks the entries whose flag is set
(`flagged`). Setting one more flag adds one entry, up to order
(`flagged_set_true_perm`), so a running sum over the picked entries moves by
that entry. Reading a list at an order of its indices that is a permutation of
`0, …, n - 1` rearranges it (`map_getD_perm`). -/

namespace Lib.Flags

variable {α : Type}

/-- The entries of `l` whose flag in `flags` is set. -/
def flagged (l : List α) (flags : List Bool) : List α :=
  (l.zip flags).filterMap fun p => if p.2 then some p.1 else none

@[simp] theorem flagged_nil_left (flags : List Bool) : flagged ([] : List α) flags = [] := rfl

@[simp] theorem flagged_nil_right (l : List α) : flagged l [] = [] := by
  simp [flagged]

@[simp] theorem flagged_cons_cons (a : α) (l : List α) (b : Bool) (flags : List Bool) :
    flagged (a :: l) (b :: flags) = if b then a :: flagged l flags else flagged l flags := by
  cases b <;> simp [flagged]

theorem flagged_sublist (l : List α) (flags : List Bool) : (flagged l flags).Sublist l := by
  induction l generalizing flags with
  | nil => simp
  | cons a l ih =>
    cases flags with
    | nil => simp
    | cons b flags =>
      rw [flagged_cons_cons]
      split
      · exact (ih flags).cons_cons a
      · exact (ih flags).cons a

@[simp] theorem flagged_replicate_false (l : List α) (n : Nat) :
    flagged l (List.replicate n false) = [] := by
  induction l generalizing n with
  | nil => rfl
  | cons a l ih => cases n <;> simp [List.replicate_succ, ih]

@[simp] theorem flagged_replicate_true (l : List α) : flagged l (List.replicate l.length true) = l := by
  induction l with
  | nil => rfl
  | cons a l ih => simp [List.replicate_succ, ih]

/-- Setting the flag of entry `i`, which was clear, picks `l[i]` as well. -/
theorem flagged_set_true_perm (l : List α) (flags : List Bool) (i : Nat) (hi : i < l.length)
    (hf : flags[i]? = some false) :
    (flagged l (flags.set i true)).Perm (l[i] :: flagged l flags) := by
  induction l generalizing flags i with
  | nil => simp at hi
  | cons a l ih =>
    cases flags with
    | nil => simp at hf
    | cons b flags =>
      cases i with
      | zero =>
        -- the flag of the head was clear
        obtain rfl : b = false := by simpa using hf
        simp
      | succ k =>
        have hk : k < l.length := by simpa using hi
        have hperm := ih flags k hk (by simpa using hf)
        simp only [List.set_cons_succ, flagged_cons_cons, List.getElem_cons_succ]
        split
        · exact (hperm.cons a).trans (List.Perm.swap _ _ _)
        · exact hperm

/-- Clearing a flag that was just set, where it was clear, restores the flags. -/
theorem set_true_set_false {flags : List Bool} {i : Nat} (hf : flags[i]? = some false) :
    (flags.set i true).set i false = flags := by
  rw [List.set_set]
  apply List.ext_getElem?
  intro j
  rw [List.getElem?_set]
  split
  · subst_vars
    obtain ⟨hj, hv⟩ := List.getElem?_eq_some_iff.1 hf
    simp [hj, hv]
  · rfl

theorem getElem?_of_getD {flags : List Bool} {i : Nat} {b : Bool} (hi : i < flags.length)
    (h : flags.getD i false = b) : flags[i]? = some b := by
  simp only [List.getD_eq_getElem?_getD, List.getElem?_eq_getElem hi, Option.getD_some] at h ⊢
  rw [h]

theorem getD_set_ne {l : List α} {i j : Nat} (h : i ≠ j) (a d : α) :
    (l.set i a).getD j d = l.getD j d := by
  simp only [List.getD_eq_getElem?_getD, List.getElem?_set_ne h]

/-- The entries of `l` read in `order`, a permutation of its indices. -/
theorem map_getD_perm [Inhabited α] {l : List α} {order : List Nat}
    (h : order.Perm (List.range l.length)) : (order.map (l.getD · default)).Perm l := by
  have hrange : (List.range l.length).map (l.getD · default) = l := by
    apply List.ext_getElem
    · simp
    · intro i h _; simp at h; simp [h]
  calc (order.map (l.getD · default)).Perm ((List.range l.length).map (l.getD · default)) :=
        h.map _
    _ = l := hrange

section Sum

variable {β : Type} [AddCommGroup β] (f : α → β)

theorem sum_map_erase [DecidableEq α] {l : List α} {x : α} (hx : x ∈ l) :
    ((l.erase x).map f).sum = (l.map f).sum - f x := by
  rw [((List.perm_cons_erase hx).map f).sum_eq, List.map_cons, List.sum_cons,
    add_sub_cancel_left]

end Sum

end Lib.Flags
