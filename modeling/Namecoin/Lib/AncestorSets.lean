import Mathlib.Data.Finset.Card
import Mathlib.Data.Finset.Max
import Mathlib.Data.Finset.Union

/-! # Orders stored as ancestor sets

A relation on the elements `U` kept as the set of ancestors of each element:
it is a closure (`IsClosure`) when every element is its own ancestor and an
ancestor's ancestors are ancestors, and an order (`IsOrder`) when moreover no
two elements are each other's ancestors.

Adding the edges from `c` to parents `P` to a closure gives the closure again
when every element below `c` gains the ancestors of the parents
(`IsClosure.addEdges`), and keeps an order when no parent has `c` as an
ancestor (`IsOrder.addEdges`).

In an order, the strict ancestors of `i` that lie below no other strict
ancestor (`reduced`) cover all strict ancestors, are contained in every cover
(`reduced_subset_of_covers`), and so are the only minimal cover
(`reduced_unique`); and the edges to them generate the whole order
(`subset_of_reduced_subset`). -/

namespace Lib.AncestorSets

variable {α : Type}

/-- Ancestor sets that are reflexive and transitive on `U`. -/
structure IsClosure (U : Finset α) (anc : α → Finset α) : Prop where
  refl : ∀ i ∈ U, i ∈ anc i
  sub : ∀ i ∈ U, anc i ⊆ U
  trans : ∀ i ∈ U, ∀ j ∈ anc i, anc j ⊆ anc i

/-- A closure in which no two elements are each other's ancestors. -/
structure IsOrder (U : Finset α) (anc : α → Finset α) : Prop extends IsClosure U anc where
  antisymm : ∀ i ∈ U, ∀ j ∈ anc i, i ∈ anc j → j = i

theorem IsClosure.mem_of_mem {U : Finset α} {anc : α → Finset α} (h : IsClosure U anc) {i j k : α}
    (hi : i ∈ U) (hj : j ∈ anc i) (hk : k ∈ anc j) : k ∈ anc i :=
  h.trans i hi j hj hk

/-- Only the sets of elements of `U` matter. -/
theorem IsClosure.congr {U : Finset α} {anc anc' : α → Finset α} (h : IsClosure U anc)
    (heq : ∀ i ∈ U, anc' i = anc i) : IsClosure U anc' := by
  refine ⟨fun i hi => heq i hi ▸ h.refl i hi, fun i hi => heq i hi ▸ h.sub i hi, ?_⟩
  intro i hi j hj
  rw [heq i hi] at hj ⊢
  rw [heq j (h.sub i hi hj)]
  exact h.trans i hi j hj

theorem IsOrder.congr {U : Finset α} {anc anc' : α → Finset α} (h : IsOrder U anc)
    (heq : ∀ i ∈ U, anc' i = anc i) : IsOrder U anc' := by
  refine ⟨h.toIsClosure.congr heq, fun i hi j hj hij => ?_⟩
  rw [heq i hi] at hj
  rw [heq j (h.sub i hi hj)] at hij
  exact h.antisymm i hi j hj hij

/-- Every element on its own. -/
theorem isOrder_singleton (U : Finset α) : IsOrder U fun i => {i} := by
  refine ⟨⟨fun i _ => Finset.mem_singleton_self i, fun i hi => ?_, fun i _ j hj => ?_⟩, ?_⟩
  · exact Finset.singleton_subset_iff.mpr hi
  · rw [Finset.mem_singleton.mp hj]
  · intro i _ j hj _
    exact Finset.mem_singleton.mp hj

variable [DecidableEq α]

/-- A new element on its own, next to an order. -/
theorem IsOrder.insert {U : Finset α} {anc anc' : α → Finset α} {k : α} (h : IsOrder U anc)
    (hk : k ∉ U) (hkk : anc' k = {k}) (heq : ∀ i ∈ U, anc' i = anc i) :
    IsOrder (insert k U) anc' := by
  -- the old elements keep their sets, none of which holds `k`
  have hold : ∀ i ∈ U, ∀ j ∈ anc' i, j ∈ U := fun i hi j hj => h.sub i hi (heq i hi ▸ hj)
  refine ⟨⟨fun i hi => ?_, fun i hi => ?_, fun i hi j hj => ?_⟩, fun i hi j hj hij => ?_⟩
  · rcases Finset.mem_insert.mp hi with rfl | hi
    · simp [hkk]
    · exact heq i hi ▸ h.refl i hi
  · rcases Finset.mem_insert.mp hi with rfl | hi
    · simp [hkk]
    · exact fun j hj => Finset.mem_insert_of_mem (hold i hi j hj)
  · rcases Finset.mem_insert.mp hi with rfl | hi
    · rw [hkk, Finset.mem_singleton] at hj
      rw [hj]
    · have hjU := hold i hi j hj
      rw [heq i hi] at hj ⊢
      rw [heq j hjU]
      exact h.trans i hi j hj
  · rcases Finset.mem_insert.mp hi with rfl | hi
    · rw [hkk, Finset.mem_singleton] at hj
      exact hj
    · have hjU := hold i hi j hj
      rw [heq i hi] at hj
      rw [heq j hjU] at hij
      exact h.antisymm i hi j hj hij

/-- Restricting an order to a subset of its elements. -/
theorem IsOrder.restrict {U V : Finset α} {anc : α → Finset α} (h : IsOrder U anc) (hV : V ⊆ U) :
    IsOrder V fun i => anc i ∩ V := by
  refine ⟨⟨fun i hi => Finset.mem_inter.mpr ⟨h.refl i (hV hi), hi⟩,
    fun i _ => Finset.inter_subset_right, fun i hi j hj k hk => ?_⟩, fun i hi j hj hij => ?_⟩
  · obtain ⟨hj, _⟩ := Finset.mem_inter.mp hj
    obtain ⟨hk, hkV⟩ := Finset.mem_inter.mp hk
    exact Finset.mem_inter.mpr ⟨h.mem_of_mem (hV hi) hj hk, hkV⟩
  · exact h.antisymm i (hV hi) j (Finset.mem_inter.mp hj).1 (Finset.mem_inter.mp hij).1

/-- The ancestor sets after adding edges from `c` to each of `P`: whatever has `c`
as an ancestor gains the ancestors of the parents. -/
def addEdges (anc : α → Finset α) (c : α) (P : Finset α) (x : α) : Finset α :=
  if c ∈ anc x then anc x ∪ P.biUnion anc else anc x

variable {U : Finset α} {anc : α → Finset α}

/-- The new parents are ancestors of `c`. -/
theorem IsClosure.subset_addEdges_self {c : α} {P : Finset α} (h : IsClosure U anc) (hc : c ∈ U)
    (hP : P ⊆ U) : P ⊆ addEdges anc c P c := by
  intro p hp
  rw [Lib.AncestorSets.addEdges, if_pos (h.refl c hc)]
  exact Finset.mem_union_right _ (Finset.mem_biUnion.mpr ⟨p, hp, h.refl p (hP hp)⟩)

theorem IsClosure.addEdges {c : α} {P : Finset α} (h : IsClosure U anc) (hP : P ⊆ U) :
    IsClosure U (addEdges anc c P) := by
  have hQ : P.biUnion anc ⊆ U := Finset.biUnion_subset.mpr fun p hp => h.sub p (hP hp)
  refine ⟨fun i hi => ?_, fun i hi => ?_, fun i hi j hj k hk => ?_⟩
  · unfold Lib.AncestorSets.addEdges
    split <;> simp [h.refl i hi]
  · unfold Lib.AncestorSets.addEdges
    split
    · exact Finset.union_subset (h.sub i hi) hQ
    · exact h.sub i hi
  · -- `j` is an ancestor of `i` either already or through the new edges, and so is `k` of `j`
    have hjU : j ∈ U := by
      unfold Lib.AncestorSets.addEdges at hj
      split at hj
      · rcases Finset.mem_union.mp hj with hj | hj
        · exact h.sub i hi hj
        · exact hQ hj
      · exact h.sub i hi hj
    unfold Lib.AncestorSets.addEdges at hj hk ⊢
    by_cases hci : c ∈ anc i
    · rw [if_pos hci] at hj ⊢
      rcases Finset.mem_union.mp hj with hj | hj
      · -- an old ancestor: its new ancestors are new ancestors of `i`
        by_cases hcj : c ∈ anc j
        · rw [if_pos hcj] at hk
          rcases Finset.mem_union.mp hk with hk | hk
          · exact Finset.mem_union_left _ (h.mem_of_mem hi hj hk)
          · exact Finset.mem_union_right _ hk
        · rw [if_neg hcj] at hk
          exact Finset.mem_union_left _ (h.mem_of_mem hi hj hk)
      · -- an ancestor of a parent: so are its own ancestors
        obtain ⟨p, hp, hjp⟩ := Finset.mem_biUnion.mp hj
        split at hk
        · rcases Finset.mem_union.mp hk with hk | hk
          · exact Finset.mem_union_right _
              (Finset.mem_biUnion.mpr ⟨p, hp, h.mem_of_mem (hP hp) hjp hk⟩)
          · exact Finset.mem_union_right _ hk
        · exact Finset.mem_union_right _
            (Finset.mem_biUnion.mpr ⟨p, hp, h.mem_of_mem (hP hp) hjp hk⟩)
    · rw [if_neg hci] at hj ⊢
      -- `c` is no ancestor of `i`, so none of `j`'s
      have hcj : c ∉ anc j := fun hcj => hci (h.mem_of_mem hi hj hcj)
      rw [if_neg hcj] at hk
      exact h.mem_of_mem hi hj hk

theorem IsOrder.addEdges {c : α} {P : Finset α} (h : IsOrder U anc) (hP : P ⊆ U)
    (hacyclic : ∀ p ∈ P, c ∉ anc p) : IsOrder U (addEdges anc c P) := by
  refine ⟨h.toIsClosure.addEdges hP, fun i hi j hj hij => ?_⟩
  -- nothing the new edges reach lies above `c`
  have hQ : ∀ y ∈ P.biUnion anc, c ∉ anc y := by
    intro y hy hcy
    obtain ⟨p, hp, hyp⟩ := Finset.mem_biUnion.mp hy
    exact hacyclic p hp (h.mem_of_mem (hP hp) hyp hcy)
  have hjU : j ∈ U := (h.toIsClosure.addEdges hP).sub i hi hj
  unfold Lib.AncestorSets.addEdges at hj hij
  by_cases hci : c ∈ anc i
  · rw [if_pos hci] at hj
    rcases Finset.mem_union.mp hj with hj | hj
    · -- an old edge from `i` to `j`, and back either way
      by_cases hcj' : c ∈ anc j
      · rw [if_pos hcj'] at hij
        rcases Finset.mem_union.mp hij with hij | hij
        · exact h.antisymm i hi j hj hij
        · exact absurd hci (hQ i hij)
      · rw [if_neg hcj'] at hij
        exact h.antisymm i hi j hj hij
    · -- a new edge from `i` to `j`: whichever way `i` is above `j`, so would be `c`
      by_cases hcj : c ∈ anc j
      · exact absurd hcj (hQ j hj)
      · rw [if_neg hcj] at hij
        exact absurd (h.mem_of_mem hjU hij hci) (hQ j hj)
  · rw [if_neg hci] at hj
    -- `c` is below neither: only old edges
    have hcj : c ∉ anc j := fun hcj => hci (h.mem_of_mem hi hj hcj)
    rw [if_neg hcj] at hij
    exact h.antisymm i hi j hj hij

/-! ## Reduced parents -/

/-- The strict ancestors of `i` that are ancestors of no other strict ancestor. -/
def reduced (anc : α → Finset α) (i : α) : Finset α :=
  ((anc i).erase i).filter fun p => ∀ q ∈ (anc i).erase i, p ∈ anc q → q = p

/-- `S` covers the strict ancestors of `i`: each is an ancestor of a member of `S`. -/
def Covers (anc : α → Finset α) (i : α) (S : Finset α) : Prop :=
  ∀ j ∈ (anc i).erase i, ∃ p ∈ S, j ∈ anc p

theorem mem_reduced {i p : α} :
    p ∈ reduced anc i ↔ p ∈ (anc i).erase i ∧ ∀ q ∈ (anc i).erase i, p ∈ anc q → q = p :=
  Finset.mem_filter

theorem reduced_subset (i : α) : reduced anc i ⊆ (anc i).erase i := Finset.filter_subset _ _

/-- Every cover by strict ancestors contains the reduced parents. -/
theorem reduced_subset_of_covers {i : α} {S : Finset α} (hS : S ⊆ (anc i).erase i)
    (hc : Covers anc i S) : reduced anc i ⊆ S := by
  intro m hm
  obtain ⟨hmE, hmax⟩ := mem_reduced.mp hm
  obtain ⟨p, hp, hmp⟩ := hc m hmE
  exact hmax p (hS hp) hmp ▸ hp

/-- In an order, the reduced parents cover: above each strict ancestor, one with the
most ancestors is reduced. -/
theorem IsOrder.reduced_covers (h : IsOrder U anc) {i : α} (hi : i ∈ U) :
    Covers anc i (reduced anc i) := by
  intro j hj
  have hjS : j ∈ ((anc i).erase i).filter fun q => j ∈ anc q :=
    Finset.mem_filter.mpr ⟨hj, h.refl j (h.sub i hi (Finset.mem_of_mem_erase hj))⟩
  obtain ⟨p, hpS, hmax⟩ := Finset.exists_max_image _ (fun q => (anc q).card) ⟨j, hjS⟩
  obtain ⟨hpE, hjp⟩ := Finset.mem_filter.mp hpS
  refine ⟨p, mem_reduced.mpr ⟨hpE, fun q hq hpq => ?_⟩, hjp⟩
  have hqU : q ∈ U := h.sub i hi (Finset.mem_of_mem_erase hq)
  have hsub : anc p ⊆ anc q := h.trans q hqU p hpq
  have heq : anc p = anc q :=
    Finset.eq_of_subset_of_card_le hsub (hmax q (Finset.mem_filter.mpr ⟨hq, hsub hjp⟩))
  exact (h.antisymm q hqU p hpq (heq ▸ h.refl q hqU)).symm

/-- No proper subset of the reduced parents covers. -/
theorem reduced_minimal {i : α} {T : Finset α} (hT : T ⊆ reduced anc i) (hc : Covers anc i T) :
    T = reduced anc i :=
  Finset.Subset.antisymm hT (reduced_subset_of_covers (hT.trans (reduced_subset i)) hc)

/-- A strict ancestor above all the others is, alone, a minimal cover. -/
theorem singleton_minimal_cover {i p : α} (hp : (anc i).erase i ⊆ anc p)
    (hne : ((anc i).erase i).Nonempty) :
    Covers anc i {p} ∧ ∀ T ⊆ {p}, Covers anc i T → T = {p} := by
  refine ⟨fun j hj => ⟨p, Finset.mem_singleton_self p, hp hj⟩, fun T hT hcov => ?_⟩
  rcases Finset.subset_singleton_iff.mp hT with rfl | rfl
  · -- the empty set covers no strict ancestor
    obtain ⟨j, hj⟩ := hne
    obtain ⟨q, hq, -⟩ := hcov j hj
    exact absurd hq (Finset.notMem_empty q)
  · rfl

/-- The reduced parents are the only minimal cover. -/
theorem IsOrder.reduced_unique (h : IsOrder U anc) {i : α} (hi : i ∈ U) {S : Finset α}
    (hS : S ⊆ (anc i).erase i) (hc : Covers anc i S)
    (hmin : ∀ T ⊆ S, Covers anc i T → T = S) : S = reduced anc i :=
  (hmin _ (reduced_subset_of_covers hS hc) (h.reduced_covers hi)).symm

/-- A closure that has the edges to the reduced parents has the whole order. -/
theorem IsOrder.subset_of_reduced_subset (h : IsOrder U anc) {anc' : α → Finset α}
    (h' : IsClosure U anc') (hred : ∀ i ∈ U, reduced anc i ⊆ anc' i) :
    ∀ i ∈ U, anc i ⊆ anc' i := by
  -- on the number of ancestors
  intro i
  induction hn : (anc i).card using Nat.strong_induction_on generalizing i with
  | _ n ih =>
  intro hi j hj
  by_cases hji : j = i
  · exact hji ▸ h'.refl i hi
  obtain ⟨p, hp, hjp⟩ := h.reduced_covers hi j (Finset.mem_erase.mpr ⟨hji, hj⟩)
  have hpE := reduced_subset i hp
  have hpi : p ∈ anc i := Finset.mem_of_mem_erase hpE
  have hpU : p ∈ U := h.sub i hi hpi
  -- `p` has fewer ancestors: `i` is not one of them
  have hlt : (anc p).card < n := by
    rw [← hn]
    refine Finset.card_lt_card (Finset.ssubset_iff_subset_ne.mpr ⟨h.trans i hi p hpi, fun heq => ?_⟩)
    exact Finset.ne_of_mem_erase hpE (h.antisymm i hi p hpi (heq ▸ h.refl i hi))
  exact h'.trans i hi p (hred i hi hp) (ih _ hlt p rfl hpU hjp)

end Lib.AncestorSets
