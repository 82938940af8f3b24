import Namecoin.Cluster.DepGraph

/-! # The representation invariant of `DepGraph`

On the used positions the ancestor sets form an order and the descendant sets
are its converse (`Inv`). `AddTransaction`, `AddDependencies` (with the
preconditions the code asserts, and no parent below the child),
`RemoveTransactions` and the remapping constructor keep it, so every graph built
from the empty one has it (`Reachable.inv`).

On the way: `AddDependencies` adds exactly the new edges to the order
(`Inv.AddDependencies_ancestors`), the loop of `GetReducedParents` computes the
reduced parents of `Lib.AncestorSets` (`reduceLoop_eq`), and the remapping
constructor, which adds the mapped reduced parents one transaction after the
other, rebuilds the mapped order (`remap_ancestors`). -/

namespace Namecoin.Cluster
open Lib.AncestorSets Namecoin.Util

namespace DepGraph

/-- The representation invariant: used positions lie in the range, their ancestor
sets form an order and their descendant sets are the converse. -/
structure Inv (g : DepGraph) : Prop where
  lt_range : ∀ i ∈ g.m_used, i < g.range
  order : IsOrder g.m_used g.Ancestors
  desc_sub : ∀ i ∈ g.m_used, g.Descendants i ⊆ g.m_used
  mem_desc : ∀ i ∈ g.m_used, ∀ j ∈ g.m_used, j ∈ g.Descendants i ↔ i ∈ g.Ancestors j

variable {g : DepGraph}

theorem empty_inv : Inv empty := by
  have hU : empty.m_used = ∅ := rfl
  refine ⟨?_, ⟨⟨?_, ?_, ?_⟩, ?_⟩, ?_, ?_⟩ <;> simp [hU]

/-! ## AddTransaction -/

/-- What `AddTransaction` returns: the least free position below `Size`, holding a
transaction of its own. -/
theorem AddTransaction_some {Size : Nat} {feefrac : FeeFrac} {k : DepGraphIndex} {g' : DepGraph}
    (hadd : g.AddTransaction Size feefrac = some (k, g')) :
    k < Size ∧ k ∉ g.m_used ∧ (∀ j < Size, j ∉ g.m_used → k ≤ j) ∧
      g'.m_used = insert k g.m_used ∧ g'.range = (if k = g.range then g.range + 1 else g.range) ∧
      ∀ j, g'.entries j = if j = k then ⟨feefrac, {k}, {k}⟩ else g.entries j := by
  unfold AddTransaction at hadd
  dsimp only at hadd
  split at hadd
  · rename_i hne
    obtain ⟨rfl, rfl⟩ := Prod.mk.inj (Option.some.inj hadd)
    have hmem := Finset.min'_mem _ hne
    rw [Finset.mem_sdiff, Finset.mem_range] at hmem
    refine ⟨hmem.1, hmem.2, fun j hj hju => Finset.min'_le _ _ ?_, rfl, rfl, fun j => ?_⟩
    · exact Finset.mem_sdiff.mpr ⟨Finset.mem_range.mpr hj, hju⟩
    · exact Function.update_apply _ _ _ _
  · cases hadd

theorem Inv.addTransaction (h : Inv g) {Size : Nat} {feefrac : FeeFrac} {k : DepGraphIndex}
    {g' : DepGraph} (hadd : g.AddTransaction Size feefrac = some (k, g')) : Inv g' := by
  obtain ⟨hkS, hk, hmin, hU, hR, hE⟩ := AddTransaction_some hadd
  have hne : ∀ i ∈ g.m_used, i ≠ k := fun i hi hik => hk (hik ▸ hi)
  -- the range itself is free, so the least free position is at most the range
  have hkR : k ≤ g.range := by
    by_contra hlt
    have hfree : g.range ∉ g.m_used := fun hr => Nat.lt_irrefl _ (h.lt_range _ hr)
    exact hlt (hmin g.range (Nat.lt_trans (Nat.lt_of_not_le hlt) hkS) hfree)
  have hA : ∀ j, g'.Ancestors j = if j = k then {k} else g.Ancestors j := fun j => by
    rw [Ancestors, hE j]
    exact apply_ite Entry.ancestors _ _ _
  have hD : ∀ j, g'.Descendants j = if j = k then {k} else g.Descendants j := fun j => by
    rw [Descendants, hE j]
    exact apply_ite Entry.descendants _ _ _
  refine ⟨?_, ?_, ?_, ?_⟩
  · intro i hi
    rw [hU] at hi
    rw [hR]
    rcases Finset.mem_insert.mp hi with hik | hi
    · rw [hik]
      split
      · rename_i hkr
        rw [hkr]
        exact Nat.lt_succ_self _
      · rename_i hkr
        exact Nat.lt_of_le_of_ne hkR hkr
    · have hlt := h.lt_range i hi
      split
      · exact Nat.lt_succ_of_lt hlt
      · exact hlt
  · rw [hU]
    refine h.order.insert hk (by rw [hA, if_pos rfl]) fun i hi => ?_
    rw [hA, if_neg (hne i hi)]
  · intro i hi
    rw [hU] at hi ⊢
    rcases Finset.mem_insert.mp hi with hik | hi
    · rw [hD, if_pos hik]
      exact Finset.singleton_subset_iff.mpr (Finset.mem_insert_self k _)
    · rw [hD, if_neg (hne i hi)]
      exact (h.desc_sub i hi).trans (Finset.subset_insert k _)
  · -- the new position is related to itself only
    intro i hi j hj
    rw [hU] at hi hj
    rw [hA, hD]
    rcases Finset.mem_insert.mp hi with hik | hi <;> rcases Finset.mem_insert.mp hj with hjk | hj
    · rw [if_pos hik, if_pos hjk, Finset.mem_singleton, Finset.mem_singleton, hik, hjk]
    · rw [if_pos hik, if_neg (hne j hj), Finset.mem_singleton, hik]
      exact ⟨fun hjk => absurd hjk (hne j hj), fun hkj => absurd (h.order.sub j hj hkj) hk⟩
    · rw [if_neg (hne i hi), if_pos hjk, Finset.mem_singleton, hjk]
      exact ⟨fun hki => absurd (h.desc_sub i hi hki) hk, fun hik => absurd hik (hne i hi)⟩
    · rw [if_neg (hne i hi), if_neg (hne j hj)]
      exact h.mem_desc i hi j hj

/-! ## AddDependencies -/

theorem Inv.not_mem_parAnc (h : Inv g) {child : DepGraphIndex} (hc : child ∈ g.m_used)
    (parents : Finset DepGraphIndex) : child ∉ g.parAnc parents child :=
  fun hm => (Finset.mem_sdiff.mp hm).2 (h.order.refl child hc)

/-- Below the child, adding the new ancestors adds the ancestors of all parents. -/
theorem Inv.union_parAnc (h : Inv g) {parents : Finset DepGraphIndex} {child x : DepGraphIndex}
    (hx : x ∈ g.m_used) (hcx : child ∈ g.Ancestors x) :
    g.Ancestors x ∪ g.parAnc parents child = g.Ancestors x ∪ parents.biUnion g.Ancestors := by
  have hcU : child ∈ g.m_used := h.order.sub x hx hcx
  ext y
  simp only [Finset.mem_union, parAnc, Finset.mem_sdiff, Finset.mem_biUnion]
  constructor
  · rintro (hy | ⟨⟨p, ⟨hp, -⟩, hyp⟩, -⟩)
    · exact Or.inl hy
    · exact Or.inr ⟨p, hp, hyp⟩
  · rintro (hy | ⟨p, hp, hyp⟩)
    · exact Or.inl hy
    -- an ancestor of the child is one of `x` already; otherwise its parent is new
    by_cases hyc : y ∈ g.Ancestors child
    · exact Or.inl (h.order.mem_of_mem hx hcx hyc)
    · have hpc : p ∉ g.Ancestors child := fun hpc => hyc (h.order.mem_of_mem hcU hpc hyp)
      exact Or.inr ⟨⟨p, ⟨hp, hpc⟩, hyp⟩, hyc⟩

/-- On the used positions, `AddDependencies` adds the edges from the child to the
parents to the order. -/
theorem Inv.AddDependencies_ancestors (h : Inv g) {parents : Finset DepGraphIndex}
    {child : DepGraphIndex} (hc : child ∈ g.m_used) : ∀ x ∈ g.m_used,
      (g.AddDependencies parents child).Ancestors x = addEdges g.Ancestors child parents x := by
  obtain ⟨hA, -⟩ := AddDependencies_sets g parents child (h.not_mem_parAnc hc parents)
  intro x hx
  have hiff : x ∈ g.Descendants child ↔ child ∈ g.Ancestors x := h.mem_desc child hc x hx
  rw [hA]
  dsimp only
  rw [addEdges]
  by_cases hcx : child ∈ g.Ancestors x
  · rw [if_pos (hiff.mpr hcx), if_pos hcx]
    exact h.union_parAnc hx hcx
  · rw [if_neg (mt hiff.mp hcx), if_neg hcx]

theorem Inv.addDependencies (h : Inv g) {parents : Finset DepGraphIndex} {child : DepGraphIndex}
    (hc : child ∈ g.m_used) (hP : parents ⊆ g.m_used)
    (hacyclic : ∀ p ∈ parents, p ∉ g.Descendants child) : Inv (g.AddDependencies parents child) := by
  obtain ⟨hA, hD, -, hU, hR⟩ := AddDependencies_sets g parents child (h.not_mem_parAnc hc parents)
  have hacyc : ∀ p ∈ parents, child ∉ g.Ancestors p := fun p hp hcp =>
    hacyclic p hp (Iff.mpr (h.mem_desc child hc p (hP hp)) hcp)
  refine ⟨?_, ?_, ?_, ?_⟩
  · rw [hU, hR]
    exact h.lt_range
  · rw [hU]
    exact (h.order.addEdges hP hacyc).congr (h.AddDependencies_ancestors hc)
  · intro x hx
    rw [hU] at hx ⊢
    rw [hD]
    dsimp only
    split
    · exact Finset.union_subset (h.desc_sub x hx) (h.desc_sub child hc)
    · exact h.desc_sub x hx
  · -- a new ancestor of `j` is a new ancestor exactly when `j` is a new descendant
    intro i hi j hj
    rw [hU] at hi hj
    rw [hA, hD]
    have hij := h.mem_desc i hi j hj
    by_cases hip : i ∈ g.parAnc parents child <;> by_cases hjc : j ∈ g.Descendants child <;>
      simp [hip, hjc, hij]

/-! ## RemoveTransactions -/

theorem Inv.removeTransactions (h : Inv g) (del : Finset DepGraphIndex) :
    Inv (g.RemoveTransactions del) := by
  -- the used positions stay below the trimmed range, so each has its sets restricted
  have hlt : ∀ i ∈ g.m_used \ del, i < trimRange (g.m_used \ del) g.range := fun i hi =>
    lt_trimRange hi g.range (h.lt_range i (Finset.mem_sdiff.mp hi).1)
  have hA : ∀ i ∈ g.m_used \ del,
      (g.RemoveTransactions del).Ancestors i = g.Ancestors i ∩ (g.m_used \ del) := fun i hi => by
    rw [RemoveTransactions_Ancestors, if_pos (hlt i hi)]
  have hD : ∀ i ∈ g.m_used \ del,
      (g.RemoveTransactions del).Descendants i = g.Descendants i ∩ (g.m_used \ del) :=
    fun i hi => by rw [RemoveTransactions_Descendants, if_pos (hlt i hi)]
  refine ⟨?_, ?_, ?_, ?_⟩
  · rw [RemoveTransactions_m_used, RemoveTransactions_range]
    exact hlt
  · rw [RemoveTransactions_m_used]
    exact (h.order.restrict Finset.sdiff_subset).congr hA
  · intro i hi
    rw [RemoveTransactions_m_used] at hi ⊢
    rw [hD i hi]
    exact Finset.inter_subset_right
  · intro i hi j hj
    rw [RemoveTransactions_m_used] at hi hj
    rw [hA j hj, hD i hi, Finset.mem_inter, Finset.mem_inter]
    exact and_congr (h.mem_desc i (Finset.mem_sdiff.mp hi).1 j (Finset.mem_sdiff.mp hj).1)
      (iff_of_true hj hi)

/-! ## Reduced parents -/

section Reduce

variable {sets : DepGraphIndex → Finset DepGraphIndex} {i : DepGraphIndex}

/-- What the loop of `GetReducedParents` keeps after visiting `V`: every reduced
parent, only strict ancestors, and beside a reduced parent it visited none of that
parent's ancestors. -/
structure ReduceInv (sets : DepGraphIndex → Finset DepGraphIndex) (i : DepGraphIndex)
    (V cur : Finset DepGraphIndex) : Prop where
  reduced_sub : reduced sets i ⊆ cur
  sub_erase : cur ⊆ (sets i).erase i
  alone : ∀ m ∈ V, m ∈ reduced sets i → ∀ q ∈ cur, q ∈ sets m → q = m

theorem reduceInv_start : ReduceInv sets i ∅ ((sets i).erase i) :=
  ⟨reduced_subset i, subset_rfl, fun m hm => absurd hm (Finset.notMem_empty m)⟩

theorem ReduceInv.step {V cur : Finset DepGraphIndex} (hinv : ReduceInv sets i V cur)
    {p : DepGraphIndex} (hp : p ∈ (sets i).erase i) :
    ReduceInv sets i (insert p V) (reduceStep sets cur p) := by
  by_cases hpc : p ∈ cur
  · rw [reduceStep, if_pos hpc]
    refine ⟨fun m hm => ?_, ?_, ?_⟩
    · -- a reduced parent below `p` is `p`
      by_cases hmp : m ∈ sets p
      · rw [← (mem_reduced.mp hm).2 p hp hmp]
        exact Finset.mem_insert_self p _
      · exact Finset.mem_insert_of_mem (Finset.mem_sdiff.mpr ⟨hinv.reduced_sub hm, hmp⟩)
    · exact Finset.insert_subset hp (Finset.sdiff_subset.trans hinv.sub_erase)
    · intro m hm hmr q hq hqm
      rcases Finset.mem_insert.mp hq with hqp | hq
      · rcases Finset.mem_insert.mp hm with hmp | hm
        · rw [hqp, hmp]
        · rw [hqp] at hqm ⊢
          exact hinv.alone m hm hmr p hpc hqm
      · obtain ⟨hqc, hqp⟩ := Finset.mem_sdiff.mp hq
        rcases Finset.mem_insert.mp hm with hmp | hm
        · exact absurd (hmp ▸ hqm) hqp
        · exact hinv.alone m hm hmr q hqc hqm
  · -- `p` was removed, so it is no reduced parent
    rw [reduceStep, if_neg hpc]
    refine ⟨hinv.reduced_sub, hinv.sub_erase, fun m hm hmr q hq hqm => ?_⟩
    rcases Finset.mem_insert.mp hm with hmp | hm
    · exact absurd (hmp ▸ hinv.reduced_sub hmr) hpc
    · exact hinv.alone m hm hmr q hq hqm

theorem ReduceInv.foldl : ∀ (l : List DepGraphIndex) {V cur : Finset DepGraphIndex},
    ReduceInv sets i V cur → (∀ p ∈ l, p ∈ (sets i).erase i) →
      ReduceInv sets i (V ∪ l.toFinset) (l.foldl (reduceStep sets) cur)
  | [], V, cur, hinv, _ => by simpa using hinv
  | p :: l, V, cur, hinv, hl => by
    have hV : V ∪ (p :: l).toFinset = insert p V ∪ l.toFinset := by
      rw [List.toFinset_cons, Finset.union_insert, Finset.insert_union]
    rw [hV, List.foldl_cons]
    exact ReduceInv.foldl l (hinv.step (hl p List.mem_cons_self))
      fun q hq => hl q (List.mem_cons_of_mem p hq)

/-- In an order, the loop of `GetReducedParents` computes the reduced parents. -/
theorem reduceLoop_eq {U : Finset DepGraphIndex} (h : IsOrder U sets) (hi : i ∈ U) :
    reduceLoop sets i = reduced sets i := by
  have hmem : ∀ p, p ∈ ((sets i).erase i).sort (· ≤ ·) ↔ p ∈ (sets i).erase i :=
    fun p => Finset.mem_sort _
  have hend := ReduceInv.foldl (((sets i).erase i).sort (· ≤ ·)) reduceInv_start
    fun p hp => (hmem p).mp hp
  -- every strict ancestor has been visited
  rw [Finset.empty_union, Finset.sort_toFinset] at hend
  refine Finset.Subset.antisymm (fun q hq => ?_) hend.reduced_sub
  -- a survivor below another strict ancestor would lie below a reduced parent
  have hqE := hend.sub_erase hq
  refine mem_reduced.mpr ⟨hqE, fun q' hq' hqq' => ?_⟩
  obtain ⟨m, hm, hq'm⟩ := h.reduced_covers hi q' hq'
  have hmU : m ∈ U := h.sub i hi (Finset.mem_of_mem_erase (reduced_subset i hm))
  have hqm : q ∈ sets m := h.mem_of_mem hmU hq'm hqq'
  have hmq : q = m := hend.alone m (reduced_subset i hm) hm q hq hqm
  subst hmq
  exact h.antisymm q hmU q' hq'm hqq'

end Reduce

theorem GetReducedParents_eq (h : Inv g) {i : DepGraphIndex} (hi : i ∈ g.m_used) :
    g.GetReducedParents i = reduced g.Ancestors i :=
  reduceLoop_eq h.order hi

/-! ## The remapping constructor -/

section Remap

variable {G : DepGraph} {mapping : DepGraphIndex → DepGraphIndex} {pos_range : Nat}

theorem mem_image_iff_of_injOn (hinj : Set.InjOn mapping G.m_used) {S : Finset DepGraphIndex}
    (hS : S ⊆ G.m_used) {y : DepGraphIndex} (hy : y ∈ G.m_used) :
    mapping y ∈ S.image mapping ↔ y ∈ S := by
  constructor
  · intro hmy
    obtain ⟨z, hz, hzy⟩ := Finset.mem_image.mp hmy
    exact hinj (hS hz) hy hzy ▸ hz
  · exact Finset.mem_image_of_mem mapping

/-- What the second loop of the remapping constructor keeps after the positions `V`:
the invariant on the mapped positions and range, the fee rates, ancestors only where
`G` has them, and the edges to the mapped reduced parents of `V`. -/
structure RemapInv (G : DepGraph) (mapping : DepGraphIndex → DepGraphIndex) (pos_range : Nat)
    (V : Finset DepGraphIndex) (g : DepGraph) : Prop where
  inv : Inv g
  m_used_eq : g.m_used = G.m_used.image mapping
  range_eq : g.range = pos_range
  feerate : ∀ x ∈ G.m_used, g.FeeRate (mapping x) = G.FeeRate x
  upper : ∀ x ∈ G.m_used, g.Ancestors (mapping x) ⊆ (G.Ancestors x).image mapping
  lower : ∀ x ∈ V, (G.GetReducedParents x).image mapping ⊆ g.Ancestors (mapping x)

theorem RemapInv.mapped_mem {V : Finset DepGraphIndex} (hs : RemapInv G mapping pos_range V g)
    {x : DepGraphIndex} (hx : x ∈ G.m_used) : mapping x ∈ g.m_used :=
  hs.m_used_eq ▸ Finset.mem_image_of_mem mapping hx

/-- After the first loop every transaction stands alone at its new position. -/
theorem remapInv_placed (hG : Inv G) (hinj : Set.InjOn mapping G.m_used)
    (hlt : ∀ i ∈ G.m_used, mapping i < pos_range) :
    RemapInv G mapping pos_range ∅
      ((G.Positions.sort (· ≤ ·)).foldl (placeStep G mapping) ⟨fun _ => default, pos_range, ∅⟩) := by
  have hmem : ∀ i, i ∈ G.Positions.sort (· ≤ ·) ↔ i ∈ G.m_used := fun i => Finset.mem_sort _
  obtain ⟨hU, hR⟩ := foldl_placeStep_m_used G mapping (G.Positions.sort (· ≤ ·))
    ⟨fun _ => default, pos_range, ∅⟩
  have hE := foldl_placeStep_entries G mapping (G.Positions.sort (· ≤ ·))
    ⟨fun _ => default, pos_range, ∅⟩ (hinj.mono fun i hi => (hmem i).mp hi)
  rw [Finset.empty_union, Finset.sort_toFinset] at hU
  have hA : ∀ i ∈ G.m_used, ((G.Positions.sort (· ≤ ·)).foldl (placeStep G mapping)
      ⟨fun _ => default, pos_range, ∅⟩).Ancestors (mapping i) = {mapping i} := fun i hi => by
    rw [Ancestors, hE i ((hmem i).mpr hi)]
  have hD : ∀ i ∈ G.m_used, ((G.Positions.sort (· ≤ ·)).foldl (placeStep G mapping)
      ⟨fun _ => default, pos_range, ∅⟩).Descendants (mapping i) = {mapping i} := fun i hi => by
    rw [Descendants, hE i ((hmem i).mpr hi)]
  refine ⟨⟨?_, ?_, ?_, ?_⟩, hU, hR, ?_, ?_, ?_⟩
  · rw [hU, hR]
    intro x hx
    obtain ⟨i, hi, rfl⟩ := Finset.mem_image.mp hx
    exact hlt i hi
  · rw [hU]
    refine (isOrder_singleton _).congr fun x hx => ?_
    obtain ⟨i, hi, rfl⟩ := Finset.mem_image.mp hx
    exact hA i hi
  · rw [hU]
    intro x hx
    obtain ⟨i, hi, rfl⟩ := Finset.mem_image.mp hx
    rw [hD i hi]
    exact Finset.singleton_subset_iff.mpr hx
  · rw [hU]
    intro x hx y hy
    obtain ⟨i, hi, rfl⟩ := Finset.mem_image.mp hx
    obtain ⟨j, hj, rfl⟩ := Finset.mem_image.mp hy
    rw [hA j hj, hD i hi, Finset.mem_singleton, Finset.mem_singleton]
    exact eq_comm
  · intro i hi
    rw [FeeRate, hE i ((hmem i).mpr hi)]
  · intro i hi
    rw [hA i hi]
    exact Finset.singleton_subset_iff.mpr (Finset.mem_image_of_mem mapping (hG.order.refl i hi))
  · intro x hx
    exact absurd hx (Finset.notMem_empty x)

/-- A turn of the second loop: the mapped reduced parents of `i` become parents of
its new position, and that adds nothing `G` does not have. -/
theorem RemapInv.step (hG : Inv G) (hinj : Set.InjOn mapping G.m_used)
    {V : Finset DepGraphIndex} (hs : RemapInv G mapping pos_range V g) {i : DepGraphIndex}
    (hi : i ∈ G.m_used) : RemapInv G mapping pos_range (insert i V) (dependStep G mapping g i) := by
  set P := (G.GetReducedParents i).image mapping with hPdef
  have hredE : ∀ r ∈ G.GetReducedParents i, r ∈ (G.Ancestors i).erase i := fun r hr =>
    reduced_subset i (GetReducedParents_eq hG hi ▸ hr)
  have hredU : ∀ r ∈ G.GetReducedParents i, r ∈ G.m_used := fun r hr =>
    hG.order.sub i hi (Finset.mem_of_mem_erase (hredE r hr))
  have hc : mapping i ∈ g.m_used := hs.mapped_mem hi
  have hP : P ⊆ g.m_used := by
    rw [hs.m_used_eq]
    exact Finset.image_subset_image fun r hr => hredU r hr
  -- the child is no ancestor of a new parent: in `G` that would be a cycle
  have hacyc : ∀ p ∈ P, mapping i ∉ g.Ancestors p := by
    intro p hp hip
    obtain ⟨r, hr, rfl⟩ := Finset.mem_image.mp hp
    have hir : i ∈ G.Ancestors r := Iff.mp
      (mem_image_iff_of_injOn hinj (hG.order.sub r (hredU r hr)) hi) (hs.upper r (hredU r hr) hip)
    have hri := hredE r hr
    exact Finset.ne_of_mem_erase hri (hG.order.antisymm i hi r (Finset.mem_of_mem_erase hri) hir)
  have hacyclic : ∀ p ∈ P, p ∉ g.Descendants (mapping i) := fun p hp hpd =>
    hacyc p hp (Iff.mp (hs.inv.mem_desc _ hc p (hP hp)) hpd)
  have hnot := hs.inv.not_mem_parAnc hc P
  obtain ⟨-, -, hF, hU, hR⟩ := AddDependencies_sets g P (mapping i) hnot
  have hA : ∀ x ∈ g.m_used,
      (g.AddDependencies P (mapping i)).Ancestors x = addEdges g.Ancestors (mapping i) P x :=
    hs.inv.AddDependencies_ancestors hc
  refine ⟨hs.inv.addDependencies hc hP hacyclic, ?_, ?_, ?_, ?_, ?_⟩
  · rw [dependStep, ← hPdef, hU]
    exact hs.m_used_eq
  · rw [dependStep, ← hPdef, hR]
    exact hs.range_eq
  · intro x hx
    rw [dependStep, ← hPdef, hF]
    exact hs.feerate x hx
  · intro x hx
    rw [dependStep, ← hPdef, hA _ (hs.mapped_mem hx), addEdges]
    split
    · -- `i` lies below `x` in `G`, and so do its reduced parents and their ancestors
      rename_i hix
      have hix' : i ∈ G.Ancestors x := Iff.mp
        (mem_image_iff_of_injOn hinj (hG.order.sub x hx) hi) (hs.upper x hx hix)
      refine Finset.union_subset (hs.upper x hx) (Finset.biUnion_subset.mpr fun p hp => ?_)
      obtain ⟨r, hr, rfl⟩ := Finset.mem_image.mp hp
      have hrx : G.Ancestors r ⊆ G.Ancestors x := (hG.order.trans i hi r
        (Finset.mem_of_mem_erase (hredE r hr))).trans (hG.order.trans x hx i hix')
      exact (hs.upper r (hredU r hr)).trans (Finset.image_subset_image hrx)
    · exact hs.upper x hx
  · intro x hx
    rw [dependStep, ← hPdef]
    rcases Finset.mem_insert.mp hx with hxi | hx
    · rw [hxi, hA _ hc]
      exact hs.inv.order.subset_addEdges_self hc hP
    · exact (hs.lower x hx).trans (Ancestors_subset_AddDependencies hnot _)

theorem RemapInv.foldl (hG : Inv G) (hinj : Set.InjOn mapping G.m_used) :
    ∀ (l : List DepGraphIndex) {V : Finset DepGraphIndex} {g : DepGraph},
      (∀ i ∈ l, i ∈ G.m_used) → RemapInv G mapping pos_range V g →
        RemapInv G mapping pos_range (V ∪ l.toFinset) (l.foldl (dependStep G mapping) g)
  | [], V, g, _, hs => by simpa using hs
  | i :: l, V, g, hl, hs => by
    have hV : V ∪ (i :: l).toFinset = insert i V ∪ l.toFinset := by
      rw [List.toFinset_cons, Finset.union_insert, Finset.insert_union]
    rw [hV, List.foldl_cons]
    exact RemapInv.foldl hG hinj l (fun j hj => hl j (List.mem_cons_of_mem i hj))
      (hs.step hG hinj (hl i List.mem_cons_self))

/-- After both loops: the edges to the reduced parents of every position. -/
theorem remapInv_remap (hG : Inv G) (hinj : Set.InjOn mapping G.m_used)
    (hlt : ∀ i ∈ G.m_used, mapping i < pos_range) :
    RemapInv G mapping pos_range G.m_used (G.remap mapping pos_range) := by
  have hs := RemapInv.foldl hG hinj (G.Positions.sort (· ≤ ·))
    (fun i hi => (Finset.mem_sort _).mp hi) (remapInv_placed hG hinj hlt)
  rw [Finset.empty_union, Finset.sort_toFinset] at hs
  exact hs

/-- The remapped graph has the mapped ancestor sets: the closure that the edges to the
mapped reduced parents generate is the whole mapped order. -/
theorem remap_ancestors (hG : Inv G) (hinj : Set.InjOn mapping G.m_used)
    (hlt : ∀ i ∈ G.m_used, mapping i < pos_range) : ∀ i ∈ G.m_used,
      (G.remap mapping pos_range).Ancestors (mapping i) = (G.Ancestors i).image mapping := by
  have hs := remapInv_remap hG hinj hlt
  -- the positions whose images lie below the image of `x`
  have hcl : IsClosure G.m_used fun x => G.m_used.filter
      fun y => mapping y ∈ (G.remap mapping pos_range).Ancestors (mapping x) := by
    refine ⟨fun x hx => ?_, fun x _ => Finset.filter_subset _ _, fun x hx y hy z hz => ?_⟩
    · exact Finset.mem_filter.mpr ⟨hx, hs.inv.order.refl _ (hs.mapped_mem hx)⟩
    · obtain ⟨_, hy⟩ := Finset.mem_filter.mp hy
      obtain ⟨hzU, hz⟩ := Finset.mem_filter.mp hz
      exact Finset.mem_filter.mpr ⟨hzU, hs.inv.order.mem_of_mem (hs.mapped_mem hx) hy hz⟩
  have hsub := hG.order.subset_of_reduced_subset hcl fun x hx r hr => by
    have hrG : r ∈ G.GetReducedParents x := (GetReducedParents_eq hG hx).symm ▸ hr
    exact Finset.mem_filter.mpr ⟨hG.order.sub x hx (Finset.mem_of_mem_erase (reduced_subset x hr)),
      hs.lower x hx (Finset.mem_image_of_mem mapping hrG)⟩
  intro i hi
  refine Finset.Subset.antisymm (hs.upper i hi) fun y hy => ?_
  obtain ⟨z, hz, rfl⟩ := Finset.mem_image.mp hy
  exact (Finset.mem_filter.mp (hsub i hi hz)).2

/-- And the mapped descendant sets, as the converse. -/
theorem remap_descendants (hG : Inv G) (hinj : Set.InjOn mapping G.m_used)
    (hlt : ∀ i ∈ G.m_used, mapping i < pos_range) : ∀ i ∈ G.m_used,
      (G.remap mapping pos_range).Descendants (mapping i) = (G.Descendants i).image mapping := by
  have hs := remapInv_remap hG hinj hlt
  intro i hi
  ext y'
  constructor
  · intro hy'
    have hy'U := hs.inv.desc_sub _ (hs.mapped_mem hi) hy'
    rw [hs.m_used_eq] at hy'U
    obtain ⟨y, hy, rfl⟩ := Finset.mem_image.mp hy'U
    have hiy := Iff.mp (hs.inv.mem_desc _ (hs.mapped_mem hi) _ (hs.mapped_mem hy)) hy'
    rw [remap_ancestors hG hinj hlt y hy] at hiy
    have hiy' := Iff.mp (mem_image_iff_of_injOn hinj (hG.order.sub y hy) hi) hiy
    exact Finset.mem_image_of_mem mapping (Iff.mpr (hG.mem_desc i hi y hy) hiy')
  · intro hy'
    obtain ⟨y, hy, rfl⟩ := Finset.mem_image.mp hy'
    have hyU := hG.desc_sub i hi hy
    apply Iff.mpr (hs.inv.mem_desc _ (hs.mapped_mem hi) _ (hs.mapped_mem hyU))
    rw [remap_ancestors hG hinj hlt y hyU]
    exact Finset.mem_image_of_mem mapping (Iff.mp (hG.mem_desc i hi y hyU) hy)

theorem Inv.remap (hG : Inv G) (hinj : Set.InjOn mapping G.m_used)
    (hlt : ∀ i ∈ G.m_used, mapping i < pos_range) : Inv (G.remap mapping pos_range) :=
  (remapInv_remap hG hinj hlt).inv

end Remap

/-! ## Reachable graphs -/

/-- The graphs that `DepGraph` over a `SetType` of `Size` positions builds from the
empty one, each operation under the preconditions the code asserts (`Assume`) and
`AddDependencies` only with no parent below the child. -/
inductive Reachable (Size : Nat) : DepGraph → Prop
  | empty : Reachable Size empty
  | addTransaction {g g' : DepGraph} {feefrac : FeeFrac} {new_idx : DepGraphIndex} :
      Reachable Size g → g.AddTransaction Size feefrac = some (new_idx, g') → Reachable Size g'
  | addDependencies {g : DepGraph} {parents : Finset DepGraphIndex} {child : DepGraphIndex} :
      Reachable Size g → child ∈ g.Positions → parents ⊆ g.Positions →
      (∀ p ∈ parents, p ∉ g.Descendants child) → Reachable Size (g.AddDependencies parents child)
  | removeTransactions {g : DepGraph} (del : Finset DepGraphIndex) :
      Reachable Size g → Reachable Size (g.RemoveTransactions del)
  | remap {depgraph : DepGraph} {mapping : DepGraphIndex → DepGraphIndex} {pos_range : Nat} :
      Reachable Size depgraph → Set.InjOn mapping depgraph.Positions →
      (∀ i ∈ depgraph.Positions, mapping i < pos_range) →
      Reachable Size (depgraph.remap mapping pos_range)

theorem Reachable.inv {Size : Nat} (h : Reachable Size g) : Inv g := by
  induction h with
  | empty => exact empty_inv
  | addTransaction _ hadd ih => exact ih.addTransaction hadd
  | addDependencies _ hc hP hacyclic ih => exact ih.addDependencies hc hP hacyclic
  | removeTransactions del _ ih => exact ih.removeTransactions del
  | remap _ hinj hlt ih => exact ih.remap hinj hlt

theorem DepGraph_reachable_spec {Size : Nat} (hg : Reachable Size g) :
    (∀ i ∈ g.Positions, i ∈ g.Ancestors i ∧ i ∈ g.Descendants i ∧ g.Ancestors i ⊆ g.Positions ∧
      g.Descendants i ⊆ g.Positions ∧
      (∀ j ∈ g.Positions, j ∈ g.Ancestors i ↔ i ∈ g.Descendants j) ∧
      ∀ j ∈ g.Ancestors i, g.Ancestors j ⊆ g.Ancestors i) ∧
    (∀ (parents : Finset DepGraphIndex) (child : DepGraphIndex), child ∈ g.Positions →
      (g.AddDependencies parents child).Ancestors child =
        g.Ancestors child ∪ parents.biUnion g.Ancestors ∧
      ∀ d ∈ g.Descendants child,
        (g.AddDependencies parents child).Ancestors d = g.Ancestors d ∪ parents.biUnion g.Ancestors) ∧
    (∀ (mapping : DepGraphIndex → DepGraphIndex) (pos_range : Nat), Set.InjOn mapping g.Positions →
      (∀ i ∈ g.Positions, mapping i < pos_range) →
      (g.remap mapping pos_range).Positions = g.Positions.image mapping ∧
      ∀ i ∈ g.Positions, (g.remap mapping pos_range).FeeRate (mapping i) = g.FeeRate i ∧
        (g.remap mapping pos_range).Ancestors (mapping i) = (g.Ancestors i).image mapping ∧
        (g.remap mapping pos_range).Descendants (mapping i) = (g.Descendants i).image mapping) ∧
    (∀ i ∈ g.Positions, g.GetReducedParents i ⊆ (g.Ancestors i).erase i ∧
      Covers g.Ancestors i (g.GetReducedParents i) ∧
      (∀ T ⊆ g.GetReducedParents i, Covers g.Ancestors i T → T = g.GetReducedParents i) ∧
      ∀ S ⊆ (g.Ancestors i).erase i, Covers g.Ancestors i S →
        (∀ T ⊆ S, Covers g.Ancestors i T → T = S) → S = g.GetReducedParents i) := by
  have h := hg.inv
  have hpos : g.Positions = g.m_used := rfl
  rw [hpos]
  refine ⟨fun i hi => ?_, fun parents child hc => ?_, fun mapping pos_range hinj hlt => ?_,
    fun i hi => ?_⟩
  · -- the invariant, read off
    refine ⟨h.order.refl i hi, (h.mem_desc i hi i hi).mpr (h.order.refl i hi), h.order.sub i hi,
      h.desc_sub i hi, fun j hj => (h.mem_desc j hj i hi).symm, fun j hj => h.order.trans i hi j hj⟩
  · -- the child and its descendants have the child among their ancestors
    have hA : ∀ x ∈ g.m_used,
        (g.AddDependencies parents child).Ancestors x = addEdges g.Ancestors child parents x :=
      h.AddDependencies_ancestors hc
    have hbelow : ∀ d ∈ g.Descendants child, (g.AddDependencies parents child).Ancestors d =
        g.Ancestors d ∪ parents.biUnion g.Ancestors := by
      intro d hd
      have hdU := h.desc_sub child hc hd
      rw [hA d hdU, addEdges, if_pos (Iff.mp (h.mem_desc child hc d hdU) hd)]
    exact ⟨hbelow child ((h.mem_desc child hc child hc).mpr (h.order.refl child hc)), hbelow⟩
  · have hs := remapInv_remap h hinj hlt
    refine ⟨hs.m_used_eq, fun i hi => ⟨hs.feerate i hi, remap_ancestors h hinj hlt i hi,
      remap_descendants h hinj hlt i hi⟩⟩
  · rw [GetReducedParents_eq h hi]
    exact ⟨reduced_subset i, h.order.reduced_covers hi, fun T hT hcov => reduced_minimal hT hcov,
      fun S hS hcov hmin => h.order.reduced_unique hi hS hcov hmin⟩

/-- The graph that `AddTransaction` over four positions leaves. -/
def addTx (g : DepGraph) (feefrac : FeeFrac) : DepGraph :=
  ((g.AddTransaction 4 feefrac).map Prod.snd).getD g

/-- Three transactions at positions 0, 1 and 2. -/
def threeTxs : DepGraph := addTx (addTx (addTx empty ⟨1, 1⟩) ⟨2, 1⟩) ⟨3, 1⟩

/-- A chain: the transaction at 1 spends the one at 0, and the one at 2 the one at 1. -/
def chainGraph : DepGraph := (threeTxs.AddDependencies {0} 1).AddDependencies {1} 2

/-- The chain without its first transaction, moved down a position. -/
def chainMoved : DepGraph := (chainGraph.RemoveTransactions {0}).remap (· - 1) 2

theorem DepGraph_reachable_spec_chain :
    Reachable 4 chainMoved ∧ chainGraph.GetReducedParents 2 = {1} ∧
      chainMoved.Positions = {0, 1} ∧ chainMoved.Ancestors 1 = {0, 1} ∧
      chainMoved.Descendants 0 = {0, 1} ∧ chainMoved.GetReducedParents 1 = {0} := by
  have h₃ : Reachable 4 threeTxs :=
    .addTransaction (.addTransaction (.addTransaction .empty
      (show empty.AddTransaction 4 ⟨1, 1⟩ = some (0, addTx empty ⟨1, 1⟩) from rfl))
      (show (addTx empty ⟨1, 1⟩).AddTransaction 4 ⟨2, 1⟩ =
        some (1, addTx (addTx empty ⟨1, 1⟩) ⟨2, 1⟩) from rfl))
      (show (addTx (addTx empty ⟨1, 1⟩) ⟨2, 1⟩).AddTransaction 4 ⟨3, 1⟩ = some (2, threeTxs) from rfl)
  -- the two dependencies, each with the sets of the graph before it in closed form
  obtain ⟨hA₁, hD₁, -, hU₁, hR₁⟩ := AddDependencies_sets threeTxs {0} 1 (by decide)
  have h₄ : Reachable 4 (threeTxs.AddDependencies {0} 1) :=
    .addDependencies h₃ (by decide) (by decide) (by decide)
  have hc₂ : 2 ∉ (threeTxs.AddDependencies {0} 1).parAnc {1} 2 := by
    simp only [parAnc, hA₁]
    decide
  obtain ⟨hA₂, hD₂, -, hU₂, hR₂⟩ := AddDependencies_sets _ {1} 2 hc₂
  have h₅ : Reachable 4 chainGraph :=
    .addDependencies h₄ (by rw [Positions, hU₁]; decide) (by rw [Positions, hU₁]; decide)
      (by rw [hD₁]; decide)
  have hU : chainGraph.m_used = {0, 1, 2} := by rw [chainGraph, hU₂, hU₁]; decide
  have hR : chainGraph.range = 3 := by rw [chainGraph, hR₂, hR₁]; decide
  have hA : chainGraph.Ancestors 1 = {0, 1} ∧ chainGraph.Ancestors 2 = {0, 1, 2} := by
    rw [chainGraph, hA₂]
    simp only [parAnc, hA₁, hD₁]
    decide
  have hD : chainGraph.Descendants 1 = {1, 2} := by
    rw [chainGraph, hD₂]
    simp only [parAnc, hA₁, hD₁]
    decide
  obtain ⟨-, -, -, hreduce⟩ := DepGraph_reachable_spec h₅
  have hred₂ : chainGraph.GetReducedParents 2 = {1} := by
    have hmin := @singleton_minimal_cover _ _ chainGraph.Ancestors 2 1
      (by rw [hA.1, hA.2]; decide) (by rw [hA.2]; decide)
    exact ((hreduce 2 (by rw [Positions, hU]; decide)).2.2.2 {1} (by rw [hA.2]; decide)
      hmin.1 hmin.2).symm
  -- the trimmed chain, and its image under the mapping
  have h₆ : Reachable 4 (chainGraph.RemoveTransactions {0}) := .removeTransactions {0} h₅
  have hU₆ : (chainGraph.RemoveTransactions {0}).Positions = {1, 2} := by
    rw [Positions, RemoveTransactions_m_used, hU]; decide
  have hA₆ : (chainGraph.RemoveTransactions {0}).Ancestors 1 = {1} ∧
      (chainGraph.RemoveTransactions {0}).Ancestors 2 = {1, 2} := by
    rw [RemoveTransactions_Ancestors, RemoveTransactions_Ancestors, hU, hR, hA.1, hA.2]
    decide
  have hD₆ : (chainGraph.RemoveTransactions {0}).Descendants 1 = {1, 2} := by
    rw [RemoveTransactions_Descendants, hU, hR, hD]
    decide
  have hinj : Set.InjOn (· - 1) ((chainGraph.RemoveTransactions {0}).Positions : Set DepGraphIndex) := by
    rw [hU₆]
    intro (a : ℕ) ha (b : ℕ) hb (hab : a - 1 = b - 1)
    have ha' : a = 1 ∨ a = 2 := by simpa using ha
    have hb' : b = 1 ∨ b = 2 := by simpa using hb
    show (a : ℕ) = b
    omega
  have hlt : ∀ i ∈ (chainGraph.RemoveTransactions {0}).Positions, i - 1 < 2 := by
    rw [hU₆]; decide
  obtain ⟨-, -, hremap, -⟩ := DepGraph_reachable_spec h₆
  obtain ⟨hPos, hmapped⟩ := hremap (· - 1) 2 hinj hlt
  have hM : chainMoved.Positions = {0, 1} := by rw [chainMoved, hPos, hU₆]; decide
  have hM₀ : chainMoved.Ancestors 0 = {0} := by
    rw [chainMoved, show (0 : DepGraphIndex) = 1 - 1 from rfl,
      (hmapped 1 (by rw [hU₆]; decide)).2.1, hA₆.1]
    decide
  have hM₁ : chainMoved.Ancestors 1 = {0, 1} := by
    rw [chainMoved, show (1 : DepGraphIndex) = 2 - 1 from rfl,
      (hmapped 2 (by rw [hU₆]; decide)).2.1, hA₆.2]
    decide
  have hMD : chainMoved.Descendants 0 = {0, 1} := by
    rw [chainMoved, show (0 : DepGraphIndex) = 1 - 1 from rfl,
      (hmapped 1 (by rw [hU₆]; decide)).2.2, hD₆]
    decide
  have h₇ : Reachable 4 chainMoved := .remap h₆ hinj hlt
  obtain ⟨-, -, -, hreduce'⟩ := DepGraph_reachable_spec h₇
  have hmin := @singleton_minimal_cover _ _ chainMoved.Ancestors 1 0
    (by rw [hM₁, hM₀]; decide) (by rw [hM₁]; decide)
  exact ⟨h₇, hred₂, hM, hM₁, hMD, ((hreduce' 1 (by rw [hM]; decide)).2.2.2 {0}
    (by rw [hM₁]; decide) hmin.1 hmin.2).symm⟩

end DepGraph

end Namecoin.Cluster
