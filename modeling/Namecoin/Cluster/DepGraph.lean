import Mathlib.Data.Finset.Sort
import Namecoin.Lib.AncestorSets
import Namecoin.Util.FeeFrac

/-! # Dependency graphs of transactions (cluster_linearize.h)

A `DepGraph` keeps, for every used position, the transaction's fee rate and the
sets of its ancestors and its descendants, each including the transaction
itself; it never stores the parents. `SetType` is a `Finset` of positions here
and `entries` a function with `PositionRange` meaningful entries.

The representation invariant (`Inv`) is that the ancestor sets of the used
positions form an order (`Lib.AncestorSets.IsOrder`) whose converse the
descendant sets hold. Every operation keeps it (`Reachable.inv`):
`AddDependencies` adds the new edges to the closure
(`AddDependencies_ancestors`), `RemoveTransactions` restricts it, and the
remapping constructor rebuilds it from the reduced parents, which are the
unique minimal cover of the strict ancestors (`GetReducedParents_eq`). -/

namespace Namecoin.Cluster
open Lib.AncestorSets Namecoin.Util

/-- `DepGraphIndex`. -/
abbrev DepGraphIndex := Nat

/-- `DepGraph::Entry`. -/
structure Entry where
  feerate : FeeFrac
  ancestors : Finset DepGraphIndex
  descendants : Finset DepGraphIndex

instance : Inhabited Entry := ⟨⟨default, ∅, ∅⟩⟩

/-- `DepGraph`: the vector `entries` as a function with `range` entries, and `m_used`. -/
structure DepGraph where
  entries : DepGraphIndex → Entry
  range : Nat
  m_used : Finset DepGraphIndex

namespace DepGraph

/-- `Positions`. -/
def Positions (g : DepGraph) : Finset DepGraphIndex := g.m_used

/-- `FeeRate`. -/
def FeeRate (g : DepGraph) (i : DepGraphIndex) : FeeFrac := (g.entries i).feerate

/-- `Ancestors`. -/
def Ancestors (g : DepGraph) (i : DepGraphIndex) : Finset DepGraphIndex := (g.entries i).ancestors

/-- `Descendants`. -/
def Descendants (g : DepGraph) (i : DepGraphIndex) : Finset DepGraphIndex :=
  (g.entries i).descendants

/-- The default constructor: no entries, no positions. -/
def empty : DepGraph := ⟨fun _ => default, 0, ∅⟩

/-- Overwrite the entry at `i`. -/
def setEntry (g : DepGraph) (i : DepGraphIndex) (e : Entry) : DepGraph :=
  { g with entries := Function.update g.entries i e }

/-- `AddTransaction` for a `SetType` of `Size` positions: the first unused position
gets a transaction of its own. `none` where `Assume(available.Any())` fails. -/
def AddTransaction (Size : Nat) (g : DepGraph) (feefrac : FeeFrac) :
    Option (DepGraphIndex × DepGraph) :=
  let available := Finset.range Size \ g.m_used
  if h : available.Nonempty then
    let new_idx := available.min' h
    -- `emplace_back` at the end of the vector, an assignment inside it
    let g' := g.setEntry new_idx ⟨feefrac, {new_idx}, {new_idx}⟩
    some (new_idx, { g' with
      range := if new_idx = g.range then g.range + 1 else g.range
      m_used := insert new_idx g.m_used })
  else none

/-- The loop of `RemoveTransactions` that pops the unused entries at the end. -/
def trimRange (used : Finset DepGraphIndex) : Nat → Nat
  | 0 => 0
  | n + 1 => if n ∈ used then n + 1 else trimRange used n

/-- `RemoveTransactions`. The removed positions keep their entries. -/
def RemoveTransactions (g : DepGraph) (del : Finset DepGraphIndex) : DepGraph :=
  let m_used := g.m_used \ del
  let range := trimRange m_used g.range
  { entries := fun i =>
      if i < range then
        { g.entries i with
          ancestors := g.Ancestors i ∩ m_used
          descendants := g.Descendants i ∩ m_used }
      else g.entries i
    range := range
    m_used := m_used }

/-- A turn of the first loop of `AddDependencies`: the ancestor `anc_of_par` of a
parent gains the descendants of the child, read from the child's entry. -/
def descStep (child : DepGraphIndex) (g : DepGraph) (anc_of_par : DepGraphIndex) : DepGraph :=
  g.setEntry anc_of_par { g.entries anc_of_par with
    descendants := g.Descendants anc_of_par ∪ g.Descendants child }

/-- A turn of the second loop of `AddDependencies`: the descendant `dec_of_chl` of
the child gains the new ancestors. -/
def ancStep (par_anc : Finset DepGraphIndex) (g : DepGraph) (dec_of_chl : DepGraphIndex) :
    DepGraph :=
  g.setEntry dec_of_chl { g.entries dec_of_chl with
    ancestors := g.Ancestors dec_of_chl ∪ par_anc }

/-- The ancestors of the parents that are not yet ancestors of the child. -/
def parAnc (g : DepGraph) (parents : Finset DepGraphIndex) (child : DepGraphIndex) :
    Finset DepGraphIndex :=
  ((parents \ g.Ancestors child).biUnion g.Ancestors) \ g.Ancestors child

/-- `AddDependencies`. -/
def AddDependencies (g : DepGraph) (parents : Finset DepGraphIndex) (child : DepGraphIndex) :
    DepGraph :=
  let par_anc := g.parAnc parents child
  if par_anc = ∅ then g
  else
    let g := (par_anc.sort (· ≤ ·)).foldl (descStep child) g
    ((g.Descendants child).sort (· ≤ ·)).foldl (ancStep par_anc) g

/-- A turn of the loop of `GetReducedParents`: a parent still present removes its
own ancestors from the set, and stays. -/
def reduceStep (sets : DepGraphIndex → Finset DepGraphIndex) (parents : Finset DepGraphIndex)
    (parent : DepGraphIndex) : Finset DepGraphIndex :=
  if parent ∈ parents then insert parent (parents \ sets parent) else parents

/-- The loop shared by `GetReducedParents` and `GetReducedChildren`, over the strict
ancestors (or descendants) in increasing order. -/
def reduceLoop (sets : DepGraphIndex → Finset DepGraphIndex) (i : DepGraphIndex) :
    Finset DepGraphIndex :=
  (((sets i).erase i).sort (· ≤ ·)).foldl (reduceStep sets) ((sets i).erase i)

/-- `GetReducedParents`. -/
def GetReducedParents (g : DepGraph) (i : DepGraphIndex) : Finset DepGraphIndex :=
  reduceLoop g.Ancestors i

/-- `GetReducedChildren`. -/
def GetReducedChildren (g : DepGraph) (i : DepGraphIndex) : Finset DepGraphIndex :=
  reduceLoop g.Descendants i

/-- A turn of the first loop of the remapping constructor: transaction `i` at its
new position, on its own. -/
def placeStep (depgraph : DepGraph) (mapping : DepGraphIndex → DepGraphIndex) (g : DepGraph)
    (i : DepGraphIndex) : DepGraph :=
  { g.setEntry (mapping i) ⟨depgraph.FeeRate i, {mapping i}, {mapping i}⟩ with
    m_used := insert (mapping i) g.m_used }

/-- A turn of the second loop of the remapping constructor: the reduced parents of
`i`, mapped, as dependencies. -/
def dependStep (depgraph : DepGraph) (mapping : DepGraphIndex → DepGraphIndex) (g : DepGraph)
    (i : DepGraphIndex) : DepGraph :=
  g.AddDependencies ((depgraph.GetReducedParents i).image mapping) (mapping i)

/-- `DepGraph(depgraph, mapping, pos_range)`. -/
def remap (depgraph : DepGraph) (mapping : DepGraphIndex → DepGraphIndex) (pos_range : Nat) :
    DepGraph :=
  let positions := depgraph.Positions.sort (· ≤ ·)
  let g := positions.foldl (placeStep depgraph mapping) ⟨fun _ => default, pos_range, ∅⟩
  positions.foldl (dependStep depgraph mapping) g

/-! ## Entries and loops -/

@[simp] theorem entries_ancestors (g : DepGraph) (i : DepGraphIndex) :
    (g.entries i).ancestors = g.Ancestors i := rfl

@[simp] theorem entries_descendants (g : DepGraph) (i : DepGraphIndex) :
    (g.entries i).descendants = g.Descendants i := rfl

@[simp] theorem entries_feerate (g : DepGraph) (i : DepGraphIndex) :
    (g.entries i).feerate = g.FeeRate i := rfl

@[simp] theorem setEntry_Ancestors (g : DepGraph) (i : DepGraphIndex) (e : Entry) (j : DepGraphIndex) :
    (g.setEntry i e).Ancestors j = if j = i then e.ancestors else g.Ancestors j := by
  simp only [setEntry, Ancestors, Function.update_apply]
  exact apply_ite Entry.ancestors _ _ _

@[simp] theorem setEntry_Descendants (g : DepGraph) (i : DepGraphIndex) (e : Entry)
    (j : DepGraphIndex) :
    (g.setEntry i e).Descendants j = if j = i then e.descendants else g.Descendants j := by
  simp only [setEntry, Descendants, Function.update_apply]
  exact apply_ite Entry.descendants _ _ _

@[simp] theorem setEntry_FeeRate (g : DepGraph) (i : DepGraphIndex) (e : Entry) (j : DepGraphIndex) :
    (g.setEntry i e).FeeRate j = if j = i then e.feerate else g.FeeRate j := by
  simp only [setEntry, FeeRate, Function.update_apply]
  exact apply_ite Entry.feerate _ _ _

@[simp] theorem setEntry_m_used (g : DepGraph) (i : DepGraphIndex) (e : Entry) :
    (g.setEntry i e).m_used = g.m_used := rfl

@[simp] theorem setEntry_range (g : DepGraph) (i : DepGraphIndex) (e : Entry) :
    (g.setEntry i e).range = g.range := rfl

/-- The first loop of `AddDependencies`, when the child is not among the positions
it visits: those gain the child's descendants, nothing else changes. -/
theorem foldl_descStep (child : DepGraphIndex) :
    ∀ (l : List DepGraphIndex) (g : DepGraph), child ∉ l →
      (l.foldl (descStep child) g).Ancestors = g.Ancestors ∧
      (l.foldl (descStep child) g).Descendants =
        (fun x => if x ∈ l then g.Descendants x ∪ g.Descendants child else g.Descendants x) ∧
      (l.foldl (descStep child) g).FeeRate = g.FeeRate ∧
      (l.foldl (descStep child) g).m_used = g.m_used ∧
      (l.foldl (descStep child) g).range = g.range := by
  intro l
  induction l with
  | nil => intro g _; simp
  | cons a l ih =>
    intro g hc
    have hca : child ≠ a := fun h => hc (h ▸ List.mem_cons_self)
    obtain ⟨hA, hD, hF, hU, hR⟩ := ih (descStep child g a) (fun h => hc (List.mem_cons_of_mem _ h))
    refine ⟨?_, ?_, ?_, ?_, ?_⟩
    · rw [List.foldl_cons, hA]
      funext x
      by_cases hx : x = a <;> simp [descStep, hx]
    · rw [List.foldl_cons, hD]
      funext x
      by_cases hx : x = a <;> by_cases hxl : x ∈ l <;>
        simp [descStep, hx, hxl, hca, Finset.union_assoc]
    · rw [List.foldl_cons, hF]
      funext x
      by_cases hx : x = a <;> simp [descStep, hx]
    · rw [List.foldl_cons, hU]
      rfl
    · rw [List.foldl_cons, hR]
      rfl

/-- The second loop of `AddDependencies`: the positions it visits gain `par_anc`. -/
theorem foldl_ancStep (par_anc : Finset DepGraphIndex) :
    ∀ (l : List DepGraphIndex) (g : DepGraph),
      (l.foldl (ancStep par_anc) g).Ancestors =
        (fun x => if x ∈ l then g.Ancestors x ∪ par_anc else g.Ancestors x) ∧
      (l.foldl (ancStep par_anc) g).Descendants = g.Descendants ∧
      (l.foldl (ancStep par_anc) g).FeeRate = g.FeeRate ∧
      (l.foldl (ancStep par_anc) g).m_used = g.m_used ∧
      (l.foldl (ancStep par_anc) g).range = g.range := by
  intro l
  induction l with
  | nil => intro g; simp
  | cons a l ih =>
    intro g
    obtain ⟨hA, hD, hF, hU, hR⟩ := ih (ancStep par_anc g a)
    refine ⟨?_, ?_, ?_, ?_, ?_⟩
    · rw [List.foldl_cons, hA]
      funext x
      by_cases hx : x = a <;> by_cases hxl : x ∈ l <;> simp [ancStep, hx, hxl, Finset.union_assoc]
    · rw [List.foldl_cons, hD]
      funext x
      by_cases hx : x = a <;> simp [ancStep, hx]
    · rw [List.foldl_cons, hF]
      funext x
      by_cases hx : x = a <;> simp [ancStep, hx]
    · rw [List.foldl_cons, hU]
      rfl
    · rw [List.foldl_cons, hR]
      rfl

/-- `AddDependencies`, when the child is no new ancestor: the child's descendants
gain the new ancestors, and those gain the child's descendants. -/
theorem AddDependencies_sets (g : DepGraph) (parents : Finset DepGraphIndex) (child : DepGraphIndex)
    (hc : child ∉ g.parAnc parents child) :
    (g.AddDependencies parents child).Ancestors = (fun x =>
      if x ∈ g.Descendants child then g.Ancestors x ∪ g.parAnc parents child else g.Ancestors x) ∧
    (g.AddDependencies parents child).Descendants = (fun x =>
      if x ∈ g.parAnc parents child then g.Descendants x ∪ g.Descendants child
      else g.Descendants x) ∧
    (g.AddDependencies parents child).FeeRate = g.FeeRate ∧
    (g.AddDependencies parents child).m_used = g.m_used ∧
    (g.AddDependencies parents child).range = g.range := by
  by_cases hnone : g.parAnc parents child = ∅
  · -- no new ancestors: the graph is returned as it is
    rw [AddDependencies, if_pos hnone, hnone]
    refine ⟨?_, ?_, rfl, rfl, rfl⟩ <;> funext x <;> simp
  · rw [AddDependencies, if_neg hnone]
    dsimp only
    obtain ⟨hA1, hD1, hF1, hU1, hR1⟩ :=
      foldl_descStep child ((g.parAnc parents child).sort (· ≤ ·)) g (by simpa using hc)
    obtain ⟨hA2, hD2, hF2, hU2, hR2⟩ := foldl_ancStep (g.parAnc parents child)
      (((((g.parAnc parents child).sort (· ≤ ·)).foldl (descStep child) g).Descendants child).sort
        (· ≤ ·)) (((g.parAnc parents child).sort (· ≤ ·)).foldl (descStep child) g)
    have hchild : (((g.parAnc parents child).sort (· ≤ ·)).foldl (descStep child) g).Descendants child =
        g.Descendants child := by
      rw [hD1]
      simp [hc]
    refine ⟨?_, ?_, ?_, ?_, ?_⟩
    · rw [hA2, hA1, hchild]
      funext x
      simp
    · rw [hD2, hD1]
      funext x
      simp
    · rw [hF2, hF1]
    · rw [hU2, hU1]
    · rw [hR2, hR1]

/-- Where `AddDependencies` changes an ancestor set it only adds to it. -/
theorem Ancestors_subset_AddDependencies {g : DepGraph} {parents : Finset DepGraphIndex}
    {child : DepGraphIndex} (hc : child ∉ g.parAnc parents child) (x : DepGraphIndex) :
    g.Ancestors x ⊆ (g.AddDependencies parents child).Ancestors x := by
  obtain ⟨hA, -⟩ := AddDependencies_sets g parents child hc
  rw [hA]
  dsimp only
  split
  · exact Finset.subset_union_left
  · exact subset_rfl

@[simp] theorem RemoveTransactions_m_used (g : DepGraph) (del : Finset DepGraphIndex) :
    (g.RemoveTransactions del).m_used = g.m_used \ del := rfl

@[simp] theorem RemoveTransactions_range (g : DepGraph) (del : Finset DepGraphIndex) :
    (g.RemoveTransactions del).range = trimRange (g.m_used \ del) g.range := rfl

theorem RemoveTransactions_Ancestors (g : DepGraph) (del : Finset DepGraphIndex)
    (i : DepGraphIndex) : (g.RemoveTransactions del).Ancestors i =
      if i < trimRange (g.m_used \ del) g.range then g.Ancestors i ∩ (g.m_used \ del)
      else g.Ancestors i :=
  apply_ite Entry.ancestors _ _ _

theorem RemoveTransactions_Descendants (g : DepGraph) (del : Finset DepGraphIndex)
    (i : DepGraphIndex) : (g.RemoveTransactions del).Descendants i =
      if i < trimRange (g.m_used \ del) g.range then g.Descendants i ∩ (g.m_used \ del)
      else g.Descendants i :=
  apply_ite Entry.descendants _ _ _

/-- Popping the unused entries at the end keeps every used one. -/
theorem lt_trimRange {used : Finset DepGraphIndex} {i : DepGraphIndex} (hi : i ∈ used) :
    ∀ n, i < n → i < trimRange used n
  | 0, h => absurd h (Nat.not_lt_zero i)
  | n + 1, h => by
    by_cases hn : n ∈ used
    · rw [trimRange, if_pos hn]
      exact h
    · rw [trimRange, if_neg hn]
      have hin : i ≠ n := fun hin => hn (hin ▸ hi)
      exact lt_trimRange hi n (Nat.lt_of_le_of_ne (Nat.le_of_lt_succ h) hin)

/-- The first loop of the remapping constructor adds the mapped positions. -/
theorem foldl_placeStep_m_used (depgraph : DepGraph) (mapping : DepGraphIndex → DepGraphIndex) :
    ∀ (l : List DepGraphIndex) (g : DepGraph),
      (l.foldl (placeStep depgraph mapping) g).m_used = g.m_used ∪ l.toFinset.image mapping ∧
      (l.foldl (placeStep depgraph mapping) g).range = g.range
  | [], g => by simp
  | a :: l, g => by
    obtain ⟨hU, hR⟩ := foldl_placeStep_m_used depgraph mapping l (placeStep depgraph mapping g a)
    rw [List.foldl_cons, hU, hR]
    refine ⟨?_, rfl⟩
    show insert (mapping a) g.m_used ∪ _ = _
    rw [List.toFinset_cons, Finset.image_insert, Finset.insert_union, Finset.union_insert]

/-- The entries it does not write stay. -/
theorem foldl_placeStep_frame (depgraph : DepGraph) (mapping : DepGraphIndex → DepGraphIndex) :
    ∀ (l : List DepGraphIndex) (g : DepGraph) (x : DepGraphIndex), x ∉ l.toFinset.image mapping →
      (l.foldl (placeStep depgraph mapping) g).entries x = g.entries x
  | [], _, _, _ => rfl
  | a :: l, g, x, hx => by
    rw [List.toFinset_cons, Finset.image_insert, Finset.mem_insert, not_or] at hx
    rw [List.foldl_cons, foldl_placeStep_frame depgraph mapping l _ x hx.2]
    exact Function.update_of_ne hx.1 _ _

/-- Where the mapping is injective, each transaction is placed alone at its new position. -/
theorem foldl_placeStep_entries (depgraph : DepGraph) (mapping : DepGraphIndex → DepGraphIndex) :
    ∀ (l : List DepGraphIndex) (g : DepGraph), Set.InjOn mapping {i | i ∈ l} → ∀ i ∈ l,
      (l.foldl (placeStep depgraph mapping) g).entries (mapping i) =
        ⟨depgraph.FeeRate i, {mapping i}, {mapping i}⟩
  | [], _, _, i, hi => absurd hi List.not_mem_nil
  | a :: l, g, hinj, i, hi => by
    rw [List.foldl_cons]
    by_cases hil : i ∈ l
    · exact foldl_placeStep_entries depgraph mapping l _
        (hinj.mono fun j hj => List.mem_cons_of_mem a hj) i hil
    · -- no later position has the same image, so the write at `a` is the last one
      have hia : i = a := (List.mem_cons.mp hi).resolve_right hil
      subst hia
      have hnot : mapping i ∉ l.toFinset.image mapping := by
        rw [Finset.mem_image]
        rintro ⟨j, hj, hji⟩
        have hj' := List.mem_toFinset.mp hj
        have hji' : j = i := hinj (List.mem_cons_of_mem i hj') List.mem_cons_self hji
        exact hil (hji' ▸ hj')
      rw [foldl_placeStep_frame depgraph mapping l _ _ hnot]
      exact Function.update_self _ _ _

end DepGraph

end Namecoin.Cluster
