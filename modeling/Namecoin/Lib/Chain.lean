import Mathlib.Data.List.Chain
import Mathlib.Logic.Relation

/-! # Chains of a well-founded relation

Along a chain `a₁ r a₂ r … r aₙ` each element but the last is related to a
later one, the next (`exists_rel_of_ne_getLast`). When `r` is well-founded it
cannot lead back: the last element is related to no element of the chain
(`not_rel_getLast`), and no element occurs twice (`nodup`). -/

namespace Lib.Chain

variable {α : Type} {r : α → α → Prop}

theorem exists_rel_of_ne_getLast {l : List α} (h : l.IsChain r) (hne : l ≠ []) {a : α}
    (ha : a ∈ l) (hlast : a ≠ l.getLast hne) : ∃ b ∈ l, r a b := by
  obtain ⟨s, t, rfl⟩ := List.append_of_mem ha
  cases t with
  | nil => exact absurd (List.getLast_append_singleton s).symm hlast
  | cons b t =>
    have hc : (a :: b :: t).IsChain r := h.right_of_append
    exact ⟨b, by simp, (List.isChain_cons_cons.mp hc).1⟩

theorem not_rel_getLast (wf : WellFounded r) {l : List α} (h : l.IsChain r) (hne : l ≠ [])
    {b : α} (hb : b ∈ l) : ¬ r (l.getLast hne) b := by
  obtain ⟨s, t, rfl⟩ := List.append_of_mem hb
  have hc : (b :: t).IsChain r := h.right_of_append
  rw [List.getLast_append_of_ne_nil hne (List.cons_ne_nil b t)]
  exact wf.asymmetricₙ (List.cons_ne_nil b t) hc

theorem nodup (wf : WellFounded r) {l : List α} (h : l.IsChain r) : l.Nodup := by
  have hp : l.Pairwise (Relation.TransGen r) :=
    List.isChain_iff_pairwise.mp (h.imp fun _ _ => Relation.TransGen.single)
  refine hp.imp fun {a b} hab heq => ?_
  subst heq
  exact wf.transGen.asymmetric a a hab hab

end Lib.Chain
