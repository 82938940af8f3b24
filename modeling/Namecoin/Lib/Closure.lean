import Mathlib

/-! # Closure of keys under the edges of a finite graph, by rounds

The nodes of a graph are a list; each node has a key, and `edge x a` says that
the node `x` has an edge from the key `a`. `rounds` starts from a list of keys
and each round adds the keys of the nodes with an edge from one found so far,
until a round adds none. A round that does not stop finds a key of a node not
found before, so with one round per node it finds exactly the keys reachable
from the start (`mem_rounds_iff`).

Removing the nodes whose keys lie in a set closed under the edges leaves the
paths that end outside the set as they were (`reflTransGen_filter_iff`). -/

namespace Lib.Closure

open Relation

variable {α κ : Type} [DecidableEq κ] (key : α → κ) (edge : α → κ → Bool)

/-- `b` is the key of a node of `nodes` with an edge from `a`. -/
def Step (nodes : List α) (a b : κ) : Prop := ∃ x ∈ nodes, key x = b ∧ edge x a = true

/-- The keys of the nodes with an edge from one of `found`, that `found` lacks. -/
def newKeys (nodes : List α) (found : List κ) : List κ :=
  (nodes.filter fun x => key x ∉ found && found.any (edge x)).map key

/-- Rounds of `newKeys` until one adds none, or the fuel runs out. -/
def rounds (nodes : List α) : Nat → List κ → List κ
  | 0, found => found
  | fuel + 1, found =>
    if newKeys key edge nodes found = [] then found
    else rounds nodes fuel (found ++ newKeys key edge nodes found)

/-- Keys that hold the target of every step from one of them. -/
def Closed (nodes : List α) (S : List κ) : Prop := ∀ a ∈ S, ∀ b, Step key edge nodes a b → b ∈ S

/-- The keys of the nodes that `found` lacks. -/
abbrev missing (nodes : List α) (found : List κ) : List κ := (nodes.map key).filter (· ∉ found)

variable {key edge} {nodes : List α}

theorem mem_newKeys {found : List κ} {b : κ} :
    b ∈ newKeys key edge nodes found ↔ b ∉ found ∧ ∃ a ∈ found, Step key edge nodes a b := by
  simp only [newKeys, Step, List.mem_map, List.mem_filter, Bool.and_eq_true, decide_eq_true_eq,
    List.any_eq_true]
  constructor
  · rintro ⟨x, ⟨hx, hnew, a, ha, he⟩, rfl⟩
    exact ⟨hnew, a, ha, x, hx, rfl, he⟩
  · rintro ⟨hnew, a, ha, x, hx, rfl, he⟩
    exact ⟨x, ⟨hx, hnew, a, ha, he⟩, rfl⟩

/-- The rounds only add to what they start from. -/
theorem subset_rounds {t : κ} : ∀ {fuel : Nat} {found : List κ}, t ∈ found → t ∈ rounds key edge nodes fuel found
  | 0, _, h => h
  | fuel + 1, found, h => by
    simp only [rounds]
    split
    · exact h
    · exact subset_rounds (List.mem_append_left _ h)

/-- What the rounds find is reachable from where they start. -/
theorem rounds_sound {t : κ} : ∀ {fuel : Nat} {found : List κ}, t ∈ rounds key edge nodes fuel found →
    ∃ r ∈ found, ReflTransGen (Step key edge nodes) r t
  | 0, _, h => ⟨t, h, .refl⟩
  | fuel + 1, found, h => by
    simp only [rounds] at h
    split at h
    · exact ⟨t, h, .refl⟩
    · obtain ⟨r, hr, hrt⟩ := rounds_sound h
      rcases List.mem_append.mp hr with hr | hr
      · exact ⟨r, hr, hrt⟩
      · obtain ⟨-, a, ha, hstep⟩ := Iff.mp mem_newKeys hr
        exact ⟨a, ha, .head hstep hrt⟩

/-- A round that adds finds a missing key, so fewer keys are missing after it. -/
theorem missing_append_lt {found : List κ} (hne : newKeys key edge nodes found ≠ []) :
    (missing key nodes (found ++ newKeys key edge nodes found)).length < (missing key nodes found).length := by
  obtain ⟨b, hb⟩ := List.exists_mem_of_ne_nil _ hne
  have hmiss : missing key nodes (found ++ newKeys key edge nodes found) =
      (missing key nodes found).filter (· ∉ newKeys key edge nodes found) := by
    simp only [missing, List.filter_filter, List.mem_append, not_or, Bool.decide_and, Bool.and_comm]
  rw [hmiss, List.length_filter_lt_length_iff_exists]
  obtain ⟨hnew, -, -, x, hx, rfl, -⟩ := Iff.mp mem_newKeys hb
  exact ⟨key x, List.mem_filter.mpr ⟨List.mem_map_of_mem hx, by simpa using hnew⟩, by simpa using hb⟩

/-- With fuel for every missing key, the rounds end closed: they stop only at a
round that adds nothing. -/
theorem rounds_closed : ∀ {fuel : Nat} {found : List κ}, (missing key nodes found).length ≤ fuel →
    Closed key edge nodes (rounds key edge nodes fuel found)
  | 0, found, h => by
    -- nothing is missing: every key of a node is found
    simp only [rounds]
    intro a _ b ⟨x, hx, hb, _⟩
    have hnil := List.eq_nil_of_length_eq_zero (Nat.le_zero.mp h)
    by_contra hnot
    have : b ∈ missing key nodes found := List.mem_filter.mpr ⟨hb ▸ List.mem_map_of_mem hx, by simpa using hnot⟩
    simp [hnil] at this
  | fuel + 1, found, h => by
    simp only [rounds]
    split
    · rename_i hnil
      intro a ha b hstep
      by_contra hb
      have := Iff.mpr mem_newKeys ⟨hb, a, ha, hstep⟩
      simp [hnil] at this
    · rename_i hne
      exact rounds_closed (Nat.le_of_lt_succ ((missing_append_lt hne).trans_le h))

omit [DecidableEq κ] in
/-- A closed set holds everything reachable from its members. -/
theorem Closed.mem_of_reflTransGen {S : List κ} (hS : Closed key edge nodes S) {r t : κ} (hr : r ∈ S)
    (h : ReflTransGen (Step key edge nodes) r t) : t ∈ S := by
  induction h with
  | refl => exact hr
  | tail _ hstep ih => exact hS _ ih _ hstep

/-- One round per node is enough fuel: at most every key of a node is missing. -/
theorem closed_rounds {roots : List κ} : Closed key edge nodes (rounds key edge nodes nodes.length roots) :=
  rounds_closed ((List.length_filter_le _ _).trans (List.length_map _).le)

/-- One round per node finds exactly the keys reachable from the roots. -/
theorem mem_rounds_iff {roots : List κ} {t : κ} :
    t ∈ rounds key edge nodes nodes.length roots ↔ ∃ r ∈ roots, ReflTransGen (Step key edge nodes) r t := by
  constructor
  · exact rounds_sound
  · rintro ⟨r, hr, h⟩
    exact Closed.mem_of_reflTransGen closed_rounds (subset_rounds hr) h

/-- The keys of the nodes whose keys lie in a closed set form a closed set. -/
theorem Closed.keys_filter {S : List κ} (hS : Closed key edge nodes S) :
    Closed key edge nodes ((nodes.filter fun x => key x ∈ S).map key) := by
  rintro a ha b ⟨x, hx, rfl, he⟩
  obtain ⟨y, hy, rfl⟩ := List.mem_map.mp ha
  have hb : key x ∈ S := hS _ (by simpa using (List.mem_filter.mp hy).2) _ ⟨x, hx, rfl, he⟩
  exact List.mem_map_of_mem (List.mem_filter.mpr ⟨hx, by simpa using hb⟩)

theorem mem_keys_filter {D : List κ} {b : κ} :
    b ∈ (nodes.filter fun x => key x ∉ D).map key ↔ b ∈ nodes.map key ∧ b ∉ D := by
  simp only [List.mem_map, List.mem_filter, decide_eq_true_eq]
  constructor
  · rintro ⟨x, ⟨hx, hD⟩, rfl⟩
    exact ⟨⟨x, hx, rfl⟩, hD⟩
  · rintro ⟨⟨x, hx, rfl⟩, hD⟩
    exact ⟨x, ⟨hx, hD⟩, rfl⟩

omit [DecidableEq κ] in
theorem Step.of_filter {p : α → Bool} {a b : κ} (h : Step key edge (nodes.filter p) a b) :
    Step key edge nodes a b := by
  obtain ⟨x, hx, hb, he⟩ := h
  exact ⟨x, (List.mem_filter.mp hx).1, hb, he⟩

/-- Without the nodes of a closed set, a key outside it is reached from where
it was reached before: no path to it passes through the set. -/
theorem reflTransGen_filter_iff {D : List κ} (hD : Closed key edge nodes D) {a b : κ} (hb : b ∉ D) :
    ReflTransGen (Step key edge (nodes.filter fun x => key x ∉ D)) a b ↔ ReflTransGen (Step key edge nodes) a b := by
  constructor
  · exact ReflTransGen.mono (fun _ _ => Step.of_filter) a b
  · intro h
    induction h with
    | refl => exact .refl
    | @tail y c _ hstep ih =>
      -- the step into `c` starts outside `D`, since `D` is closed
      have hy : y ∉ D := fun hy => hb (hD y hy c hstep)
      obtain ⟨x, hx, rfl, he⟩ := hstep
      exact .tail (ih hy) ⟨x, List.mem_filter.mpr ⟨hx, by simpa using hb⟩, rfl, he⟩

end Lib.Closure
