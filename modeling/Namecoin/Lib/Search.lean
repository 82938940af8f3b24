import Mathlib.Data.List.Infix

/-! # `std::search` on lists

`search pattern s` is the position `std::search` returns for a range `s` and a
pattern: the first position at which `pattern` starts, or the end of `s` when
it starts nowhere. It is characterised by `MatchAt` at that position and no
match before it (`search_eq_of_matchAt`), and it stays below the end exactly
when the pattern is an infix (`search_lt_length_iff`). -/

namespace Lib.Search

variable {α : Type} [BEq α]

/-- `std::search (s.begin (), s.end (), pattern.begin (), pattern.end ())` as a
position in `s`. -/
def search (pattern : List α) : List α → Nat
  | [] => 0
  | c :: cs => if pattern.isPrefixOf (c :: cs) then 0 else search pattern cs + 1

/-- `pattern` starts at position `i` of `s`. -/
def MatchAt (pattern s : List α) (i : Nat) : Prop := pattern <+: s.drop i

@[simp] theorem search_nil (pattern : List α) : search pattern [] = 0 := rfl

theorem search_cons (pattern : List α) (c : α) (cs : List α) :
    search pattern (c :: cs) = if pattern.isPrefixOf (c :: cs) then 0 else search pattern cs + 1 :=
  rfl

theorem search_le_length (pattern : List α) : ∀ s : List α, search pattern s ≤ s.length
  | [] => Nat.le_refl 0
  | c :: cs => by
    have := search_le_length pattern cs
    rw [search_cons]
    split <;> simp only [List.length_cons] <;> omega

omit [BEq α] in
/-- A list is a prefix of itself after one more `a` exactly when it is all `a`. -/
theorem prefix_cons_append_iff {a : α} {s : List α} :
    ∀ {p : List α}, p <+: a :: (p ++ s) ↔ p = List.replicate p.length a
  | [] => by simp
  | c :: cs => by
    rw [List.cons_append, List.cons_prefix_cons, List.length_cons, List.replicate_succ,
      List.cons.injEq]
    constructor
    · rintro ⟨rfl, hcs⟩
      exact ⟨rfl, Iff.mp prefix_cons_append_iff hcs⟩
    · rintro ⟨rfl, hcs⟩
      exact ⟨rfl, Iff.mpr prefix_cons_append_iff hcs⟩

omit [BEq α] in
/-- A non-empty list with no element in `ys` lies inside `xs` when it is an
infix of `xs ++ ys`. -/
theorem infix_of_infix_append {l xs ys : List α} (hl : l ≠ []) (hdis : ∀ b ∈ l, b ∉ ys)
    (h : l <:+: xs ++ ys) : l <:+: xs := by
  rcases Iff.mp List.infix_append_iff_ne_nil h with hx | hy | ⟨l₁, l₂, -, hl₂, rfl, -, hpre⟩
  · exact hx
  · obtain ⟨b, hb⟩ := List.exists_mem_of_ne_nil l hl
    exact absurd (hy.subset hb) (hdis b hb)
  · obtain ⟨b, hb⟩ := List.exists_mem_of_ne_nil l₂ hl₂
    exact absurd (hpre.subset hb) (hdis b (List.mem_append_right l₁ hb))

section Lawful

variable [LawfulBEq α]

/-- Where `search` stops inside `s`, the pattern starts. -/
theorem matchAt_search (pattern : List α) :
    ∀ s : List α, search pattern s < s.length → MatchAt pattern s (search pattern s)
  | [], h => absurd h (Nat.lt_irrefl 0)
  | c :: cs, h => by
    rw [search_cons] at h ⊢
    split
    · rename_i hp
      exact List.isPrefixOf_iff_prefix.mp hp
    · rename_i hp
      rw [if_neg hp, List.length_cons] at h
      exact matchAt_search pattern cs (by omega)

/-- No match starts before the position `search` returns. -/
theorem not_matchAt_of_lt_search (pattern : List α) :
    ∀ (s : List α) (i : Nat), i < search pattern s → ¬ MatchAt pattern s i
  | [], _, h => absurd h (Nat.not_lt_zero _)
  | c :: cs, i, h => by
    rw [search_cons] at h
    split at h
    · exact absurd h (Nat.not_lt_zero _)
    · rename_i hp
      cases i with
      | zero => exact fun hm => hp (List.isPrefixOf_iff_prefix.mpr hm)
      | succ i => exact not_matchAt_of_lt_search pattern cs i (by omega)

/-- The first match is where `search` stops. -/
theorem search_eq_of_matchAt {pattern s : List α} {i : Nat} (hm : MatchAt pattern s i)
    (hmin : ∀ j < i, ¬ MatchAt pattern s j) (hi : i < s.length ∨ pattern = []) :
    search pattern s = i := by
  rcases Nat.lt_trichotomy (search pattern s) i with hlt | heq | hgt
  · rcases hi with hi | rfl
    · exact absurd (matchAt_search pattern s (by omega)) (hmin _ hlt)
    · exact absurd List.nil_prefix (hmin _ hlt)
  · exact heq
  · exact absurd hm (not_matchAt_of_lt_search pattern s i hgt)

/-- A non-empty pattern is found inside `s` exactly when it is an infix of `s`. -/
theorem search_lt_length_iff {pattern : List α} (hp : pattern ≠ []) (s : List α) :
    search pattern s < s.length ↔ pattern <:+: s := by
  constructor
  · intro h
    have hm := matchAt_search pattern s h
    exact hm.isInfix.trans (List.drop_suffix _ _).isInfix
  · rintro ⟨t, u, rfl⟩
    have hm : MatchAt pattern (t ++ pattern ++ u) t.length := by
      simp [MatchAt, List.append_assoc]
    have hle := Nat.le_of_not_lt fun h : t.length < search pattern (t ++ pattern ++ u) =>
      not_matchAt_of_lt_search pattern _ _ h hm
    have hlen : 0 < pattern.length := List.length_pos_iff.mpr hp
    simp only [List.length_append] at hle ⊢
    omega

theorem search_cons_append_of_ne_replicate {a : α} {p s : List α} (hp : p ≠ [])
    (h : p ≠ List.replicate p.length a) : search p (a :: (p ++ s)) = 1 := by
  have hpos : 0 < (p ++ s).length := by
    rw [List.length_append]
    have := List.length_pos_iff.mpr hp
    omega
  have hself : search p (p ++ s) = 0 :=
    search_eq_of_matchAt (List.prefix_append p s) (fun _ hj => absurd hj (Nat.not_lt_zero _))
      (.inl hpos)
  have hpre : ¬ p.isPrefixOf (a :: (p ++ s)) = true := fun hpre =>
    h (Iff.mp prefix_cons_append_iff (List.isPrefixOf_iff_prefix.mp hpre))
  rw [search_cons, if_neg hpre, hself]

end Lawful

end Lib.Search
