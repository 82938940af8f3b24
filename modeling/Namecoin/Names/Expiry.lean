import Mathlib.Order.Bounds.Basic
import Namecoin.Names.Consistency

/-! # When a name expires

`ExpireNames (n)` expires the names whose update heights lie in the window
`[n - depth (n - 1), n - depth n]` (main.cpp), the update heights that are
expired at `n` and were not at `n - 1`. Under the expiration depths of
mainnet, testnet and regtest the window never wraps and its assertion holds,
and expiry is monotone in the height, so every update height `h` falls into
exactly one window: that of the least `n` with `h + depth n ≤ n`
(`expireNames_expires_once`). A name that stays at `h` in the expire index is
therefore returned by `ExpireNames` at that height and at no other. -/

namespace Namecoin.Names
open Namecoin.Script

/-- Testnet keeps the expiration depths of mainnet. -/
theorem testNet_expiryRules : ExpiryRules TestNetConsensus :=
  have hr := mainNet_expiryRules
  ⟨hr.depth_pos, hr.depth_mono, hr.depth_step⟩

/-- The rule sets of the three networks. -/
def NetworkRules (rules : ConsensusRules) : Prop :=
  rules = MainNetConsensus ∨ rules = TestNetConsensus ∨ rules = RegTestConsensus

theorem NetworkRules.expiryRules {rules : ConsensusRules} (h : NetworkRules rules) :
    ExpiryRules rules := by
  rcases h with rfl | rfl | rfl
  · exact mainNet_expiryRules
  · exact testNet_expiryRules
  · exact regTest_expiryRules

/-- No network lets a name live longer than 36000 blocks. -/
theorem NetworkRules.depth_le {rules : ConsensusRules} (h : NetworkRules rules) (n : Nat) :
    rules.NameExpirationDepth n ≤ 36000 := by
  rcases h with rfl | rfl | rfl
  · simp only [MainNetConsensus]
    split_ifs <;> omega
  · simp only [TestNetConsensus, MainNetConsensus]
    split_ifs <;> omega
  · simp [RegTestConsensus]

section Rules

variable {rules : ConsensusRules}

/-- The height `h` lies in the window of `ExpireNames (n)`. -/
def inExpireWindow (rules : ConsensusRules) (n h : Nat) : Prop :=
  ∃ a b, expireWindow rules n = .ok (some (a, b)) ∧ a ≤ h ∧ h ≤ b

theorem isExpired_iff {h n : Nat} (hh : h ≠ MEMPOOL_HEIGHT) :
    isExpired rules h n = true ↔ h + rules.NameExpirationDepth n ≤ n := by
  simp [isExpired, hh]

/-- Once expired, a name stays expired. -/
theorem isExpired_mono (hr : ExpiryRules rules) {h n m : Nat} (hn : isExpired rules h n = true)
    (hm : n ≤ m) : isExpired rules h m = true := by
  induction m, hm using Nat.le_induction with
  | base => exact hn
  | succ m _ ih => exact isExpired_succ hr ih

/-- Where names can expire at `n`, the window is `[n - depth (n - 1), n - depth n]`,
and neither subtraction wraps. -/
theorem expireWindow_eq (hr : ExpiryRules rules) {n : Nat} (hn : 1 ≤ n)
    (hd : rules.NameExpirationDepth n ≤ n) :
    rules.NameExpirationDepth (n - 1) ≤ n ∧
      expireWindow rules n =
        .ok (some (n - rules.NameExpirationDepth (n - 1), n - rules.NameExpirationDepth n)) := by
  obtain ⟨m, rfl⟩ : ∃ m, n = m + 1 := ⟨n - 1, by omega⟩
  have hmono := hr.depth_mono m
  have hstep := hr.depth_step m
  rw [Nat.add_sub_cancel]
  refine ⟨by omega, ?_⟩
  have hwin : m + 1 - rules.NameExpirationDepth m ≤ m + 1 - rules.NameExpirationDepth (m + 1) + 1 := by
    omega
  simp [expireWindow, Nat.not_lt.mpr hd, hwin]

/-- A window ends at `n - depth n`, below `n`. -/
theorem expireWindow_some {n a b : Nat} (h : expireWindow rules n = .ok (some (a, b))) :
    0 < n ∧ rules.NameExpirationDepth n ≤ n ∧ b = n - rules.NameExpirationDepth n := by
  rcases Nat.eq_zero_or_pos n with rfl | hpos
  · simp [expireWindow] at h
  by_cases hd : rules.NameExpirationDepth n ≤ n
  · simp only [expireWindow, Nat.pos_iff_ne_zero.mp hpos, if_false, gt_iff_lt,
      Nat.not_lt.mpr hd] at h
    split_ifs at h
    simp only [Except.ok.injEq, Option.some.injEq, Prod.mk.injEq] at h
    exact ⟨hpos, hd, h.2.symm⟩
  · simp [expireWindow, Nat.pos_iff_ne_zero.mp hpos, Nat.lt_of_not_le hd] at h

/-- A window holds the update heights that expire at `n`, whatever their size. -/
theorem inExpireWindow_iff (hr : ExpiryRules rules) {n h : Nat} (hh : h ≠ MEMPOOL_HEIGHT) :
    inExpireWindow rules n h ↔ expiresAt rules h n := by
  obtain ⟨w, hw, hwin⟩ := expireWindow_spec hr n
  by_cases hlt : h < n
  · rw [← hwin h hh hlt]
    simp only [inExpireWindow, hw, Except.ok.injEq]
  · -- a height from `n` on is neither in the window nor expired
    have hpos := hr.depth_pos n
    have hnot : ¬ expiresAt rules h n := by
      rintro ⟨hexp, -⟩
      rw [isExpired_iff hh] at hexp
      omega
    simp only [hnot, iff_false]
    rintro ⟨a, b, hab, -, hb⟩
    obtain ⟨hn, hd, rfl⟩ := expireWindow_some hab
    omega

/-- An update height expires at the least height at which it is expired. -/
theorem expiresAt_iff_isLeast (hr : ExpiryRules rules) {h n : Nat} (hh : h ≠ MEMPOOL_HEIGHT) :
    expiresAt rules h n ↔ IsLeast {m | h + rules.NameExpirationDepth m ≤ m} n := by
  simp only [expiresAt, IsLeast, lowerBounds, Set.mem_ofPred_eq, ← isExpired_iff hh]
  constructor
  · rintro ⟨hexp, hprev⟩
    refine ⟨hexp, fun m hm => ?_⟩
    -- an earlier expiry would last until `n - 1`
    by_contra hlt
    have := isExpired_mono hr hm (show m ≤ n - 1 by omega)
    rw [hprev] at this
    cases this
  · rintro ⟨hexp, hleast⟩
    refine ⟨hexp, ?_⟩
    have hn : 0 < n := by
      rcases Nat.eq_zero_or_pos n with rfl | hn
      · rw [isExpired_iff hh] at hexp
        have := hr.depth_pos 0
        omega
      · exact hn
    cases hprev : isExpired rules h (n - 1)
    · rfl
    · have := hleast hprev
      omega

/-- The names `ExpireNames` returns are those the index lists in its window. -/
theorem ExpireNames_names {n : Nat} {view view' : CoinsView} {undo undo' : CBlockUndo}
    {names : List valtype} (h : ExpireNames rules n view undo = .ok (view', undo', names))
    (name : valtype) :
    name ∈ names ↔ ∃ h', inExpireWindow rules n h' ∧ name ∈ view.GetNamesForHeight h' := by
  unfold ExpireNames at h
  cases hw : expireWindow rules n with
  | error e =>
    rw [hw] at h
    cases h
  | ok w =>
    rw [hw] at h
    cases w with
    | none =>
      simp only [Lib.ExceptM.ok_bind, Lib.ExceptM.pure_eq_ok, Prod.mk.injEq] at h
      simp only [← h.2.2, List.not_mem_nil, false_iff, not_exists, not_and]
      rintro h' ⟨a, b, hab, -⟩
      rw [hw] at hab
      cases hab
    | some ab =>
      obtain ⟨a, b⟩ := ab
      simp only [Lib.ExceptM.ok_bind, Lib.ExceptM.bind_eq_ok, Lib.ExceptM.pure_eq_ok,
        Prod.mk.injEq] at h
      obtain ⟨-, -, -, -, rfl⟩ := h
      rw [mem_namesInWindow]
      constructor
      · rintro ⟨h', ha, hb, hn⟩
        exact ⟨h', ⟨a, b, hw, ha, hb⟩, hn⟩
      · rintro ⟨h', ⟨a', b', hab, ha, hb⟩, hn⟩
        rw [hw, Except.ok.injEq, Option.some.injEq, Prod.mk.injEq] at hab
        obtain ⟨rfl, rfl⟩ := hab
        exact ⟨h', ha, hb, hn⟩

end Rules

/-- Each update height expires exactly once. Under the rules of mainnet,
testnet and regtest, the window of `ExpireNames (n)` at a height where names
can expire neither wraps nor fails its assertion, and holds the update heights
expired at `n` and not at `n - 1`; a name that stays at update height `h` in the
expire index is returned by `ExpireNames` at one height only, the least `n` with
`h + depth n ≤ n`. -/
theorem expireNames_expires_once {rules : ConsensusRules} (hrules : NetworkRules rules) :
    (∀ n, 1 ≤ n → rules.NameExpirationDepth n ≤ n →
      rules.NameExpirationDepth (n - 1) ≤ n ∧
      expireWindow rules n =
        .ok (some (n - rules.NameExpirationDepth (n - 1), n - rules.NameExpirationDepth n)) ∧
      ∀ h, h ≠ MEMPOOL_HEIGHT →
        (n - rules.NameExpirationDepth (n - 1) ≤ h ∧ h ≤ n - rules.NameExpirationDepth n ↔
          isExpired rules h n = true ∧ isExpired rules h (n - 1) = false)) ∧
    ∀ h, h ≠ MEMPOOL_HEIGHT →
      ∃ n, IsLeast {m | h + rules.NameExpirationDepth m ≤ m} n ∧
        ∀ (m : Nat) (name : valtype) (view view' : CoinsView) (undo undo' : CBlockUndo)
          (names : List valtype),
          (∀ h', name ∈ view.GetNamesForHeight h' ↔ h' = h) →
          ExpireNames rules m view undo = .ok (view', undo', names) →
          (name ∈ names ↔ m = n) := by
  have hr := hrules.expiryRules
  refine ⟨fun n hn hd => ?_, fun h hh => ?_⟩
  · obtain ⟨hold, hwin⟩ := expireWindow_eq hr hn hd
    refine ⟨hold, hwin, fun h hh => ?_⟩
    have hiff := inExpireWindow_iff hr (n := n) hh
    simp only [inExpireWindow, hwin, Except.ok.injEq, Option.some.injEq, Prod.mk.injEq] at hiff
    simpa [expiresAt] using hiff
  · -- the least expiry height exists: no network keeps a name beyond 36000 blocks
    have hex : ∃ m, h + rules.NameExpirationDepth m ≤ m :=
      ⟨h + 36000, by have := hrules.depth_le (h + 36000); omega⟩
    have hleast : IsLeast {m | h + rules.NameExpirationDepth m ≤ m} (Nat.find hex) :=
      ⟨Nat.find_spec hex, fun m hm => Nat.find_min' hex hm⟩
    refine ⟨Nat.find hex, hleast, fun m name view view' undo undo' names hidx hexp => ?_⟩
    calc name ∈ names ↔ ∃ h', inExpireWindow rules m h' ∧ name ∈ view.GetNamesForHeight h' :=
          ExpireNames_names hexp name
      _ ↔ inExpireWindow rules m h := by simp only [hidx, exists_eq_right]
      _ ↔ IsLeast {m | h + rules.NameExpirationDepth m ≤ m} m :=
          (inExpireWindow_iff hr hh).trans (expiresAt_iff_isLeast hr hh)
      _ ↔ m = Nat.find hex := ⟨fun hm => hm.unique hleast, fun hm => hm ▸ hleast⟩

theorem expireNames_expires_once_mainNet : NetworkRules MainNetConsensus ∧
    ((∀ n, 1 ≤ n → MainNetConsensus.NameExpirationDepth n ≤ n →
      MainNetConsensus.NameExpirationDepth (n - 1) ≤ n ∧
      expireWindow MainNetConsensus n =
        .ok (some (n - MainNetConsensus.NameExpirationDepth (n - 1),
          n - MainNetConsensus.NameExpirationDepth n)) ∧
      ∀ h, h ≠ MEMPOOL_HEIGHT →
        (n - MainNetConsensus.NameExpirationDepth (n - 1) ≤ h ∧
            h ≤ n - MainNetConsensus.NameExpirationDepth n ↔
          isExpired MainNetConsensus h n = true ∧ isExpired MainNetConsensus h (n - 1) = false)) ∧
    ∀ h, h ≠ MEMPOOL_HEIGHT →
      ∃ n, IsLeast {m | h + MainNetConsensus.NameExpirationDepth m ≤ m} n ∧
        ∀ (m : Nat) (name : valtype) (view view' : CoinsView) (undo undo' : CBlockUndo)
          (names : List valtype),
          (∀ h', name ∈ view.GetNamesForHeight h' ↔ h' = h) →
          ExpireNames MainNetConsensus m view undo = .ok (view', undo', names) →
          (name ∈ names ↔ m = n)) :=
  ⟨Or.inl rfl, expireNames_expires_once (Or.inl rfl)⟩

end Namecoin.Names
