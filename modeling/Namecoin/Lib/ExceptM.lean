import Mathlib.Logic.Basic

/-! # Except as the monad of checks

A computation in `Except ε` stops at its first failure: a sequence succeeds
when each step does, and fails with the error of the first step that fails.
A loop over a list (`List.foldlM`) succeeds when each turn does: `foldlM_ok`
asks for one turn from every state an invariant of the processed prefix
allows, and gives the whole run with the invariant at its end.

`Post E P x` says that `x` either ends in a value with `P` or fails with an
error that `E` allows; `Post.bind` composes such statements along a
sequence, as the rule of composition does for pre- and postconditions.

`Agree R x y` compares two computations, an implementation and what it is
meant to do: both fail with the same error, or both succeed with values
related by `R`. `Agree.bind` composes such simulations along a sequence. -/

namespace Lib.ExceptM

variable {ε α β : Type}

@[simp] theorem ok_bind {a : α} {f : α → Except ε β} : (Except.ok a >>= f) = f a := rfl

@[simp] theorem error_bind {e : ε} {f : α → Except ε β} : (Except.error e >>= f) = .error e := rfl

@[simp] theorem bind_eq_ok {x : Except ε α} {f : α → Except ε β} {b : β} :
    x >>= f = .ok b ↔ ∃ a, x = .ok a ∧ f a = .ok b := by
  cases x <;> simp

@[simp] theorem bind_eq_error {x : Except ε α} {f : α → Except ε β} {e : ε} :
    x >>= f = .error e ↔ x = .error e ∨ ∃ a, x = .ok a ∧ f a = .error e := by
  cases x <;> simp

@[simp] theorem pure_eq_ok {a b : α} : (pure a : Except ε α) = .ok b ↔ a = b :=
  ⟨Except.ok.inj, fun h => h ▸ rfl⟩

@[simp] theorem pure_ne_error {a : α} {e : ε} : (pure a : Except ε α) ≠ .error e := nofun

@[simp] theorem throw_eq_error {e e' : ε} : (throw e : Except ε α) = .error e' ↔ e = e' :=
  ⟨Except.error.inj, fun h => h ▸ rfl⟩

@[simp] theorem throw_ne_ok {e : ε} {a : α} : (throw e : Except ε α) ≠ .ok a := nofun

/-- `if (cond) return failure;`: a guard that fails with `e` when `cond` holds. -/
def failIf (cond : Prop) [Decidable cond] (e : ε) : Except ε Unit := if cond then .error e else .ok ()

@[simp] theorem failIf_eq_ok {cond : Prop} [Decidable cond] {e : ε} {u : Unit} :
    failIf cond e = .ok u ↔ ¬ cond := by
  unfold failIf
  split <;> simp_all

@[simp] theorem failIf_bind_eq_ok {cond : Prop} [Decidable cond] {e : ε} {f : Unit → Except ε β}
    {b : β} : (failIf cond e >>= f) = .ok b ↔ ¬ cond ∧ f () = .ok b := by
  unfold failIf
  split <;> simp_all

/-- A fold over `l` succeeds, and ends in a state with `P l`, when every turn
succeeds from a state that `P` allows for the prefix processed so far. -/
theorem foldlM_ok {f : α → β → Except ε α} {P : List β → α → Prop} {l : List β}
    (hstep : ∀ pre b post a, l = pre ++ b :: post → P pre a →
      ∃ a', f a b = .ok a' ∧ P (pre ++ [b]) a')
    {a : α} (h0 : P [] a) : ∃ r, l.foldlM f a = .ok r ∧ P l r := by
  -- induction on the part of `l` after the processed prefix `done`
  suffices h : ∀ rest done a, l = done ++ rest → P done a →
      ∃ r, rest.foldlM f a = .ok r ∧ P l r from h l [] a rfl h0
  intro rest
  induction rest with
  | nil =>
    intro done a hl ha
    exact ⟨a, rfl, by simpa [hl] using ha⟩
  | cons b rest ih =>
    intro done a hl ha
    obtain ⟨a', hb, ha'⟩ := hstep done b rest a hl ha
    obtain ⟨r, hr, hP⟩ := ih (done ++ [b]) a' (by simp [hl]) ha'
    exact ⟨r, by simp [List.foldlM_cons, hb, hr], hP⟩

/-- `x` ends in a value with `P`, or fails with an error allowed by `E`. -/
def Post (E : ε → Prop) (P : α → Prop) : Except ε α → Prop
  | .ok a => P a
  | .error e => E e

variable {E : ε → Prop} {P : α → Prop} {Q : β → Prop}

@[simp] theorem post_ok {a : α} : Post E P (.ok a) ↔ P a := Iff.rfl

@[simp] theorem post_error {e : ε} : Post E P (.error e) ↔ E e := Iff.rfl

theorem Post.bind {x : Except ε α} {f : α → Except ε β} (hx : Post E P x)
    (hf : ∀ a, x = .ok a → P a → Post E Q (f a)) : Post E Q (x >>= f) := by
  cases x with
  | error e => exact hx
  | ok a => exact hf a rfl hx

theorem Post.imp {x : Except ε α} {P' : α → Prop} (hx : Post E P x) (h : ∀ a, P a → P' a) :
    Post E P' x := by
  cases x with
  | error e => exact hx
  | ok a => exact h a hx

/-- `x` and `y` fail with one error, or end in values related by `R`. -/
def Agree {γ : Type} (R : α → γ → Prop) : Except ε α → Except ε γ → Prop
  | .ok a, .ok c => R a c
  | .error e, .error e' => e = e'
  | _, _ => False

section Agree

variable {γ δ : Type} {R : α → γ → Prop} {S : β → δ → Prop}

@[simp] theorem agree_ok {a : α} {c : γ} : Agree R (.ok a : Except ε α) (.ok c) ↔ R a c := Iff.rfl

@[simp] theorem agree_error {e e' : ε} : Agree R (.error e : Except ε α) (.error e' : Except ε γ) ↔ e = e' :=
  Iff.rfl

theorem agree_of_ok {x : Except ε α} {y : Except ε γ} {a : α} {c : γ} (hx : x = .ok a) (hy : y = .ok c)
    (h : R a c) : Agree R x y := by
  rw [hx, hy]
  exact h

theorem agree_of_error {x : Except ε α} {y : Except ε γ} {e : ε} (hx : x = .error e) (hy : y = .error e) :
    Agree R x y := by
  rw [hx, hy]
  rfl

/-- Simulations compose along a sequence. -/
theorem Agree.bind {x : Except ε α} {y : Except ε γ} {f : α → Except ε β} {g : γ → Except ε δ}
    (h : Agree R x y) (hf : ∀ a c, x = .ok a → R a c → Agree S (f a) (g c)) :
    Agree S (x >>= f) (y >>= g) := by
  cases x with
  | error e =>
    cases y with
    | error e' => exact h
    | ok c => exact h.elim
  | ok a =>
    cases y with
    | error e' => exact h.elim
    | ok c => exact hf a c rfl h

/-- Where the first computation succeeds, so does the second, with a related value. -/
theorem Agree.of_ok {x : Except ε α} {y : Except ε γ} {a : α} (h : Agree R x y) (hx : x = .ok a) :
    ∃ c, y = .ok c ∧ R a c := by
  subst hx
  cases y with
  | error e => exact h.elim
  | ok c => exact ⟨c, rfl, h⟩

end Agree

end Lib.ExceptM
