import Mathlib.Tactic
/-!
# Fallible — two computations that fail alike

`Alike E R x y`: both computations return, results that `R` relates, or both fail, with errors that `E` relates.  The
rules follow the way a computation is put together, so that two programs of one shape are compared step by step.
-/
namespace Lib

variable {ε ε' α α' β β' : Type}

/-- A sequence returns exactly when its parts do. -/
theorem bind_returns {x : Except ε α} {f : α → Except ε β} {b : β} :
    (x >>= f) = .ok b ↔ ∃ a, x = .ok a ∧ f a = .ok b := by
  cases x with
  | error e =>
    constructor
    · intro h
      cases h
    · rintro ⟨a, h, -⟩
      cases h
  | ok a =>
    constructor
    · intro h
      exact ⟨a, rfl, h⟩
    · rintro ⟨a', ha, h⟩
      cases ha
      exact h

theorem mapError_returns {w : ε → ε'} {x : Except ε α} {a : α} : x.mapError w = .ok a ↔ x = .ok a := by
  cases x with
  | error e => simp only [Except.mapError, reduceCtorEq]
  | ok b => simp only [Except.mapError, Except.ok.injEq]

inductive Alike (E : ε → ε' → Prop) (R : α → β → Prop) : Except ε α → Except ε' β → Prop
  | ok {a : α} {b : β} : R a b → Alike E R (.ok a) (.ok b)
  | error {e : ε} {e' : ε'} : E e e' → Alike E R (.error e) (.error e')

variable {E : ε → ε' → Prop} {R : α → β → Prop} {S : α' → β' → Prop}

/-- **In sequence**: alike, and then alike from related results. -/
theorem Alike.bind {x : Except ε α} {y : Except ε' β} {f : α → Except ε α'} {g : β → Except ε' β'} (h : Alike E R x y)
    (hf : ∀ a b, R a b → Alike E S (f a) (g b)) : Alike E S (x >>= f) (y >>= g) := by
  cases h with
  | ok hR => exact hf _ _ hR
  | error hE => exact .error hE

/-- What one side does with its result and the other does not. -/
theorem Alike.bind_left {R' : α' → β → Prop} {x : Except ε α} {y : Except ε' β} {f : α → Except ε α'} (h : Alike E R x y)
    (hf : ∀ a b, R a b → ∃ a', f a = .ok a' ∧ R' a' b) : Alike E R' (x >>= f) y := by
  cases h with
  | ok hR =>
    obtain ⟨a', ha', hR'⟩ := hf _ _ hR
    show Alike E R' (f _) _
    rw [ha']
    exact .ok hR'
  | error hE => exact .error hE

/-- **In sequence** after one computation on both sides. -/
theorem Alike.bind_same {x : Except ε α} {f : α → Except ε α'} {g : α → Except ε β'}
    (h : ∀ a, x = .ok a → Alike Eq S (f a) (g a)) : Alike Eq S (x >>= f) (x >>= g) := by
  cases x with
  | ok a => exact h a rfl
  | error e => exact .error rfl

theorem Alike.ite {c : Prop} [Decidable c] {x x' : Except ε α} {y y' : Except ε' β} (ht : c → Alike E R x y)
    (he : ¬ c → Alike E R x' y') : Alike E R (if c then x else x') (if c then y else y') := by
  by_cases hc : c
  · rw [if_pos hc, if_pos hc]
    exact ht hc
  · rw [if_neg hc, if_neg hc]
    exact he hc

theorem Alike.mono {R' : α → β → Prop} {x : Except ε α} {y : Except ε' β} (h : Alike E R x y)
    (hR : ∀ a b, R a b → R' a b) : Alike E R' x y := by
  cases h with
  | ok hab => exact .ok (hR _ _ hab)
  | error hE => exact .error hE

/-- What is related was returned. -/
theorem Alike.returned {x : Except ε α} {y : Except ε' β} (h : Alike E R x y) :
    Alike E (fun a b => x = .ok a ∧ y = .ok b ∧ R a b) x y := by
  cases h with
  | ok hab => exact .ok ⟨rfl, rfl, hab⟩
  | error hE => exact .error hE

/-- A computation is like itself. -/
theorem Alike.refl {R : α → α → Prop} (hR : ∀ a, R a a) (x : Except ε α) : Alike Eq R x x := by
  cases x with
  | ok a => exact .ok (hR a)
  | error e => exact .error rfl

/-- Errors wrapped by `w` on one side. -/
theorem Alike.wrap {ε'' : Type} (w : ε → ε'') {x : Except ε α} {y : Except ε β} (h : Alike Eq R x y) :
    Alike (fun e' e => e' = w e) R (x.mapError w) y := by
  cases h with
  | ok hR => exact .ok hR
  | error hE => exact .error (congrArg w hE)

/-- Two computations that are alike return together. -/
theorem Alike.of_ok {x : Except ε α} {y : Except ε' β} (h : Alike E R x y) {a : α} (hx : x = .ok a) :
    ∃ b, y = .ok b ∧ R a b := by
  cases h with
  | ok hR => cases hx; exact ⟨_, rfl, hR⟩
  | error hE => cases hx

theorem Alike.ok_of {x : Except ε α} {y : Except ε' β} (h : Alike E R x y) {b : β} (hy : y = .ok b) :
    ∃ a, x = .ok a ∧ R a b := by
  cases h with
  | ok hR => cases hy; exact ⟨_, rfl, hR⟩
  | error hE => cases hy

theorem Alike.of_error {x : Except ε α} {y : Except ε' β} (h : Alike E R x y) {e : ε} (hx : x = .error e) :
    ∃ e', y = .error e' ∧ E e e' := by
  cases h with
  | ok hR => cases hx
  | error hE => cases hx; exact ⟨_, rfl, hE⟩

/-- Two computations that are alike up to equality are equal. -/
theorem Alike.eq {x y : Except ε α} (h : Alike Eq Eq x y) : x = y := by
  cases h with
  | ok hab => rw [hab]
  | error hE => rw [hE]

theorem Alike.error_iff {x : Except ε α} {y : Except ε β} (h : Alike Eq R x y) {e : ε} : x = .error e ↔ y = .error e := by
  cases h with
  | ok _ => simp only [reduceCtorEq]
  | error he => rw [he, Except.error.injEq, Except.error.injEq]

end Lib
