import Mathlib.Tactic
/-!
# Digest — a digest that takes its bytes one by one

The state after one more byte as a function of the state and of the byte.  Where it is injective in each, no two messages
of one length with one digest differ in a single place; and a part in common at the end tells nothing.
-/
namespace Lib

variable {σ β : Type} {step : σ → β → σ}

/-- **What comes after loses nothing.** -/
theorem foldl_cancel (hs : ∀ b, Function.Injective fun s => step s b) : ∀ bs : List β,
    Function.Injective fun s => bs.foldl step s
  | [] => Function.injective_id
  | b :: bs => (foldl_cancel hs bs).comp (hs b)

/-- **One change is seen**, whatever the state before the message. -/
theorem foldl_single (hs : ∀ b, Function.Injective fun s => step s b) (hb : ∀ s, Function.Injective (step s)) :
    ∀ {x y : List β} {i : ℕ} {s : σ}, x.length = y.length → (∀ j, j ≠ i → x[j]? = y[j]?) →
      x.foldl step s = y.foldl step s → x = y
  | [], [], _, _, _, _, _ => rfl
  | a :: x, b :: y, 0, s, hl, hout, h => by
    have htail : x = y := by
      apply List.ext_getElem?
      intro j
      simpa using hout (j + 1) (by simp)
    subst htail
    have hstep : step s a = step s b := foldl_cancel hs x h
    rw [hb s hstep]
  | a :: x, b :: y, i + 1, s, hl, hout, h => by
    have hhead : a = b := by simpa using hout 0 (by simp)
    subst hhead
    have htail : x = y := by
      apply foldl_single hs hb (i := i) (s := step s a) (by simpa using hl) _ h
      intro j hj
      simpa using hout (j + 1) (by simpa using hj)
    rw [htail]

end Lib
