import Mathlib.Tactic
/-!
# Cursor — a cursor over a list, and a machine that follows one

A cursor over `n` elements stands before the first, at one of them, or behind the last.  `Follows` says that a machine
which may get stuck shows, after every move of a walk, what the specification does; a walk is followed exactly when each
of its moves is one the machine gets right.
-/
namespace Lib

inductive Cursor
  | head
  | on (k : ℕ)
  | tail
  deriving DecidableEq, Repr

inductive Move
  | next | prev
  deriving DecidableEq, Repr

namespace Cursor

variable {α : Type} {n k : ℕ} {c : Cursor} {m : Move}

/-- The element at the place; there is none at the ends. -/
def val (l : List α) : Cursor → Option α
  | .on k => l[k]?
  | _ => none

def next (n : ℕ) : Cursor → Cursor
  | .head => if 0 < n then .on 0 else .tail
  | .on k => if k + 1 < n then .on (k + 1) else .tail
  | .tail => .tail

def prev (n : ℕ) : Cursor → Cursor
  | .head => .head
  | .on 0 => .head
  | .on (k + 1) => .on k
  | .tail => if 0 < n then .on (n - 1) else .head

def move (n : ℕ) (c : Cursor) : Move → Cursor
  | .next => c.next n
  | .prev => c.prev n

/-- The place is one of the `n` elements', or an end. -/
def Valid (n : ℕ) : Cursor → Prop
  | .on k => k < n
  | _ => True

theorem Valid.next (h : c.Valid n) : (c.next n).Valid n := by
  cases c with
  | head =>
    by_cases hn : 0 < n
    · simp [Cursor.next, Valid, hn]
    · simp [Cursor.next, Valid, hn]
  | on k =>
    by_cases hk : k + 1 < n
    · simp [Cursor.next, Valid, hk]
    · simp [Cursor.next, Valid, hk]
  | tail => trivial

theorem Valid.prev (h : c.Valid n) : (c.prev n).Valid n := by
  cases c with
  | head => trivial
  | on k =>
    cases k with
    | zero => trivial
    | succ k => exact Nat.lt_of_succ_lt h
  | tail =>
    by_cases hn : 0 < n
    · simp [Cursor.prev, Valid, hn]
    · simp [Cursor.prev, Valid, hn]

theorem Valid.move (h : c.Valid n) (m : Move) : (c.move n m).Valid n := by
  cases m with
  | next => exact h.next
  | prev => exact h.prev

/-- **`prev` undoes `next`** wherever `next` moved. -/
theorem prev_next (h : c.Valid n) (hmoved : c.next n ≠ c) : (c.next n).prev n = c := by
  cases c with
  | head =>
    by_cases hn : 0 < n
    · simp [next, prev, hn]
    · simp [next, prev, hn]
  | on k =>
    by_cases hk : k + 1 < n
    · simp [next, prev, hk]
    · have hlast : n - 1 = k := by
        have hlt : k < n := h
        omega
      simp [next, prev, hk, hlast, Nat.lt_of_le_of_lt (Nat.zero_le k) h]
  | tail => exact absurd rfl hmoved

end Cursor

/-! ## Following a specification -/

variable {σ τ μ : Type} (step : σ → μ → Option σ) (spec : τ → μ → τ)

/-- After every move the machine is not stuck, and shows what the specification does. -/
def Follows (Shows : σ → τ → Prop) (s : σ) (t : τ) : List μ → Prop
  | [] => True
  | m :: ms =>
    match step s m with
    | some s' => Shows s' (spec t m) ∧ Follows Shows s' (spec t m) ms
    | none => False

/-- Every move of a walk satisfies the condition, where the specification stands before it. -/
def Along (Clear : τ → μ → Prop) (t : τ) : List μ → Prop
  | [] => True
  | m :: ms => Clear t m ∧ Along Clear (spec t m) ms

variable {step spec} {Shows : σ → τ → Prop} {Clear : τ → μ → Prop}

instance decidableFollows [∀ s t, Decidable (Shows s t)] :
    ∀ (ms : List μ) (s : σ) (t : τ), Decidable (Follows step spec Shows s t ms)
  | [], _, _ => .isTrue trivial
  | m :: ms, s, t =>
    match hm : step s m with
    | none => .isFalse (by unfold Follows; rw [hm]; exact id)
    | some s' =>
      have := decidableFollows ms s' (spec t m)
      decidable_of_iff (Shows s' (spec t m) ∧ Follows step spec Shows s' (spec t m) ms) (by conv_rhs => unfold Follows; rw [hm])

/-- **A walk is followed exactly when each of its moves is clear**, given that from a state that shows a place a move is
got right exactly when it is clear there. -/
theorem follows_iff (Valid : τ → Prop) (hvalid : ∀ t m, Valid t → Valid (spec t m))
    (hstep : ∀ s t m, Shows s t → Valid t → ((∃ s', step s m = some s' ∧ Shows s' (spec t m)) ↔ Clear t m)) :
    ∀ (ms : List μ) {s : σ} {t : τ}, Shows s t → Valid t → (Follows step spec Shows s t ms ↔ Along spec Clear t ms)
  | [], _, _, _, _ => Iff.rfl
  | m :: ms, s, t, hs, ht => by
    unfold Follows Along
    constructor
    · intro h
      cases hm : step s m with
      | none => rw [hm] at h; exact h.elim
      | some s' =>
        rw [hm] at h
        exact ⟨(hstep s t m hs ht).1 ⟨s', hm, h.1⟩, (follows_iff Valid hvalid hstep ms h.1 (hvalid t m ht)).1 h.2⟩
    · rintro ⟨hm, hrest⟩
      obtain ⟨s', hm, hs'⟩ := (hstep s t m hs ht).2 hm
      rw [hm]
      exact ⟨hs', (follows_iff Valid hvalid hstep ms hs' (hvalid t m ht)).2 hrest⟩

end Lib
