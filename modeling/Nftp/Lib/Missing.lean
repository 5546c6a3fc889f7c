import Mathlib.Tactic
import Mathlib.Order.Interval.Finset.Nat
/-!
# Missing — the first number missing from a finite set

The position of a receiver that puts numbered pieces back in order: with the pieces `R` in hand, it can go on up to
`firstMissing R`.  A piece other than the first missing one changes nothing; the first missing one carries the position
over the pieces already in hand behind it.
-/
namespace Lib

theorem exists_missing (R : Finset ℕ) : ∃ n, n ∉ R := Infinite.exists_notMem_finset R

/-- The least number not in `R`. -/
def firstMissing (R : Finset ℕ) : ℕ := Nat.find (exists_missing R)

variable {R : Finset ℕ} {m n N : ℕ}

theorem firstMissing_notMem (R : Finset ℕ) : firstMissing R ∉ R := Nat.find_spec (exists_missing R)

theorem mem_of_lt_firstMissing (h : n < firstMissing R) : n ∈ R := by
  have := Nat.find_min (exists_missing R) h
  exact Decidable.not_not.1 this

theorem firstMissing_eq_iff : firstMissing R = m ↔ m ∉ R ∧ ∀ k, k < m → k ∈ R := by
  constructor
  · rintro rfl
    exact ⟨firstMissing_notMem R, fun k => mem_of_lt_firstMissing⟩
  · rintro ⟨hm, hlt⟩
    rcases Nat.lt_trichotomy (firstMissing R) m with h | h | h
    · exact absurd (hlt _ h) (firstMissing_notMem R)
    · exact h
    · exact absurd (mem_of_lt_firstMissing h) hm

@[simp] theorem firstMissing_empty : firstMissing ∅ = 0 := firstMissing_eq_iff.2 ⟨by simp, by simp⟩

/-- **A piece that is not next** does not move the position. -/
theorem firstMissing_insert_of_ne (h : n ≠ firstMissing R) : firstMissing (insert n R) = firstMissing R := by
  refine firstMissing_eq_iff.2 ⟨?_, fun k hk => Finset.mem_insert_of_mem (mem_of_lt_firstMissing hk)⟩
  rw [Finset.mem_insert, not_or]
  exact ⟨h.symm, firstMissing_notMem R⟩

/-- **The piece that is next** moves the position behind it and over the `n` pieces in hand that follow. -/
theorem firstMissing_insert_self (hrun : ∀ i, i < n → firstMissing R + 1 + i ∈ R)
    (hend : firstMissing R + 1 + n ∉ R) : firstMissing (insert (firstMissing R) R) = firstMissing R + 1 + n := by
  refine firstMissing_eq_iff.2 ⟨?_, fun k hk => ?_⟩
  · rw [Finset.mem_insert, not_or]
    exact ⟨by omega, hend⟩
  · rw [Finset.mem_insert]
    rcases Nat.lt_trichotomy k (firstMissing R) with h | h | h
    · exact .inr (mem_of_lt_firstMissing h)
    · exact .inl h
    · have := hrun (k - (firstMissing R + 1)) (by omega)
      rw [show firstMissing R + 1 + (k - (firstMissing R + 1)) = k by omega] at this
      exact .inr this

theorem lt_firstMissing_insert (R : Finset ℕ) : firstMissing R < firstMissing (insert (firstMissing R) R) := by
  by_contra h
  rcases Nat.lt_or_eq_of_le (Nat.le_of_not_lt h) with h | h
  · exact firstMissing_notMem _ (Finset.mem_insert_of_mem (mem_of_lt_firstMissing h))
  · refine firstMissing_notMem (insert (firstMissing R) R) ?_
    rw [h]
    exact Finset.mem_insert_self _ _

theorem firstMissing_le (h : R ⊆ Finset.range N) : firstMissing R ≤ N := by
  by_contra hN
  have := h (mem_of_lt_firstMissing (Nat.lt_of_not_le hN))
  exact absurd this (by simp)

/-- Of the pieces `0 … N - 1`, nothing is missing exactly when the position is `N`. -/
theorem firstMissing_eq_iff_range (h : R ⊆ Finset.range N) : firstMissing R = N ↔ R = Finset.range N := by
  constructor
  · intro hN
    refine Finset.Subset.antisymm h fun k hk => mem_of_lt_firstMissing ?_
    rw [hN]
    exact Finset.mem_range.1 hk
  · rintro rfl
    exact firstMissing_eq_iff.2 ⟨by simp, fun k hk => Finset.mem_range.2 hk⟩

end Lib
