import Mathlib.Tactic
/-!
# Chunks — a list cut into pieces of one length

All pieces are as long but the last, which is always shorter: a list whose length is a multiple of the piece's ends in an
empty piece.
-/
namespace Lib

variable {α : Type}

/-- The pieces of `l`, of length `b`. -/
def chunks (b : ℕ) (l : List α) : List (List α) := (List.range (l.length / b + 1)).map fun k => (l.drop (k * b)).take b

@[simp] theorem chunks_length (b : ℕ) (l : List α) : (chunks b l).length = l.length / b + 1 := by
  rw [chunks, List.length_map, List.length_range]

theorem chunks_getElem? {b k : ℕ} {l : List α} (hk : k ≤ l.length / b) :
    (chunks b l)[k]? = some ((l.drop (k * b)).take b) := by
  rw [chunks, List.getElem?_map, List.getElem?_range (Nat.lt_succ_of_le hk), Option.map_some]

/-- The first `n` pieces are the first `n * b` elements. -/
theorem pieces_flatten (b : ℕ) (l : List α) : ∀ n : ℕ,
    ((List.range n).map fun k => (l.drop (k * b)).take b).flatten = l.take (n * b)
  | 0 => by rw [Nat.zero_mul, List.take_zero]; rfl
  | n + 1 => by
    rw [List.range_succ, List.map_append, List.flatten_append, pieces_flatten b l n, Nat.succ_mul, List.take_add]
    simp only [List.map_cons, List.map_nil, List.flatten_cons, List.flatten_nil, List.append_nil]

/-- **The pieces put together again.** -/
theorem chunks_flatten {b : ℕ} (hb : 0 < b) (l : List α) : (chunks b l).flatten = l := by
  rw [chunks, pieces_flatten, List.take_of_length_le]
  have hdm := Nat.div_add_mod l.length b
  have hlt := Nat.mod_lt l.length hb
  rw [Nat.succ_mul, Nat.mul_comm]
  omega

end Lib
