import Nftp.Tables
import Nftp.Lib.Fallible
/-!
# Growth — what the growing of a table costs

`_ht_rehash` moves every node there is, but only when the table is full, into an array twice as large.  The nodes moved
are therefore no more than twice the entries added, and those there were at the start: a table pays for its growth as it
fills.  The array is never larger than what the table once held, twice over.
-/
namespace Nftp

open Lib
open Function (update update_self update_of_ne)

variable {ι κ ν : Type}

/-! ## The nodes moved -/

namespace HashTable

/-- The nodes that `_ht_resize` has `_ht_rehash` move. -/
def resizeMoves (t : HashTable κ ν) (newCapacity : Nat) : Except HtFault Nat :=
  if newCapacity < htMinimumCapacity ∧ ¬ t.capacity > htMinimumCapacity then .ok 0
  else do
    let chains ← t.nodes.upTo t.capacity
    return chains.flatten.length

def adjustMoves (t : HashTable κ ν) (b : Bool) : Except HtFault Nat :=
  if b then t.resizeMoves (t.size * htGrowthFactor) else .ok 0

def insertMoves (t : HashTable κ ν) : Except HtFault Nat := do
  let grow ← t.shouldGrow
  t.adjustMoves grow

def eraseMoves [Key κ] (t : HashTable κ ν) (key : κ) : Except HtFault Nat := do
  let i ← t.index key
  let c ← t.chain i
  match ← t.unlink key c with
  | none => return 0
  | some c => do
    let t := { t.setChain i c with size := t.size - 1 }
    let shrink ← t.shouldShrink
    t.adjustMoves shrink

/-- How far the table is past half full, counted in moves that are still to come. -/
def debt (t : HashTable κ ν) : Nat := t.size * htGrowthFactor - t.capacity

end HashTable

variable [Key κ] {t : HashTable κ ν} {m : Finmap fun _ : κ => ν} {hash : Bytes → UInt64}
  {chains : List (List (Entry κ ν))}

namespace HashTable

theorem Holds.resizeMoves (h : t.Holds hash chains m) (n : ℕ) : ∃ k, t.resizeMoves n = .ok k ∧ k ≤ t.size := by
  unfold HashTable.resizeMoves
  by_cases hstay : n < htMinimumCapacity ∧ ¬ t.capacity > htMinimumCapacity
  · exact ⟨0, if_pos hstay, Nat.zero_le _⟩
  · refine ⟨chains.flatten.length, ?_, Nat.le_of_eq (h.size.trans h.stands.card).symm⟩
    rw [if_neg hstay, h.upTo]
    rfl

/-- An insert moves nodes only when the table is full. -/
theorem Holds.insertMoves (h : t.Holds hash chains m) :
    ∃ k, t.insertMoves = .ok k ∧ k ≤ if t.size = t.capacity then t.size else 0 := by
  unfold HashTable.insertMoves shouldGrow
  rw [if_pos h.room, ok_bind]
  by_cases hfull : t.size = t.capacity
  · obtain ⟨k, hk, hle⟩ := h.resizeMoves (t.size * htGrowthFactor)
    exact ⟨k, by simpa [adjustMoves, hfull] using hk, by simpa [hfull] using hle⟩
  · exact ⟨0, by simp [adjustMoves, hfull], by simp⟩

/-- An erase moves none: the array is changed when there is no node left. -/
theorem Holds.eraseMoves [DecidableEq κ] (h : t.Holds hash chains m) (k : κ) : t.eraseMoves k = .ok 0 := by
  obtain ⟨c, hc, hchain⟩ := h.key_chain k
  have hmem := h.stands.mem hc
  unfold HashTable.eraseMoves
  by_cases hkc : k ∈ c.keys
  · have h₁ := h.unlinked (hmem.2 hkc) hc hkc
    simp only [index_eq h.hash_eq h.pos, ok_bind, hchain, unlink_eq h.compare_eq, if_pos hkc, setChain_eq h.nodes_eq]
    generalize hu : ({ t with
      nodes := .array (chains.set (htPlace hash t.capacity k) (c.kerase k)), size := t.size - 1 } : HashTable κ ν) = u at h₁ ⊢
    rw [shouldShrink, if_pos h₁.room, ok_bind]
    by_cases hempty : u.size = u.capacity * htShrinkThreshold
    · obtain ⟨j, hj, hle⟩ := h₁.resizeMoves (u.size * htGrowthFactor)
      have hzero : u.size = 0 := hempty.trans (Nat.mul_zero _)
      obtain rfl : j = 0 := by omega
      simpa [adjustMoves, hempty] using hj
    · simp [adjustMoves, hempty]
  · simp only [index_eq h.hash_eq h.pos, ok_bind, hchain, unlink_eq h.compare_eq, if_neg hkc]
    rfl

end HashTable

/-! ## One call -/

variable [DecidableEq ι] {f f' : ι → HashTable κ ν} {g : Maps ι κ ν} {i : ι} {a : HtAns κ ν} {c : HtCall ι κ ν}

def HtCall.moves (f : ι → HashTable κ ν) (i : ι) : HtCall ι κ ν → Except HtFault ℕ
  | .insert j _ _ => if j = i then (f i).insertMoves else .ok 0
  | .erase j key => if j = i then (f i).eraseMoves key else .ok 0
  | _ => .ok 0

/-- The table `i` is not set up anew, reserved, or given another table's array. -/
def HtCall.Steady (i : ι) : HtCall ι κ ν → Prop
  | .setup j _ => j ≠ i
  | .copy first _ => first ≠ i
  | .move first second => first ≠ i ∧ second ≠ i
  | .swap first second => first ≠ i ∧ second ≠ i
  | .destroy j => j ≠ i
  | .reserve j _ => j ≠ i
  | _ => True

/-- The call adds an entry to the table `i`. -/
def HtCall.insertsInto (i : ι) : HtCall ι κ ν → Bool
  | .insert j _ _ => j = i
  | _ => false

def HtAns.isInserted : HtAns κ ν → Bool
  | .code rv => rv = htInserted
  | _ => false

/-- A call with its answer, and the nodes of the table `i` it moves. -/
structure Moving (ι κ ν : Type) where
  call : HtCall ι κ ν
  ans : HtAns κ ν
  moved : ℕ

def Moving.adds (i : ι) (x : Moving ι κ ν) : Bool := x.call.insertsInto i && x.ans.isInserted

/-- A careful call that leaves the table `i` where it is. -/
def MovingStep (i : ι) (f : ι → HashTable κ ν) (x : Moving ι κ ν) (f' : ι → HashTable κ ν) : Prop :=
  CarefulStep f (x.call, x.ans) f' ∧ x.call.Steady i ∧ x.call.moves f i = .ok x.moved

/-- The array of the table `i` may change. -/
def HtCall.Writes (i : ι) : HtCall ι κ ν → Prop
  | .insert j _ _ => j = i
  | .erase j _ => j = i
  | .clear j => j = i
  | _ => False

/-- What a steady call does not write it leaves as it was, and moves none of its nodes. -/
theorem htCall_elsewhere (hs : htCall f c = .ok (a, f')) (hc : c.Steady i) (hw : ¬ c.Writes i) :
    f' i = f i ∧ c.moves f i = .ok 0 := by
  cases c with
  | setup j n =>
    cases hs
    exact ⟨update_of_ne (Ne.symm hc) _ _, rfl⟩
  | copy first second =>
    obtain ⟨⟨rv, t⟩, -, hs⟩ := bind_returns.1 hs
    cases hs
    exact ⟨update_of_ne (Ne.symm hc) _ _, rfl⟩
  | move first second =>
    obtain ⟨⟨rv, t, u⟩, -, hs⟩ := bind_returns.1 hs
    cases hs
    exact ⟨by rw [update_of_ne (Ne.symm hc.2), update_of_ne (Ne.symm hc.1)], rfl⟩
  | swap first second =>
    obtain ⟨⟨rv, t, u⟩, -, hs⟩ := bind_returns.1 hs
    cases hs
    exact ⟨by rw [update_of_ne (Ne.symm hc.2), update_of_ne (Ne.symm hc.1)], rfl⟩
  | destroy j =>
    obtain ⟨⟨rv, t⟩, -, hs⟩ := bind_returns.1 hs
    cases hs
    exact ⟨update_of_ne (Ne.symm hc) _ _, rfl⟩
  | insert j key value =>
    obtain ⟨⟨rv, t⟩, -, hs⟩ := bind_returns.1 hs
    cases hs
    exact ⟨update_of_ne (Ne.symm hw) _ _, if_neg hw⟩
  | contains j key =>
    obtain ⟨rv, -, hs⟩ := bind_returns.1 hs
    cases hs
    exact ⟨rfl, rfl⟩
  | lookup j key =>
    obtain ⟨value, -, hs⟩ := bind_returns.1 hs
    cases hs
    exact ⟨rfl, rfl⟩
  | erase j key =>
    obtain ⟨⟨rv, t⟩, -, hs⟩ := bind_returns.1 hs
    cases hs
    exact ⟨update_of_ne (Ne.symm hw) _ _, if_neg hw⟩
  | clear j =>
    obtain ⟨⟨rv, t⟩, -, hs⟩ := bind_returns.1 hs
    cases hs
    exact ⟨update_of_ne (Ne.symm hw) _ _, rfl⟩
  | isEmpty j =>
    cases hs
    exact ⟨rfl, rfl⟩
  | reserve j n =>
    obtain ⟨⟨rv, t⟩, -, hs⟩ := bind_returns.1 hs
    cases hs
    exact ⟨update_of_ne (Ne.symm hc) _ _, rfl⟩
  | iterate j =>
    obtain ⟨entries, -, hs⟩ := bind_returns.1 hs
    cases hs
    exact ⟨rfl, rfl⟩

/-- The array after one call: the one there was, the smallest one, or one for twice the entries. -/
def Sized (t t' : HashTable κ ν) : Prop :=
  t'.capacity = t.capacity ∨ t'.capacity = htMinimumCapacity ∨ t'.capacity = t.size * htGrowthFactor

variable [DecidableEq κ] {x : Moving ι κ ν}

/-- The moves a call adds to those to come. -/
def Moving.credit (i : ι) (x : Moving ι κ ν) : ℕ := if x.adds i then htGrowthFactor else 0

omit [Key κ] [DecidableEq κ] in
theorem credit_insert (i : ι) (key : κ) (value : ν) (found : Prop) [Decidable found] (n : ℕ) :
    Moving.credit i ⟨.insert i key value, .code (if found then htUpdated else htInserted), n⟩ =
      if found then 0 else htGrowthFactor := by
  by_cases hk : found
  · simp [Moving.credit, Moving.adds, HtAns.isInserted, hk, htUpdated, htInserted]
  · simp [Moving.credit, Moving.adds, HtCall.insertsInto, HtAns.isInserted, hk]

theorem HashTable.Holds.insert_paid (hi : t.Holds hash chains m) (hlt : t.grown < 2 ^ 61) (key : κ) (value : ν) : ∃ t' n,
    t.insert key value = .ok (if key ∈ m then htUpdated else htInserted, t') ∧ t.insertMoves = .ok n ∧ t'.isUp ∧
      Sized t t' ∧ n + t'.debt ≤ t.debt + if key ∈ m then 0 else htGrowthFactor := by
  obtain ⟨chains', t', hrun, hi', hcap⟩ := hi.insert hlt key value
  obtain ⟨n, hn, hle⟩ := hi.insertMoves
  have hsize : t'.size = t.size + if key ∈ m then 0 else 1 := by
    rw [hi'.size, hi.size]
    by_cases hk : key ∈ m
    · simp [hk, card_insert_mem]
    · simp [hk, card_insert_notMem]
  refine ⟨t', n, hrun, hn, hi'.isUp, ?_, ?_⟩
  · by_cases hfull : t.size = t.capacity
    · exact .inr (.inr (hcap.trans (if_pos hfull)))
    · exact .inl (hcap.trans (if_neg hfull))
  · -- a table that grows had no room left, and so a debt of as many moves as it has entries
    rw [debt, debt, hsize, hcap, grown, htGrowthFactor]
    by_cases hfull : t.size = t.capacity
    · simp only [if_pos hfull] at hle ⊢
      split <;> omega
    · simp only [if_neg hfull] at hle ⊢
      split <;> omega

theorem HashTable.Holds.erase_paid (hi : t.Holds hash chains m) (key : κ) : ∃ rv t',
    t.erase key = .ok (rv, t') ∧ t.eraseMoves key = .ok 0 ∧ t'.isUp ∧ Sized t t' ∧ t'.debt ≤ t.debt := by
  obtain ⟨chains', t', hrun, hi', hcap⟩ := hi.erase key
  have hsize : t'.size ≤ t.size := by
    rw [hi'.size, hi.size]
    exact card_erase_le m key
  refine ⟨_, t', hrun, hi.eraseMoves key, hi'.isUp, ?_, ?_⟩
  · rcases hcap with hcap | ⟨-, hcap⟩
    · exact .inl hcap
    · exact .inr (.inl hcap)
  · rw [debt, debt, htGrowthFactor]
    rcases hcap with hcap | ⟨hzero, hcap⟩
    · omega
    · omega

omit [DecidableEq κ] in
theorem HashTable.Holds.clear_paid (hi : t.Holds hash chains m) : ∃ rv t',
    t.clear = .ok (rv, t') ∧ t'.isUp ∧ Sized t t' ∧ t'.debt ≤ t.debt := by
  obtain ⟨chains', t', hrun, hi', hcap⟩ := hi.clear
  have hempty : t'.size = 0 := hi'.size.trans Multiset.card_zero
  have hzero : t'.debt = 0 := by simp [debt, hempty]
  exact ⟨_, t', hrun, hi'.isUp, .inr (.inl hcap), by simp [hzero]⟩

/-- **One call is paid for** by the entry it adds and by the debt it settles. -/
theorem moving_step (h : Represent f g) (hup : (f i).isUp) (hs : MovingStep i f x f') :
    (f' i).isUp ∧ Sized (f i) (f' i) ∧ x.moved + (f' i).debt ≤ (f i).debt + x.credit i := by
  obtain ⟨m, hash, chains, hg, hi⟩ := h.holds hup
  obtain ⟨⟨hs, hcareful⟩, hsteady, hmoved⟩ := hs
  obtain ⟨c, a, n⟩ := x
  by_cases hw : c.Writes i
  · cases c with
    | insert j key value =>
      obtain rfl : j = i := hw
      obtain ⟨⟨rv, t'⟩, hrun, hs⟩ := bind_returns.1 hs
      cases hs
      obtain ⟨t₁, k, hrun', hk, hup', hsized, hpaid⟩ := hi.insert_paid hcareful.2 key value
      rw [hrun'] at hrun
      cases hrun
      obtain rfl : n = k := Except.ok.inj (hmoved.symm.trans ((if_pos rfl).trans hk))
      rw [update_self, credit_insert]
      exact ⟨hup', hsized, hpaid⟩
    | erase j key =>
      obtain rfl : j = i := hw
      obtain ⟨⟨rv, t'⟩, hrun, hs⟩ := bind_returns.1 hs
      cases hs
      obtain ⟨rv₁, t₁, hrun', hnone, hup', hsized, hpaid⟩ := hi.erase_paid key
      rw [hrun'] at hrun
      cases hrun
      obtain rfl : n = 0 := Except.ok.inj (hmoved.symm.trans ((if_pos rfl).trans hnone))
      rw [update_self, Nat.zero_add]
      exact ⟨hup', hsized, hpaid.trans (Nat.le_add_right _ _)⟩
    | clear j =>
      obtain rfl : j = i := hw
      obtain ⟨⟨rv, t'⟩, hrun, hs⟩ := bind_returns.1 hs
      cases hs
      obtain ⟨rv₁, t₁, hrun', hup', hsized, hpaid⟩ := hi.clear_paid
      rw [hrun'] at hrun
      cases hrun
      obtain rfl : n = 0 := Except.ok.inj hmoved.symm
      rw [update_self, Nat.zero_add]
      exact ⟨hup', hsized, hpaid.trans (Nat.le_add_right _ _)⟩
    | _ => exact absurd hw id
  · obtain ⟨hsame, hnone⟩ := htCall_elsewhere hs hsteady hw
    obtain rfl : n = 0 := Except.ok.inj (hmoved.symm.trans hnone)
    rw [hsame]
    exact ⟨hup, .inl rfl, by simp⟩

/-! ## Runs -/

/-- The tables stand for maps, and the table `i` is set up. -/
def StandsUp (i : ι) (f : ι → HashTable κ ν) : Prop := (∃ g, Represent f g) ∧ (f i).isUp

omit [Key κ] [DecidableEq κ] in
theorem credits_sum (i : ι) (xs : List (Moving ι κ ν)) :
    (xs.map (Moving.credit i)).sum = htGrowthFactor * xs.countP (Moving.adds i) := by
  induction xs with
  | nil => rfl
  | cons x xs ih =>
    rw [List.map_cons, List.sum_cons, ih, List.countP_cons, Moving.credit, htGrowthFactor]
    split <;> omega

variable {xs : List (Moving ι κ ν)} {f₀ : ι → HashTable κ ν} {calls : List (HtCall ι κ ν × HtAns κ ν)}

theorem standsUp_step (h : StandsUp i f) (hs : MovingStep i f x f') :
    StandsUp i f' ∧ Sized (f i) (f' i) ∧ x.moved + (f' i).debt ≤ (f i).debt + x.credit i := by
  obtain ⟨⟨g, hg⟩, hup⟩ := h
  obtain ⟨hup', hsized, hpaid⟩ := moving_step hg hup hs
  obtain ⟨g', -, hg'⟩ := careful_step hg hs.1
  exact ⟨⟨⟨g', hg'⟩, hup'⟩, hsized, hpaid⟩

/-- The capacity at the end of a run: that of the start, the smallest one, or twice the entries of some moment. -/
def SizedBy (i : ι) (f₀ : ι → HashTable κ ν) (xs : List (Moving ι κ ν)) (f : ι → HashTable κ ν) : Prop :=
  (f i).capacity = (f₀ i).capacity ∨ (f i).capacity = htMinimumCapacity ∨
    ∃ ys zs f₁, xs = ys ++ zs ∧ Run (MovingStep i) f₀ ys f₁ ∧ Run (MovingStep i) f₁ zs f ∧
      (f i).capacity = (f₁ i).size * htGrowthFactor

omit [DecidableEq κ] in
theorem SizedBy.step (hrun : Run (MovingStep i) f₀ xs f) (h : SizedBy i f₀ xs f) (hs : MovingStep i f x f')
    (hsized : Sized (f i) (f' i)) : SizedBy i f₀ (xs ++ [x]) f' := by
  rcases hsized with hsame | hmin | htwice
  · rcases h with hfirst | hmin | ⟨ys, zs, f₁, rfl, hys, hzs, hcap⟩
    · exact .inl (hsame.trans hfirst)
    · exact .inr (.inl (hsame.trans hmin))
    · exact .inr (.inr ⟨ys, zs ++ [x], f₁, List.append_assoc .., hys, hzs.snoc hs, hsame.trans hcap⟩)
  · exact .inr (.inl hmin)
  · exact .inr (.inr ⟨xs, [x], f, rfl, hrun, .single hs, htwice⟩)

theorem sizedBy_run (h : StandsUp i f₀) (hrun : Run (MovingStep i) f₀ xs f) : SizedBy i f₀ xs f := by
  have hall : Run (MovingStep i) f₀ xs f ∧ StandsUp i f ∧ SizedBy i f₀ xs f := by
    apply Run.history _ _ hrun
    · exact ⟨.refl, h, .inl rfl⟩
    · rintro xs f x f' ⟨hrun, hup, hcap⟩ hs
      obtain ⟨hup', hsized, -⟩ := standsUp_step hup hs
      exact ⟨hrun.snoc hs, hup', hcap.step hrun hs hsized⟩
  exact hall.2.2

/-- **Growth is paid for.**  In any run of careful calls that leave a table where it is, from any state reached, the nodes
moved from array to array are at most the entries there were and twice the entries added.  The table never has more
entries than chains; and its array is the first one, the smallest one, or twice the entries it held at some moment. -/
theorem growth_paid (hreach : Run CarefulStep (fun _ => HashTable.initializer) calls f₀) (hup : (f₀ i).isUp)
    (hrun : Run (MovingStep i) f₀ xs f) :
    (xs.map Moving.moved).sum ≤ (f₀ i).size + htGrowthFactor * xs.countP (Moving.adds i) ∧
      (f i).size ≤ (f i).capacity ∧ SizedBy i f₀ xs f := by
  obtain ⟨g₀, -, hg₀⟩ := careful_run hreach
  have hstart : StandsUp i f₀ := ⟨⟨g₀, hg₀⟩, hup⟩
  have hstep : ∀ (f : ι → HashTable κ ν) (x : Moving ι κ ν) (f' : ι → HashTable κ ν), StandsUp i f → MovingStep i f x f' →
      StandsUp i f' ∧ Moving.moved x + (f' i).debt ≤ (f i).debt + Moving.credit i x := by
    intro f x f' h hs
    obtain ⟨h', -, hle⟩ := standsUp_step h hs
    exact ⟨h', hle⟩
  obtain ⟨⟨⟨g, hg⟩, hup'⟩, hpaid⟩ := hrun.amortised hstep hstart
  obtain ⟨m, hash, chains, -, hi⟩ := hg.holds hup'
  obtain ⟨m₀, hash₀, chains₀, -, hi₀⟩ := hg₀.holds hup
  refine ⟨?_, hi.room, sizedBy_run hstart hrun⟩
  have hroom := hi₀.room
  rw [credits_sum, HashTable.debt, HashTable.debt, htGrowthFactor] at hpaid
  rw [htGrowthFactor]
  omega

/-- A table that was just set up. -/
def setUp : Unit → HashTable UInt32 Nat := update (fun _ => .initializer) () (HashTable.setup 0).2

/-- A key put into it. -/
def put (key : UInt32) (moved : ℕ) : Moving Unit UInt32 Nat := ⟨.insert () key 0, .code htInserted, moved⟩

/-- Nine keys, the last of which makes the table grow. -/
theorem growth_paid_nine : ∃ f : Unit → HashTable UInt32 Nat,
    Run (MovingStep ()) setUp [put 0 0, put 1 0, put 2 0, put 3 0, put 4 0, put 5 0, put 6 0, put 7 0, put 8 8] f ∧
      8 ≤ (setUp ()).size + htGrowthFactor * 9 ∧ (f ()).size ≤ (f ()).capacity := by
  have hreach : Run CarefulStep (fun _ => HashTable.initializer) [(.setup () 0, .code htSuccess)] setUp :=
    .single ⟨rfl, show 0 < 2 ^ 61 by decide⟩
  have h₀ : Run (MovingStep ()) setUp [] setUp := .refl
  have h₁ := h₀.snoc (show MovingStep () _ (put 0 0) _ from ⟨⟨rfl, rfl, by decide⟩, trivial, rfl⟩)
  have h₂ := h₁.snoc (show MovingStep () _ (put 1 0) _ from ⟨⟨rfl, rfl, by decide⟩, trivial, rfl⟩)
  have h₃ := h₂.snoc (show MovingStep () _ (put 2 0) _ from ⟨⟨rfl, rfl, by decide⟩, trivial, rfl⟩)
  have h₄ := h₃.snoc (show MovingStep () _ (put 3 0) _ from ⟨⟨rfl, rfl, by decide⟩, trivial, rfl⟩)
  have h₅ := h₄.snoc (show MovingStep () _ (put 4 0) _ from ⟨⟨rfl, rfl, by decide⟩, trivial, rfl⟩)
  have h₆ := h₅.snoc (show MovingStep () _ (put 5 0) _ from ⟨⟨rfl, rfl, by decide⟩, trivial, rfl⟩)
  have h₇ := h₆.snoc (show MovingStep () _ (put 6 0) _ from ⟨⟨rfl, rfl, by decide⟩, trivial, rfl⟩)
  have h₈ := h₇.snoc (show MovingStep () _ (put 7 0) _ from ⟨⟨rfl, rfl, by decide⟩, trivial, rfl⟩)
  have h₉ := h₈.snoc (show MovingStep () _ (put 8 8) _ from ⟨⟨rfl, rfl, by decide⟩, trivial, rfl⟩)
  obtain ⟨hmoved, hroom, -⟩ := growth_paid hreach rfl h₉
  exact ⟨_, h₉, hmoved, hroom⟩

end Nftp
