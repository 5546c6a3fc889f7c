import Nftp.Lib.Missing
import Nftp.Store
/-!
# Tally — a context as the set of blocks received

`c.Tally N R` says that the context stands for the blocks in `R` received, of `N`: its position is the first one missing,
and from there on an entry has a body exactly when its block was received.  What the bodies are, and what is in the
entries before the position, it leaves open.
-/
namespace Nftp

open Lib

variable {c : Nctx} {n : Packet} {N : ℕ} {R : Finset ℕ}

structure Nctx.Tally (c : Nctx) (N : ℕ) (R : Finset ℕ) : Prop where
  sub : R ⊆ Finset.range N
  cap : c.cap = N
  next : c.nextid = firstMissing R
  cache : ∀ k e, c.nextid ≤ k → c.entries[k]? = some e → (e.body.isSome ↔ k ∈ R)

theorem Nctx.Tally.next_eq_cap (ht : c.Tally N R) : c.nextid = c.cap ↔ R = Finset.range N := by
  rw [ht.next, ht.cap]
  exact firstMissing_eq_iff_range ht.sub

/-- **The position of a transfer with blocks missing** is the least of them, and nothing is cached there. -/
theorem Nctx.Tally.position (ht : c.Tally N R) (hw : c.Wf) (hmore : R ≠ Finset.range N) :
    IsLeast {k | k < N ∧ k ∉ R} c.nextid ∧ ∃ l, c.entries[c.nextid]? = some ⟨none, l⟩ := by
  have hmiss : c.nextid ∉ R := by
    rw [ht.next]
    exact firstMissing_notMem R
  have hlt : c.nextid < N := by
    refine Nat.lt_of_le_of_ne ?_ fun heq => hmore (ht.next_eq_cap.1 (heq.trans ht.cap.symm))
    rw [ht.next]
    exact firstMissing_le ht.sub
  refine ⟨⟨⟨hlt, hmiss⟩, fun k hk => ?_⟩, ?_⟩
  · by_contra hnot
    refine hk.2 (mem_of_lt_firstMissing ?_)
    rw [← ht.next]
    exact Nat.lt_of_not_le hnot
  · have hlen : c.nextid < c.entries.length := by rw [hw.length, ht.cap]; exact hlt
    have he := List.getElem?_eq_getElem hlen
    have hbody : c.entries[c.nextid].body = none := by
      have hnot := not_congr (ht.cache _ _ (Nat.le_refl _) he) |>.2 hmiss
      simpa using hnot
    exact ⟨c.entries[c.nextid].len, by rw [he, ← hbody]⟩

/-- The cached run is the blocks received behind the position, up to the first one missing. -/
theorem Nctx.Tally.run (ht : c.Tally N R) (hw : c.Wf) :
    (∀ i, i < c.run.length → c.nextid + 1 + i ∈ R) ∧ c.nextid + 1 + c.run.length ∉ R := by
  obtain ⟨hat, hend⟩ := cachedRun_spec c.entries c.entries.length (c.nextid + 1) (by omega)
  constructor
  · intro i hi
    obtain ⟨l, he⟩ := hat i _ (List.getElem?_eq_getElem hi)
    exact (ht.cache _ _ (by omega) he).1 rfl
  · intro hmem
    have hlt : c.nextid + 1 + c.run.length < c.entries.length := by
      rw [hw.length, ht.cap]
      exact Finset.mem_range.1 (ht.sub hmem)
    have he := List.getElem?_eq_getElem hlt
    obtain ⟨b, hb⟩ := Option.isSome_iff_exists.1 ((ht.cache _ _ (by omega) he).2 hmem)
    exact hend b c.entries[c.nextid + 1 + c.run.length].len (by rw [← hb]; exact he)

/-! ## Storing a block -/

/-- The context once the block is stored, no append failing. -/
def Nctx.storing (c : Nctx) (n : Packet) : Nctx :=
  if n.blockseq.toNat = c.nextid then c.appended (c.run.length + 1) .ok
  else c.cached n (c.entries.getD n.blockseq.toNat ⟨none, 0⟩)

/-- The appends the call would make of the block, and of the cached run behind it, succeed. -/
def Nctx.Appends (c : Nctx) (h : Host) (d : Disk) (path : Path) (n : Packet) : Prop :=
  n.blockseq.toNat = c.nextid → (d path).isSome ∧ AllTook h (n.content.getD [] :: c.run)

theorem storeBlock_storing {h : Host} {path : Path} {fs : Fs} {b : Bytes} (hw : c.Wf) (hb : n.content = some b)
    (hn : b.length = n.ctlen) (hk : n.blockseq.toNat < c.cap) (happ : c.Appends h fs.disk path n) :
    ∃ fs', storeBlock h path c fs n = .ok (.ok, c.storing n, fs') := by
  unfold Nctx.storing
  by_cases hseq : n.blockseq.toNat = c.nextid
  · obtain ⟨hex, htook⟩ := happ hseq
    rw [hb, Option.getD_some] at htook
    obtain ⟨j, rv, fs', hstore, hdone⟩ := storeBlock_next h path hw hseq hb hn hex
    obtain rfl : rv = .ok := hdone.ok_iff_took.2 htook
    have hj : j = (b :: c.run).length := hdone.ok_iff.1 rfl
    rw [List.length_cons] at hj
    rw [if_pos hseq, ← hj]
    exact ⟨fs', hstore⟩
  · have he := List.getElem?_eq_getElem (show n.blockseq.toNat < c.entries.length by rw [hw.length]; exact hk)
    refine ⟨fs, ?_⟩
    rw [if_neg hseq, storeBlock_cache h path fs hseq he, List.getD_eq_getElem?_getD, he]
    rfl

/-- The block that is next takes the position over the blocks cached behind it. -/
theorem Nctx.Tally.appended (ht : c.Tally N R) (hw : c.Wf) (hlt : c.nextid < N) :
    (c.appended (c.run.length + 1) .ok).Tally N (insert c.nextid R) := by
  obtain ⟨hin, hout⟩ := ht.run hw
  refine ⟨Finset.insert_subset (Finset.mem_range.2 hlt) ht.sub, ht.cap, ?_, fun k e hk he => ?_⟩
  · rw [appended_nextid]
    rw [ht.next] at hin hout ⊢
    rw [firstMissing_insert_self hin hout]
    omega
  · rw [appended_nextid] at hk
    rw [appended_entries .ok hk] at he
    rw [ht.cache k e (by omega) he, Finset.mem_insert]
    have hne : k ≠ c.nextid := by omega
    exact ⟨.inr, fun h' => h'.resolve_left hne⟩

/-- Any other block is cached, and the position stays. -/
theorem Nctx.Tally.cached (ht : c.Tally N R) (hw : c.Wf) {b : Bytes} (hb : n.content = some b) (hk : n.blockseq.toNat < N)
    (hne : n.blockseq.toNat ≠ c.nextid) (e : Buf) : (c.cached n e).Tally N (insert n.blockseq.toNat R) := by
  refine ⟨Finset.insert_subset (Finset.mem_range.2 hk) ht.sub, ht.cap, ?_, fun k e' hle he => ?_⟩
  · rw [ht.next] at hne
    rw [firstMissing_insert_of_ne hne]
    exact ht.next
  · rw [cached_entries (by rw [hw.length, ht.cap]; exact hk)] at he
    by_cases hkk : n.blockseq.toNat = k
    · rw [if_pos hkk] at he
      cases he
      rw [hb, hkk]
      exact iff_of_true rfl (Finset.mem_insert_self k R)
    · rw [if_neg hkk] at he
      rw [ht.cache k e' hle he, Finset.mem_insert]
      exact ⟨.inr, fun h' => h'.resolve_left (Ne.symm hkk)⟩

/-- **A block stored is a block received.** -/
theorem Nctx.Tally.storing (ht : c.Tally N R) (hw : c.Wf) {b : Bytes} (hb : n.content = some b)
    (hk : n.blockseq.toNat < N) : (c.storing n).Tally N (insert n.blockseq.toNat R) := by
  unfold Nctx.storing
  by_cases hseq : n.blockseq.toNat = c.nextid
  · rw [if_pos hseq, hseq]
    rw [hseq] at hk
    exact ht.appended hw hk
  · rw [if_neg hseq]
    exact ht.cached hw hb hk hseq _

end Nftp
