import Mathlib.Data.Finmap
import Mathlib.Tactic
/-!
# Buckets — separate chaining

A table of chains, each entry in the chain that `place` gives its key.  `Stands` is the finite map such a table stands for:
the entries of all chains, in any order.  Looking a key up, replacing, adding and removing an entry need the key's chain
only, and moving every entry to the chain another `place` gives it changes nothing.
-/
namespace Lib

variable {κ ν : Type}

/-- An entry of a table: its key and its value. -/
abbrev Entry (κ ν : Type) := (_ : κ) × ν

/-- Every entry is in the chain of its key. -/
def Chained (place : κ → ℕ) (chains : List (List (Entry κ ν))) : Prop :=
  ∀ i c, chains[i]? = some c → ∀ x ∈ c, place x.1 = i

/-- The table stands for the finite map. -/
structure Stands (place : κ → ℕ) (chains : List (List (Entry κ ν))) (m : Finmap fun _ : κ => ν) : Prop where
  chained : Chained place chains
  entries : m.entries = (chains.flatten : Multiset (Entry κ ν))

variable {place place' : κ → ℕ} {chains chains' : List (List (Entry κ ν))} {m : Finmap fun _ : κ => ν}
  {c c' l : List (Entry κ ν)} {i : ℕ} {k : κ} {v : ν}

/-! ## Finite maps by a list of their entries -/

theorem nodupKeys_of_entries (h : m.entries = (l : Multiset (Entry κ ν))) : l.NodupKeys := by
  rw [← Multiset.coe_nodupKeys, ← h]
  exact m.nodupKeys

theorem eq_toFinmap (h : m.entries = (l : Multiset (Entry κ ν))) : m = AList.toFinmap ⟨l, nodupKeys_of_entries h⟩ :=
  Finmap.ext h

section Entries

variable [DecidableEq κ]

theorem lookup_of_entries (h : m.entries = (l : Multiset (Entry κ ν))) (k : κ) : m.lookup k = l.dlookup k := by
  rw [eq_toFinmap h]
  rfl

theorem entries_insert (h : m.entries = (l : Multiset (Entry κ ν))) (k : κ) (v : ν) :
    (m.insert k v).entries = (⟨k, v⟩ :: l.kerase k : List (Entry κ ν)) := by
  rw [eq_toFinmap h]
  rfl

theorem entries_erase (h : m.entries = (l : Multiset (Entry κ ν))) (k : κ) :
    (m.erase k).entries = (l.kerase k : Multiset (Entry κ ν)) := by
  rw [eq_toFinmap h]
  rfl

/-- Replacing a value in place leaves the entries that replacing the entry leaves. -/
theorem kreplace_perm (v : ν) : ∀ {l : List (Entry κ ν)}, k ∈ l.keys → (l.kreplace k v).Perm (⟨k, v⟩ :: l.kerase k)
  | [], h => by cases h
  | x :: l, h => by
    by_cases hx : k = x.1
    · rw [List.kerase_cons_eq hx, List.kreplace, List.lookmap_cons_some _ _ (by rw [if_pos hx])]
    · have hl : k ∈ l.keys := (List.mem_cons.1 h).resolve_left hx
      rw [List.kerase_cons_ne hx, List.kreplace, List.lookmap_cons_none _ _ (by rw [if_neg hx])]
      exact ((kreplace_perm v hl).cons x).trans (.swap _ _ _)

end Entries

/-! ## One chain and the others -/

/-- The entries of all chains but one. -/
def others (chains : List (List (Entry κ ν))) (i : ℕ) : List (Entry κ ν) := (chains.eraseIdx i).flatten

theorem flatten_perm (hc : chains[i]? = some c) : chains.flatten.Perm (c ++ others chains i) := by
  obtain ⟨hi, rfl⟩ := List.getElem?_eq_some_iff.1 hc
  have hsplit := (List.getElem_cons_eraseIdx_perm hi).symm.flatten
  rwa [List.flatten_cons] at hsplit

theorem flatten_set_perm (hi : i < chains.length) (c' : List (Entry κ ν)) :
    (chains.set i c').flatten.Perm (c' ++ others chains i) := by
  have hget : (chains.set i c')[i]? = some c' := List.getElem?_set_self hi
  have hperm := flatten_perm hget
  rwa [others, List.eraseIdx_set_eq] at hperm

/-- Putting an entry before a chain puts it among the entries. -/
theorem push_perm (hc : chains[i]? = some c) (x : Entry κ ν) :
    (chains.set i (x :: c)).flatten.Perm (x :: chains.flatten) :=
  (flatten_set_perm (List.getElem?_eq_some_iff.1 hc).1 (x :: c)).trans ((flatten_perm hc).symm.cons x)

theorem Chained.others_ne (h : Chained place chains) : ∀ x ∈ others chains i, place x.1 ≠ i := by
  intro x hx hplace
  obtain ⟨d, hd, hx⟩ := List.mem_flatten.1 hx
  obtain ⟨j, hj, hjd⟩ := List.mem_eraseIdx_iff_getElem?.1 hd
  exact hj ((h j d hjd x hx).symm.trans hplace)

theorem Chained.notMem_others (h : Chained place chains) (hk : place k = i) : k ∉ (others chains i).keys := by
  intro hmem
  obtain ⟨x, hx, hxk⟩ := List.mem_map.1 hmem
  exact h.others_ne x hx (by rw [hxk, hk])

theorem Chained.set (h : Chained place chains) (hc' : ∀ x ∈ c', place x.1 = i) : Chained place (chains.set i c') := by
  intro j d hd x hx
  rw [List.getElem?_set] at hd
  split at hd
  · rename_i hij
    split at hd
    · cases hd
      rw [hc' x hx, hij]
    · cases hd
  · exact h j d hd x hx

theorem Chained.push (h : Chained place chains) (hc : chains[i]? = some c) {x : Entry κ ν} (hx : place x.1 = i) :
    Chained place (chains.set i (x :: c)) := by
  refine h.set fun y hy => ?_
  rcases List.mem_cons.1 hy with rfl | hy
  · exact hx
  · exact h i c hc y hy

theorem Chained.reverse (h : Chained place chains) : Chained place (chains.map List.reverse) := by
  intro i c hc x hx
  rw [List.getElem?_map] at hc
  obtain ⟨d, hd, rfl⟩ := Option.map_eq_some_iff.1 hc
  exact h i d hd x (List.mem_reverse.1 hx)

theorem flatten_reverse_perm : ∀ chains : List (List (Entry κ ν)), (chains.map List.reverse).flatten.Perm chains.flatten
  | [] => .refl _
  | c :: chains => by
    rw [List.map_cons, List.flatten_cons, List.flatten_cons]
    exact (List.reverse_perm c).append (flatten_reverse_perm chains)

theorem chained_replicate (place : κ → ℕ) (n : ℕ) : Chained place (List.replicate n ([] : List (Entry κ ν))) := by
  intro i c hc x hx
  rw [List.eq_of_mem_replicate (List.mem_of_getElem? hc)] at hx
  cases hx

/-! ## What the operations do to the map -/

/-- A table of empty chains stands for the empty map. -/
theorem stands_empty (place : κ → ℕ) (n : ℕ) :
    Stands place (List.replicate n ([] : List (Entry κ ν))) (∅ : Finmap fun _ : κ => ν) :=
  ⟨chained_replicate place n, by rw [List.flatten_replicate_nil]; rfl⟩

/-- **Another arrangement of the same entries stands for the same map.** -/
theorem Stands.rearrange (h : Stands place chains m) (hc : Chained place' chains')
    (hp : chains'.flatten.Perm chains.flatten) : Stands place' chains' m :=
  ⟨hc, h.entries.trans (Multiset.coe_eq_coe.2 hp.symm)⟩

/-- The entries with the key's chain in front. -/
theorem Stands.entries_split (h : Stands place chains m) (hc : chains[i]? = some c) :
    m.entries = (c ++ others chains i : List (Entry κ ν)) :=
  h.entries.trans (Multiset.coe_eq_coe.2 (flatten_perm hc))

theorem Stands.card (h : Stands place chains m) : Multiset.card m.entries = chains.flatten.length := by
  rw [h.entries, Multiset.coe_card]

variable [DecidableEq κ]

/-- **Looking a key up in its chain** looks it up in the map. -/
theorem Stands.lookup (h : Stands place chains m) (hc : chains[place k]? = some c) : m.lookup k = c.dlookup k := by
  rw [lookup_of_entries h.entries, List.perm_dlookup k (nodupKeys_of_entries h.entries) (flatten_perm hc), List.dlookup_append,
    List.dlookup_eq_none.2 (h.chained.notMem_others rfl), Option.or_none]

theorem Stands.mem (h : Stands place chains m) (hc : chains[place k]? = some c) : k ∈ m ↔ k ∈ c.keys := by
  rw [← Finmap.lookup_isSome, h.lookup hc, List.dlookup_isSome]

/-- **Replacing the value in the key's chain.** -/
theorem Stands.replace (h : Stands place chains m) (hc : chains[place k]? = some c) (hk : k ∈ c.keys) (v : ν) :
    Stands place (chains.set (place k) (c.kreplace k v)) (m.insert k v) := by
  have hi := (List.getElem?_eq_some_iff.1 hc).1
  refine ⟨h.chained.set fun x hx => ?_, ?_⟩
  · rcases List.mem_cons.1 ((kreplace_perm v hk).mem_iff.1 hx) with rfl | hx
    · rfl
    · exact h.chained _ c hc x ((List.kerase_sublist k c).subset hx)
  · rw [entries_insert (h.entries_split hc), List.kerase_append_left hk, Multiset.coe_eq_coe]
    exact (((kreplace_perm v hk).append_right _).symm.trans (flatten_set_perm hi _).symm)

/-- **A new entry in front of the key's chain.** -/
theorem Stands.push (h : Stands place chains m) (hc : chains[place k]? = some c) (hk : k ∉ c.keys) (v : ν) :
    Stands place (chains.set (place k) (⟨k, v⟩ :: c)) (m.insert k v) := by
  have hnot : k ∉ (c ++ others chains (place k)).keys := by
    rw [List.keys_append, List.mem_append, not_or]
    exact ⟨hk, h.chained.notMem_others rfl⟩
  refine ⟨h.chained.push hc rfl, ?_⟩
  rw [entries_insert (h.entries_split hc), List.kerase_of_notMem_keys hnot, Multiset.coe_eq_coe]
  exact (flatten_set_perm (List.getElem?_eq_some_iff.1 hc).1 (⟨k, v⟩ :: c)).symm

/-- **Taking the entry out of the key's chain.** -/
theorem Stands.erase (h : Stands place chains m) (hc : chains[place k]? = some c) (hk : k ∈ c.keys) :
    Stands place (chains.set (place k) (c.kerase k)) (m.erase k) := by
  have hi := (List.getElem?_eq_some_iff.1 hc).1
  refine ⟨h.chained.set fun x hx => h.chained _ c hc x ((List.kerase_sublist k c).subset hx), ?_⟩
  rw [entries_erase (h.entries_split hc), List.kerase_append_left hk, Multiset.coe_eq_coe]
  exact (flatten_set_perm hi _).symm

/-! ## How many entries -/

theorem insert_erase (m : Finmap fun _ : κ => ν) (k : κ) (v : ν) : (m.erase k).insert k v = m.insert k v :=
  Finmap.ext_lookup fun x => by
    by_cases hx : x = k
    · rw [hx, Finmap.lookup_insert, Finmap.lookup_insert]
    · rw [Finmap.lookup_insert_of_ne _ hx, Finmap.lookup_insert_of_ne _ hx, Finmap.lookup_erase_ne hx]

theorem insert_same (hv : m.lookup k = some v) : m.insert k v = m :=
  Finmap.ext_lookup fun x => by
    by_cases hx : x = k
    · rw [hx, Finmap.lookup_insert, hv]
    · rw [Finmap.lookup_insert_of_ne _ hx]

theorem card_insert_notMem (hk : k ∉ m) (v : ν) :
    Multiset.card (m.insert k v).entries = Multiset.card m.entries + 1 := by
  rw [Finmap.entries_insert_of_notMem hk, Multiset.card_cons]

theorem card_insert_erase (m : Finmap fun _ : κ => ν) (k : κ) (v : ν) :
    Multiset.card (m.insert k v).entries = Multiset.card (m.erase k).entries + 1 := by
  rw [← insert_erase m, card_insert_notMem Finmap.notMem_erase_self]

theorem card_erase_mem (hk : k ∈ m) : Multiset.card (m.erase k).entries + 1 = Multiset.card m.entries := by
  obtain ⟨v, hv⟩ := Finmap.mem_iff.1 hk
  rw [← card_insert_erase m k v, insert_same hv]

theorem card_insert_mem (hk : k ∈ m) (v : ν) : Multiset.card (m.insert k v).entries = Multiset.card m.entries := by
  rw [card_insert_erase, card_erase_mem hk]

theorem erase_notMem (hk : k ∉ m) : m.erase k = m := by
  apply Finmap.ext_lookup
  intro x
  by_cases hx : x = k
  · rw [hx, Finmap.lookup_erase, Finmap.lookup_eq_none.2 hk]
  · rw [Finmap.lookup_erase_ne hx]

theorem card_erase_le (m : Finmap fun _ : κ => ν) (k : κ) :
    Multiset.card (m.erase k).entries ≤ Multiset.card m.entries := by
  by_cases hk : k ∈ m
  · exact Nat.le_of_lt (Nat.lt_of_succ_le (Nat.le_of_eq (card_erase_mem hk)))
  · rw [erase_notMem hk]

end Lib
