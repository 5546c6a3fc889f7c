import Nftp.Basic
import Nftp.Lib.Buckets
import Nftp.Lib.Fallible
/-!
# Hashtable — `hashtable.c`

A table as `hashtable.c` has it: an array of chains, its capacity, the number of its entries.  Keys and values are typed,
so `key_size` and `value_size` are their types'; a key is copied, hashed and compared as its bytes.  An array's size in bytes
is a `size_t`: from 2^61 slots on it wraps, and the array is shorter than the capacity says.

`HashTable.x` is `ht_x`, or `_ht_x` for what the header calls private.  A call answers its code and the table after it.
-/
namespace Nftp

open Lib (Entry)

/-- What stops a call: an assertion, a NULL pointer or a released array read, an index outside the array, `%` by 0. -/
inductive HtFault
  | assert | null | freed | index | divZero
  deriving DecidableEq, Repr

def htMinimumCapacity : Nat := 8
def htLoadFactor : Nat := 5
def htGrowthFactor : Nat := 2
/-- `(1 / 4)`, a quotient of integers. -/
def htShrinkThreshold : Nat := 1 / 4

/-- The pointers that fit in `malloc(capacity * sizeof(HTNode*))`; the product is a `size_t`. -/
def htSlots (capacity : Nat) : Nat := capacity * 8 % 2 ^ 64 / 8

def htSuccess : Int := 0
def htUpdated : Int := 1
def htInserted : Int := 0
def htNotFound : Int := 0
def htFound : Int := 1

/-- A type of keys, as the `size` bytes the table copies. -/
class Key (κ : Type) where
  size : Nat
  bytes : κ → Bytes
  length_bytes : ∀ k, (bytes k).length = size
  bytes_inj : Function.Injective bytes

/-- A `uint32_t` in memory, the low byte first. -/
instance : Key UInt32 where
  size := 4
  bytes u := (putU32 u).reverse
  length_bytes _ := rfl
  bytes_inj u v h := by
    have hput : putU32 u = putU32 v := List.reverse_injective h
    simp only [putU32, List.cons.injEq, and_true] at hput
    rw [← u32_put u, ← u32_put v, hput.1, hput.2.1, hput.2.2.1, hput.2.2.2]

/-- `nodes`: NULL, an array of chains, or an array that was released. -/
inductive Nodes (κ ν : Type)
  | null
  | freed
  | array (chains : List (List (Entry κ ν)))

/-- `struct HashTable`, less the sizes of its keys and values. -/
structure HashTable (κ ν : Type) where
  size : Nat
  threshold : Nat
  capacity : Nat
  compare : Option (Bytes → Bytes → Int)
  hash : Option (Bytes → UInt64)
  nodes : Nodes κ ν

variable {κ ν : Type}

/-- The chains a loop over `nodes[0]` … `nodes[capacity - 1]` visits. -/
def Nodes.upTo (capacity : Nat) : Nodes κ ν → Except HtFault (List (List (Entry κ ν)))
  | .array chains => if capacity ≤ chains.length then .ok (chains.take capacity) else .error .index
  | .freed => if capacity = 0 then .ok [] else .error .freed
  | .null => if capacity = 0 then .ok [] else .error .null

/-- `free(nodes)`; the pointer stays as it was. -/
def Nodes.free : Nodes κ ν → Except HtFault (Nodes κ ν)
  | .array _ => .ok .freed
  | .freed => .error .freed
  | .null => .ok .null

/-- `_ht_default_compare`: `memcmp`. -/
def htDefaultCompare : Bytes → Bytes → Int
  | a :: s, b :: t => if a = b then htDefaultCompare s t else (a.toNat : Int) - b.toNat
  | _, _ => 0

/-- `_ht_default_hash`: djb2 with an exclusive or; a `char` is signed. -/
def htDefaultHash (key : Bytes) : UInt64 :=
  key.foldl (fun hash b => ((hash <<< 5) + hash) ^^^ b.toInt8.toInt64.toUInt64) 5381

namespace HashTable

/-- `HT_INITIALIZER`, and what a static table holds before `ht_setup`. -/
def initializer : HashTable κ ν := ⟨0, 0, 0, none, none, .null⟩

def isInitialized (t : HashTable κ ν) : Bool :=
  match t.nodes with
  | .null => false
  | _ => true

/-! ## Private -/

section Private

variable [Key κ]

/-- `_ht_hash`. -/
def index (t : HashTable κ ν) (key : κ) : Except HtFault Nat :=
  match t.hash with
  | none => .error .null
  | some hash => if t.capacity = 0 then .error .divZero else .ok ((hash (Key.bytes key)).toNat % t.capacity)

def equal (t : HashTable κ ν) (first second : κ) : Except HtFault Bool :=
  match t.compare with
  | none => .error .null
  | some compare => .ok (compare (Key.bytes first) (Key.bytes second) = 0)

/-- `table->nodes[index]`. -/
def chain (t : HashTable κ ν) (index : Nat) : Except HtFault (List (Entry κ ν)) :=
  match t.nodes with
  | .null => .error .null
  | .freed => .error .freed
  | .array chains =>
    match chains[index]? with
    | none => .error .index
    | some c => .ok c

def setChain (t : HashTable κ ν) (index : Nat) (c : List (Entry κ ν)) : HashTable κ ν :=
  match t.nodes with
  | .array chains => { t with nodes := .array (chains.set index c) }
  | _ => t

def pushFront (t : HashTable κ ν) (index : Nat) (x : Entry κ ν) : Except HtFault (HashTable κ ν) := do
  let c ← t.chain index
  return t.setChain index (x :: c)

def shouldGrow (t : HashTable κ ν) : Except HtFault Bool :=
  if t.size ≤ t.capacity then .ok (t.size = t.capacity) else .error .assert

def shouldShrink (t : HashTable κ ν) : Except HtFault Bool :=
  if t.size ≤ t.capacity then .ok (t.size = t.capacity * htShrinkThreshold) else .error .assert

/-- `malloc(capacity * sizeof(HTNode*))`, which never fails, and `memset`. -/
def allocate (t : HashTable κ ν) (capacity : Nat) : HashTable κ ν :=
  { t with
    nodes := .array (List.replicate (htSlots capacity) []), capacity := capacity,
    threshold := capacity * htLoadFactor % 2 ^ 64 }

/-- One round of `_ht_rehash`: a node goes to the front of its new chain. -/
def relink (t : HashTable κ ν) (node : Entry κ ν) : Except HtFault (HashTable κ ν) := do
  let i ← t.index node.1
  t.pushFront i node

def rehash (t : HashTable κ ν) (old : Nodes κ ν) (oldCapacity : Nat) : Except HtFault (HashTable κ ν) := do
  let chains ← old.upTo oldCapacity
  chains.flatten.foldlM relink t

def resize (t : HashTable κ ν) (newCapacity : Nat) : Except HtFault (Int × HashTable κ ν) :=
  if newCapacity < htMinimumCapacity ∧ ¬ t.capacity > htMinimumCapacity then .ok (htSuccess, t)
  else do
    let newCapacity := if newCapacity < htMinimumCapacity then htMinimumCapacity else newCapacity
    let t' ← (t.allocate newCapacity).rehash t.nodes t.capacity
    let _ ← t.nodes.free
    return (htSuccess, t')

def adjustCapacity (t : HashTable κ ν) : Except HtFault (Int × HashTable κ ν) := t.resize (t.size * htGrowthFactor)

/-- `if (b) _ht_adjust_capacity(table)`. -/
def adjustIf (t : HashTable κ ν) (b : Bool) : Except HtFault (Int × HashTable κ ν) :=
  if b then t.adjustCapacity else .ok (htSuccess, t)

/-- The loop of `ht_insert`: the first node with the key takes the value. -/
def overwrite (t : HashTable κ ν) (key : κ) (value : ν) : List (Entry κ ν) → Except HtFault (Option (List (Entry κ ν)))
  | [] => .ok none
  | x :: c => do
    if ← t.equal key x.1 then return some (⟨x.1, value⟩ :: c)
    else do
      let c ← overwrite t key value c
      return c.map (x :: ·)

/-- The loop of `ht_contains` and `ht_lookup`: the value of the first node with the key. -/
def find (t : HashTable κ ν) (key : κ) : List (Entry κ ν) → Except HtFault (Option ν)
  | [] => .ok none
  | x :: c => do
    if ← t.equal key x.1 then return some x.2 else find t key c

/-- The loop of `ht_erase`: the first node with the key is unlinked. -/
def unlink (t : HashTable κ ν) (key : κ) : List (Entry κ ν) → Except HtFault (Option (List (Entry κ ν)))
  | [] => .ok none
  | x :: c => do
    if ← t.equal key x.1 then return some c
    else do
      let c ← unlink t key c
      return c.map (x :: ·)

end Private

/-! ## Interface -/

/-- `ht_setup`: what the table held before is not looked at. -/
def setup (capacity : Nat) : Int × HashTable κ ν :=
  let capacity := if capacity < htMinimumCapacity then htMinimumCapacity else capacity
  (htSuccess, { initializer.allocate capacity with
    hash := some htDefaultHash, compare := some htDefaultCompare, size := 0 })

/-- The nodes of chain `i` and those after it, each copied to the front of the chain of its number. -/
def copyChains (t : HashTable κ ν) (i : Nat) : List (List (Entry κ ν)) → Except HtFault (HashTable κ ν)
  | [] => .ok t
  | c :: chains => do
    let t ← c.foldlM (fun t x => t.pushFront i x) t
    copyChains t (i + 1) chains

/-- `ht_copy`; when both pointers are of one table, `same`, the array read is the one just allocated. -/
def copy (same : Bool) (first second : HashTable κ ν) : Except HtFault (Int × HashTable κ ν) :=
  if second.isInitialized = false then .error .assert
  else do
    let first := { first.allocate second.capacity with hash := second.hash, compare := second.compare, size := second.size }
    let chains ← (if same then first else second).nodes.upTo second.capacity
    let first ← first.copyChains 0 chains
    return (htSuccess, first)

/-- `ht_move`, from `second`: the code, and the two tables. -/
def move (second : HashTable κ ν) : Except HtFault (Int × HashTable κ ν × HashTable κ ν) :=
  if second.isInitialized = false then .error .assert
  else .ok (htSuccess, second, { second with nodes := .null })

/-- `ht_swap`: `threshold` and `capacity` stay where they are. -/
def swap (first second : HashTable κ ν) : Except HtFault (Int × HashTable κ ν × HashTable κ ν) :=
  if first.isInitialized = false then .error .assert
  else if second.isInitialized = false then .error .assert
  else .ok (htSuccess,
    { first with size := second.size, hash := second.hash, compare := second.compare, nodes := second.nodes },
    { second with size := first.size, hash := first.hash, compare := first.compare, nodes := first.nodes })

def destroy (t : HashTable κ ν) : Except HtFault (Int × HashTable κ ν) :=
  if t.isInitialized = false then .error .assert
  else do
    let _ ← t.nodes.upTo t.capacity
    let nodes ← t.nodes.free
    return (htSuccess, { t with nodes := nodes })

def clear (t : HashTable κ ν) : Except HtFault (Int × HashTable κ ν) :=
  if t.isInitialized = false then .error .assert
  else do
    let (_, t) ← t.destroy
    return (htSuccess, { t.allocate htMinimumCapacity with size := 0 })

def isEmpty (t : HashTable κ ν) : Int := if t.size = 0 then 1 else 0

/-- `ht_iterate`: the entries the callback is called with, in this order. -/
def iterate (t : HashTable κ ν) : Except HtFault (List (Entry κ ν)) := do
  let chains ← t.nodes.upTo t.capacity
  return chains.flatten

variable [Key κ]

def insert (t : HashTable κ ν) (key : κ) (value : ν) : Except HtFault (Int × HashTable κ ν) :=
  if t.isInitialized = false then .error .assert
  else do
    -- what `_ht_adjust_capacity` returns is not looked at
    let grow ← t.shouldGrow
    let (_, t) ← t.adjustIf grow
    let i ← t.index key
    let c ← t.chain i
    match ← t.overwrite key value c with
    | some c => return (htUpdated, t.setChain i c)
    | none => do
      let t ← t.pushFront i ⟨key, value⟩
      return (htInserted, { t with size := t.size + 1 })

/-- The entry's value, found as `ht_contains` and `ht_lookup` find it. -/
def search (t : HashTable κ ν) (key : κ) : Except HtFault (Option ν) := do
  let i ← t.index key
  let c ← t.chain i
  t.find key c

def contains (t : HashTable κ ν) (key : κ) : Except HtFault Int :=
  if t.isInitialized = false then .error .assert
  else do
    let found ← t.search key
    return if found.isSome then htFound else htNotFound

/-- `ht_lookup` and `ht_const_lookup`, which do not ask whether the table is set up. -/
def lookup (t : HashTable κ ν) (key : κ) : Except HtFault (Option ν) := t.search key

def erase (t : HashTable κ ν) (key : κ) : Except HtFault (Int × HashTable κ ν) := do
  let i ← t.index key
  let c ← t.chain i
  match ← t.unlink key c with
  | none => return (htNotFound, t)
  | some c => do
    let t := { t.setChain i c with size := t.size - 1 }
    let shrink ← t.shouldShrink
    let (_, t) ← t.adjustIf shrink
    return (htSuccess, t)

def reserve (t : HashTable κ ν) (minimumCapacity : Nat) : Except HtFault (Int × HashTable κ ν) :=
  if t.isInitialized = false then .error .assert
  else if minimumCapacity > t.threshold then t.resize (minimumCapacity / htLoadFactor)
  else .ok (htSuccess, t)

end HashTable

/-! ## What a table stands for -/

open Lib

theorem ok_bind {ε α β : Type} (a : α) (f : α → Except ε β) : (Except.ok a >>= f) = f a := rfl

/-- Strings of one length compare as equal exactly when they are. -/
theorem htDefaultCompare_eq_zero : ∀ {s t : Bytes}, s.length = t.length → (htDefaultCompare s t = 0 ↔ s = t)
  | [], [], _ => ⟨fun _ => rfl, fun _ => rfl⟩
  | a :: s, b :: t, h => by
    by_cases hab : a = b
    · rw [htDefaultCompare, if_pos hab, htDefaultCompare_eq_zero (Nat.succ.inj h), hab, List.cons.injEq]
      exact ⟨fun hst => ⟨rfl, hst⟩, And.right⟩
    · rw [htDefaultCompare, if_neg hab]
      have hne : a.toNat ≠ b.toNat := fun hn => hab (UInt8.toNat_inj.1 hn)
      refine ⟨fun hz => absurd ?_ hne, fun hst => absurd (List.cons.inj hst).1 hab⟩
      omega

variable [Key κ] {t : HashTable κ ν} {hash : Bytes → UInt64} {chains : List (List (Entry κ ν))}
  {m : Finmap fun _ : κ => ν} {k : κ} {v : ν}

/-- The number of a key's chain. -/
def htPlace (hash : Bytes → UInt64) (capacity : Nat) (key : κ) : Nat := (hash (Key.bytes key)).toNat % capacity

theorem htSlots_of_lt {n : Nat} (h : n < 2 ^ 61) : htSlots n = n := by
  unfold htSlots
  omega

theorem htSlots_lt {n : Nat} (h : 2 ^ 61 ≤ n) : htSlots n < n := by
  unfold htSlots
  omega

namespace HashTable

omit [Key κ] in
/-- An array whose bytes a `size_t` counts has the chains asked for. -/
theorem allocate_eq (t : HashTable κ ν) {n : Nat} (h : n < 2 ^ 61) : t.allocate n =
    { t with nodes := .array (List.replicate n []), capacity := n, threshold := n * htLoadFactor } := by
  have hmod : n * htLoadFactor % 2 ^ 64 = n * htLoadFactor := Nat.mod_eq_of_lt (by rw [htLoadFactor]; omega)
  rw [allocate, htSlots_of_lt h, hmod]

/-- The table is set up and stands for the map: as many chains as its capacity says, every entry in the chain of its key,
and no more entries than chains. -/
structure Holds (t : HashTable κ ν) (hash : Bytes → UInt64) (chains : List (List (Entry κ ν)))
    (m : Finmap fun _ : κ => ν) : Prop where
  hash_eq : t.hash = some hash
  compare_eq : t.compare = some htDefaultCompare
  nodes_eq : t.nodes = .array chains
  length : chains.length = t.capacity
  minimum : htMinimumCapacity ≤ t.capacity
  counted : t.capacity < 2 ^ 61
  threshold : t.threshold = t.capacity * htLoadFactor
  size : t.size = Multiset.card m.entries
  room : t.size ≤ t.capacity
  stands : Stands (htPlace hash t.capacity) chains m

def Is (t : HashTable κ ν) (m : Finmap fun _ : κ => ν) : Prop := ∃ hash chains, t.Holds hash chains m

theorem Holds.pos (h : t.Holds hash chains m) : 0 < t.capacity := Nat.lt_of_lt_of_le (by decide) h.minimum

theorem Holds.isInitialized (h : t.Holds hash chains m) : t.isInitialized = true := by
  rw [HashTable.isInitialized, h.nodes_eq]

/-! ## Reading -/

omit [Key κ] in
theorem chain_eq (hn : t.nodes = .array chains) {i : Nat} {c : List (Entry κ ν)} (hc : chains[i]? = some c) :
    t.chain i = .ok c := by
  simp only [chain, hn, hc]

omit [Key κ] in
theorem setChain_eq (hn : t.nodes = .array chains) (i : Nat) (c : List (Entry κ ν)) :
    t.setChain i c = { t with nodes := .array (chains.set i c) } := by
  simp only [setChain, hn]

theorem index_eq (hh : t.hash = some hash) (hpos : 0 < t.capacity) (k : κ) :
    t.index k = .ok (htPlace hash t.capacity k) := by
  simp only [index, hh, if_neg (Nat.ne_of_gt hpos)]
  rfl

/-- A key has a chain. -/
theorem Holds.key_chain (h : t.Holds hash chains m) (k : κ) :
    ∃ c, chains[htPlace hash t.capacity k]? = some c ∧ t.chain (htPlace hash t.capacity k) = .ok c := by
  have hlt : htPlace hash t.capacity k < chains.length := by
    rw [h.length]
    exact Nat.mod_lt _ h.pos
  exact ⟨_, List.getElem?_eq_getElem hlt, chain_eq h.nodes_eq (List.getElem?_eq_getElem hlt)⟩

/-- Every chain is visited. -/
theorem Holds.upTo (h : t.Holds hash chains m) : t.nodes.upTo t.capacity = .ok chains := by
  rw [h.nodes_eq, Nodes.upTo, if_pos (Nat.le_of_eq h.length.symm), ← h.length, List.take_length]

/-- **`ht_iterate` visits the entries of the map**, each once. -/
theorem Holds.iterate (h : t.Holds hash chains m) : t.iterate = .ok chains.flatten := by
  rw [HashTable.iterate, h.upTo]
  rfl

/-! ## Moving to another array -/

/-- A node goes to the front of the chain of its key, in an array that is being filled. -/
theorem relink_eq (hh : t.hash = some hash) (hn : t.nodes = .array chains) (hl : chains.length = t.capacity)
    (hpos : 0 < t.capacity) (hc : Chained (htPlace hash t.capacity) chains) (x : Entry κ ν) :
    ∃ chains', t.relink x = .ok { t with nodes := .array chains' } ∧ chains'.length = t.capacity ∧
      Chained (htPlace hash t.capacity) chains' ∧ chains'.flatten.Perm (x :: chains.flatten) := by
  have hlt : htPlace hash t.capacity x.1 < chains.length := by
    rw [hl]
    exact Nat.mod_lt _ hpos
  have hget := List.getElem?_eq_getElem hlt
  refine ⟨_, ?_, by rw [List.length_set, hl], hc.push hget rfl, push_perm hget x⟩
  rw [relink, index_eq hh hpos, ok_bind, pushFront, chain_eq hn hget, ok_bind, setChain_eq hn]
  rfl

theorem foldlM_relink : ∀ (l : List (Entry κ ν)) {t : HashTable κ ν} {chains : List (List (Entry κ ν))},
    t.hash = some hash → t.nodes = .array chains → chains.length = t.capacity → 0 < t.capacity →
    Chained (htPlace hash t.capacity) chains →
    ∃ chains', l.foldlM relink t = .ok { t with nodes := .array chains' } ∧ chains'.length = t.capacity ∧
      Chained (htPlace hash t.capacity) chains' ∧ chains'.flatten.Perm (l ++ chains.flatten)
  | [], t, chains, _, hn, hl, _, hc => ⟨chains, by rw [List.foldlM_nil, ← hn]; rfl, hl, hc, .refl _⟩
  | x :: l, t, chains, hh, hn, hl, hpos, hc => by
    obtain ⟨chains₁, hrun₁, hl₁, hc₁, hp₁⟩ := relink_eq hh hn hl hpos hc x
    obtain ⟨chains₂, hrun₂, hl₂, hc₂, hp₂⟩ :=
      foldlM_relink l (t := { t with nodes := .array chains₁ }) hh rfl hl₁ hpos hc₁
    refine ⟨chains₂, ?_, hl₂, hc₂, ?_⟩
    · rw [List.foldlM_cons, hrun₁, ok_bind, hrun₂]
    · exact (hp₂.trans (hp₁.append_left l)).trans List.perm_middle

/-- **Moving every entry to an array of another size changes nothing.** -/
theorem Holds.resize (h : t.Holds hash chains m) {n : Nat} (hroom : t.size ≤ max n htMinimumCapacity) (hn : n < 2 ^ 61) :
    ∃ chains' t', t.resize n = .ok (htSuccess, t') ∧ t'.Holds hash chains' m ∧ t'.size = t.size ∧
      t'.capacity = max n htMinimumCapacity := by
  by_cases hstay : n < htMinimumCapacity ∧ ¬ t.capacity > htMinimumCapacity
  · have hmin := h.minimum
    exact ⟨chains, t, by rw [HashTable.resize, if_pos hstay], h, rfl, by omega⟩
  have hcap : (if n < htMinimumCapacity then htMinimumCapacity else n) = max n htMinimumCapacity := by
    split <;> omega
  have hpos : 0 < max n htMinimumCapacity := Nat.lt_of_lt_of_le (by decide) (Nat.le_max_right n htMinimumCapacity)
  have hlt : max n htMinimumCapacity < 2 ^ 61 := Nat.max_lt.2 ⟨hn, by decide⟩
  obtain ⟨chains', hrun, hl, hc, hp⟩ := foldlM_relink chains.flatten
    (t := { t with
      nodes := .array (List.replicate (max n htMinimumCapacity) []), capacity := max n htMinimumCapacity,
      threshold := max n htMinimumCapacity * htLoadFactor }) h.hash_eq rfl List.length_replicate hpos (chained_replicate _ _)
  rw [show (List.replicate (max n htMinimumCapacity) ([] : List (Entry κ ν))).flatten = [] from
    List.flatten_replicate_nil, List.append_nil] at hp
  refine ⟨chains', { t with
      nodes := .array chains', capacity := max n htMinimumCapacity, threshold := max n htMinimumCapacity * htLoadFactor }, ?_,
    ⟨h.hash_eq, h.compare_eq, rfl, hl, Nat.le_max_right .., hlt, rfl, h.size, hroom, h.stands.rearrange hc hp⟩, rfl, rfl⟩
  simp only [HashTable.resize, if_neg hstay, hcap, rehash, t.allocate_eq hlt, h.upTo, ok_bind, hrun]
  rw [h.nodes_eq]
  rfl

/-- The capacity an insert looks for the key in. -/
def grown (t : HashTable κ ν) : Nat := if t.size = t.capacity then t.size * htGrowthFactor else t.capacity

/-- Before an insert looks for the key there is room for one entry more. -/
theorem Holds.grow (h : t.Holds hash chains m) (hlt : t.grown < 2 ^ 61) : ∃ b chains' t', t.shouldGrow = .ok b ∧
    t.adjustIf b = .ok (htSuccess, t') ∧ t'.Holds hash chains' m ∧ t'.size < t'.capacity ∧ t'.capacity = t.grown := by
  rw [shouldGrow, if_pos h.room]
  rw [grown] at hlt ⊢
  by_cases hfull : t.size = t.capacity
  · rw [if_pos hfull] at hlt
    have hpos := h.pos
    have hmin := h.minimum
    obtain ⟨chains', t', hrun, h', hsize, hcap⟩ :=
      h.resize (n := t.size * htGrowthFactor) (by rw [htGrowthFactor]; omega) hlt
    rw [htGrowthFactor] at hcap
    refine ⟨true, chains', t', by simpa using hfull, hrun, h', by omega, ?_⟩
    rw [if_pos hfull, hcap, htGrowthFactor]
    omega
  · exact ⟨false, chains, t, by simpa using hfull, rfl, h, Nat.lt_of_le_of_ne h.room hfull, by rw [if_neg hfull]⟩

/-- After an erase the array is taken back to its smallest when the last entry went. -/
theorem Holds.shrink (h : t.Holds hash chains m) : ∃ b chains' t', t.shouldShrink = .ok b ∧
    t.adjustIf b = .ok (htSuccess, t') ∧ t'.Holds hash chains' m ∧
    (t'.capacity = t.capacity ∨ t'.size = 0 ∧ t'.capacity = htMinimumCapacity) := by
  rw [shouldShrink, if_pos h.room]
  by_cases hempty : t.size = t.capacity * htShrinkThreshold
  · have hzero : t.size = 0 := hempty.trans (Nat.mul_zero _)
    obtain ⟨chains', t', hrun, h', hsize, hcap⟩ := h.resize (n := t.size * htGrowthFactor) (by omega)
      (by rw [hzero, Nat.zero_mul]; decide)
    refine ⟨true, chains', t', by simpa using hempty, hrun, h', .inr ⟨hsize.trans hzero, ?_⟩⟩
    rw [hcap, hzero]
    rfl
  · exact ⟨false, chains, t, by simpa using hempty, rfl, h, .inl rfl⟩

/-- **`ht_reserve` keeps the map**, whatever the capacity asked for, so long as its array can be allocated. -/
theorem Holds.reserve (h : t.Holds hash chains m) {n : Nat} (hlt : n / htLoadFactor < 2 ^ 61) :
    ∃ chains' t', t.reserve n = .ok (htSuccess, t') ∧ t'.Holds hash chains' m := by
  rw [HashTable.reserve, h.isInitialized, if_neg (by decide)]
  by_cases hn : n > t.threshold
  · have hroom := h.room
    have hthreshold := h.threshold
    rw [htLoadFactor] at hthreshold
    obtain ⟨chains', t', hrun, h', -⟩ := h.resize (n := n / htLoadFactor) (by rw [htLoadFactor]; omega) hlt
    exact ⟨chains', t', by rw [if_pos hn, hrun], h'⟩
  · exact ⟨chains, t, by rw [if_neg hn], h⟩

theorem Holds.destroy (h : t.Holds hash chains m) : t.destroy = .ok (htSuccess, { t with nodes := .freed }) := by
  rw [HashTable.destroy, h.isInitialized, if_neg (by decide), h.upTo, ok_bind, h.nodes_eq]
  rfl

/-- An array of empty chains holds the empty map. -/
theorem holds_empty {t : HashTable κ ν} (hh : t.hash = some hash) (hc : t.compare = some htDefaultCompare)
    (hn : t.nodes = .array (List.replicate t.capacity [])) (hmin : htMinimumCapacity ≤ t.capacity)
    (hlt : t.capacity < 2 ^ 61) (hth : t.threshold = t.capacity * htLoadFactor) (hs : t.size = 0) :
    t.Holds hash (List.replicate t.capacity []) ∅ :=
  ⟨hh, hc, hn, List.length_replicate, hmin, hlt, hth, hs, by rw [hs]; exact Nat.zero_le _, stands_empty _ _⟩

theorem setup_is {n : Nat} (hn : n < 2 ^ 61) : (setup n : Int × HashTable κ ν).1 = htSuccess ∧ (setup n : Int × HashTable κ ν).2.Is ∅ := by
  have hmin : htMinimumCapacity ≤ if n < htMinimumCapacity then htMinimumCapacity else n := by
    split <;> omega
  have hlt : (if n < htMinimumCapacity then htMinimumCapacity else n) < 2 ^ 61 := by
    split
    · decide
    · exact hn
  rw [setup, allocate_eq _ hlt]
  exact ⟨rfl, htDefaultHash, _, holds_empty rfl rfl rfl hmin hlt rfl rfl⟩

theorem Holds.clear (h : t.Holds hash chains m) : ∃ chains' t', t.clear = .ok (htSuccess, t') ∧
    t'.Holds hash chains' ∅ ∧ t'.capacity = htMinimumCapacity := by
  refine ⟨_, { t.allocate htMinimumCapacity with size := 0 }, ?_,
    holds_empty h.hash_eq h.compare_eq rfl (Nat.le_refl _)
      (show htMinimumCapacity < 2 ^ 61 by decide) rfl rfl, rfl⟩
  rw [HashTable.clear, h.isInitialized, if_neg (by decide), h.destroy, ok_bind]
  rfl

/-! ## Copying -/

omit [Key κ] in
/-- A chain copied node by node comes out in reverse. -/
theorem foldlM_pushFront (i : Nat) : ∀ (c : List (Entry κ ν)) {t : HashTable κ ν} {chains : List (List (Entry κ ν))}
    {c₀ : List (Entry κ ν)}, t.nodes = .array chains → chains[i]? = some c₀ →
    c.foldlM (fun t x => t.pushFront i x) t = .ok { t with nodes := .array (chains.set i (c.reverse ++ c₀)) }
  | [], t, chains, c₀, hn, hi => by
    obtain ⟨hlt, rfl⟩ := List.getElem?_eq_some_iff.1 hi
    rw [List.foldlM_nil, List.reverse_nil, List.nil_append, List.set_getElem_self, ← hn]
    rfl
  | x :: c, t, chains, c₀, hn, hi => by
    have hlt := (List.getElem?_eq_some_iff.1 hi).1
    rw [List.foldlM_cons, pushFront, chain_eq hn hi, ok_bind, setChain_eq hn]
    show c.foldlM _ { t with nodes := .array (chains.set i (x :: c₀)) } = _
    rw [foldlM_pushFront i c (t := { t with nodes := .array (chains.set i (x :: c₀)) }) rfl (List.getElem?_set_self hlt),
      List.set_set, List.reverse_cons, List.append_assoc]
    rfl

omit [Key κ] in
/-- The chains copied so far, the empty ones still to be filled. -/
theorem copyChains_eq : ∀ (cs : List (List (Entry κ ν))) {t : HashTable κ ν} {d : List (List (Entry κ ν))},
    t.nodes = .array (d ++ List.replicate cs.length []) →
    t.copyChains d.length cs = .ok { t with nodes := .array (d ++ cs.map List.reverse) }
  | [], t, d, hn => by
    rw [copyChains, List.map_nil]
    rw [List.length_nil, List.replicate_zero] at hn
    rw [← hn]
  | c :: cs, t, d, hn => by
    have hget : (d ++ List.replicate (c :: cs).length ([] : List (Entry κ ν)))[d.length]? = some [] := by
      rw [List.getElem?_append_right (Nat.le_refl _), Nat.sub_self, List.length_cons, List.replicate_succ]
      rfl
    have hset : (d ++ List.replicate (c :: cs).length ([] : List (Entry κ ν))).set d.length (c.reverse ++ []) =
        (d ++ [c.reverse]) ++ List.replicate cs.length [] := by
      rw [List.set_append_right _ _ (Nat.le_refl _), Nat.sub_self, List.length_cons, List.replicate_succ,
        List.set_cons_zero, List.append_nil, List.append_assoc]
      rfl
    rw [copyChains, foldlM_pushFront d.length c hn hget, ok_bind, hset]
    have hlen : d.length + 1 = (d ++ [c.reverse]).length := by rw [List.length_append]; rfl
    rw [hlen, copyChains_eq cs (t := { t with nodes := .array ((d ++ [c.reverse]) ++ List.replicate cs.length []) }) rfl,
      List.map_cons, List.append_assoc d [c.reverse] (cs.map List.reverse)]
    rfl

/-- The table a copy fills, its array new. -/
def copied (first second : HashTable κ ν) (chains : List (List (Entry κ ν))) : HashTable κ ν :=
  { first with
    capacity := second.capacity, threshold := second.capacity * htLoadFactor, hash := second.hash,
    compare := second.compare, size := second.size, nodes := .array chains }

omit [Key κ] in
theorem copy_eq {same : Bool} {first second : HashTable κ ν} {cs : List (List (Entry κ ν))}
    (hi : second.isInitialized = true) (hlt : second.capacity < 2 ^ 61) (hlen : cs.length = second.capacity)
    (hread : (if same then Nodes.array (List.replicate second.capacity []) else second.nodes).upTo second.capacity = .ok cs) :
    copy same first second = .ok (htSuccess, first.copied second (cs.map List.reverse)) := by
  have hfill := copyChains_eq cs (t := first.copied second (List.replicate second.capacity [])) (d := []) (by rw [hlen]; rfl)
  rw [copy, hi, if_neg (by decide), first.allocate_eq hlt]
  have hnodes : (if same then first.copied second (List.replicate second.capacity []) else second).nodes =
      if same then Nodes.array (List.replicate second.capacity []) else second.nodes := by
    cases same <;> rfl
  show (do
    let chains ← (if same then first.copied second (List.replicate second.capacity []) else second).nodes.upTo second.capacity
    let first ← (first.copied second (List.replicate second.capacity [])).copyChains 0 chains
    return (htSuccess, first)) = _
  simp only [hnodes, hread, ok_bind]
  show (do
    let first ← (first.copied second (List.replicate second.capacity [])).copyChains ([] : List (List (Entry κ ν))).length cs
    return (htSuccess, first)) = _
  rw [hfill]
  rfl

/-- **A copy holds the map of the table copied**, each chain in reverse. -/
theorem Holds.copy (h : t.Holds hash chains m) (first : HashTable κ ν) :
    HashTable.copy false first t = .ok (htSuccess, first.copied t (chains.map List.reverse)) ∧
      (first.copied t (chains.map List.reverse)).Holds hash (chains.map List.reverse) m :=
  ⟨copy_eq h.isInitialized h.counted h.length h.upTo,
    h.hash_eq, h.compare_eq, rfl, by rw [List.length_map]; exact h.length, h.minimum, h.counted, rfl, h.size, h.room,
    h.stands.rearrange h.stands.chained.reverse (flatten_reverse_perm chains)⟩

/-- **A table copied onto itself is emptied**, its size staying as it was. -/
theorem Holds.copy_self (h : t.Holds hash chains m) :
    HashTable.copy true t t = .ok (htSuccess, t.copied t (List.replicate t.capacity [])) := by
  have hread : (if true then Nodes.array (List.replicate t.capacity ([] : List (Entry κ ν))) else t.nodes).upTo t.capacity =
      .ok (List.replicate t.capacity []) := by
    rw [if_pos rfl, Nodes.upTo, if_pos (Nat.le_of_eq List.length_replicate.symm),
      List.take_of_length_le (Nat.le_of_eq List.length_replicate)]
  rw [copy_eq h.isInitialized h.counted List.length_replicate hread, List.map_replicate]
  rfl

/-! ## Looking a key up -/

variable [DecidableEq κ]

theorem equal_eq (hc : t.compare = some htDefaultCompare) (first second : κ) :
    t.equal first second = .ok (decide (first = second)) := by
  have hlen : (Key.bytes first).length = (Key.bytes second).length := by rw [Key.length_bytes, Key.length_bytes]
  simp only [equal, hc, htDefaultCompare_eq_zero hlen, Key.bytes_inj.eq_iff]

theorem overwrite_eq (hc : t.compare = some htDefaultCompare) (k : κ) (v : ν) : ∀ c : List (Entry κ ν),
    t.overwrite k v c = .ok (if k ∈ c.keys then some (c.kreplace k v) else none)
  | [] => rfl
  | x :: c => by
    rw [overwrite, equal_eq hc, ok_bind]
    by_cases hx : k = x.1
    · have hmem : k ∈ List.keys (x :: c) := by
        rw [List.keys_cons, hx]
        exact List.mem_cons_self
      rw [if_pos (by simpa using hx), if_pos hmem, List.kreplace, List.lookmap_cons_some _ _ (by rw [if_pos hx]), ← hx]
      rfl
    · have hmem : k ∈ List.keys (x :: c) ↔ k ∈ c.keys := by
        rw [List.keys_cons, List.mem_cons, or_iff_right hx]
      rw [if_neg (by simpa using hx), overwrite_eq hc, ok_bind, List.kreplace,
        List.lookmap_cons_none _ _ (by rw [if_neg hx])]
      by_cases hk : k ∈ c.keys
      · rw [if_pos hk, if_pos (hmem.2 hk)]
        rfl
      · rw [if_neg hk, if_neg fun hm => hk (hmem.1 hm)]
        rfl

theorem find_eq (hc : t.compare = some htDefaultCompare) (k : κ) : ∀ c : List (Entry κ ν), t.find k c = .ok (c.dlookup k)
  | [] => rfl
  | ⟨k', v⟩ :: c => by
    rw [find, equal_eq hc, ok_bind]
    by_cases hx : k = k'
    · rw [if_pos (by simpa using hx), ← hx, List.dlookup_cons_eq]
      rfl
    · rw [if_neg (by simpa using hx), find_eq hc, List.dlookup_cons_ne _ _ hx]

theorem unlink_eq (hc : t.compare = some htDefaultCompare) (k : κ) : ∀ c : List (Entry κ ν),
    t.unlink k c = .ok (if k ∈ c.keys then some (c.kerase k) else none)
  | [] => rfl
  | x :: c => by
    rw [unlink, equal_eq hc, ok_bind]
    by_cases hx : k = x.1
    · have hmem : k ∈ List.keys (x :: c) := by
        rw [List.keys_cons, hx]
        exact List.mem_cons_self
      rw [if_pos (by simpa using hx), if_pos hmem, List.kerase_cons_eq hx]
      rfl
    · have hmem : k ∈ List.keys (x :: c) ↔ k ∈ c.keys := by
        rw [List.keys_cons, List.mem_cons, or_iff_right hx]
      rw [if_neg (by simpa using hx), unlink_eq hc, ok_bind, List.kerase_cons_ne hx]
      by_cases hk : k ∈ c.keys
      · rw [if_pos hk, if_pos (hmem.2 hk)]
        rfl
      · rw [if_neg hk, if_neg fun hm => hk (hmem.1 hm)]
        rfl

/-- **`ht_lookup` finds what the map holds.** -/
theorem Holds.search (h : t.Holds hash chains m) (k : κ) : t.search k = .ok (m.lookup k) := by
  obtain ⟨c, hc, hchain⟩ := h.key_chain k
  rw [HashTable.search, index_eq h.hash_eq h.pos, ok_bind, hchain, ok_bind, find_eq h.compare_eq, h.stands.lookup hc]

theorem Holds.contains (h : t.Holds hash chains m) (k : κ) :
    t.contains k = .ok (if k ∈ m then htFound else htNotFound) := by
  rw [HashTable.contains, h.isInitialized, if_neg (by decide), h.search, ok_bind]
  by_cases hk : k ∈ m
  · rw [if_pos hk, if_pos (Finmap.lookup_isSome.2 hk)]
    rfl
  · rw [if_neg hk, if_neg fun hs => hk (Finmap.lookup_isSome.1 hs)]
    rfl

/-! ## Changing -/

/-- **`ht_insert` puts the pair into the map**, and says whether the key was there. -/
theorem Holds.insert (h : t.Holds hash chains m) (hlt : t.grown < 2 ^ 61) (k : κ) (v : ν) :
    ∃ chains' t', t.insert k v = .ok (if k ∈ m then htUpdated else htInserted, t') ∧
      t'.Holds hash chains' (m.insert k v) ∧ t'.capacity = t.grown := by
  obtain ⟨b, chains₁, t₁, hb, hgrow, h₁, hroom, hcap⟩ := h.grow hlt
  obtain ⟨c, hc, hchain⟩ := h₁.key_chain k
  have hmem := h₁.stands.mem hc
  have hlen : ∀ c', (chains₁.set (htPlace hash t₁.capacity k) c').length = t₁.capacity := fun c' => by
    rw [List.length_set, h₁.length]
  by_cases hk : k ∈ m
  · have hkc := hmem.1 hk
    refine ⟨_, { t₁ with nodes := .array (chains₁.set (htPlace hash t₁.capacity k) (c.kreplace k v)) }, ?_,
      ⟨h₁.hash_eq, h₁.compare_eq, rfl, hlen _, h₁.minimum, h₁.counted, h₁.threshold, ?_, h₁.room, h₁.stands.replace hc hkc v⟩, hcap⟩
    · rw [HashTable.insert, h.isInitialized, if_neg (by decide), hb]
      simp only [hgrow, index_eq h₁.hash_eq h₁.pos, ok_bind, hchain, overwrite_eq h₁.compare_eq, if_pos hkc, if_pos hk,
        setChain_eq h₁.nodes_eq]
      rfl
    · rw [card_insert_mem hk]
      exact h₁.size
  · have hkc := fun hin => hk (hmem.2 hin)
    refine ⟨_, { t₁ with nodes := .array (chains₁.set (htPlace hash t₁.capacity k) (⟨k, v⟩ :: c)), size := t₁.size + 1 },
      ?_, ⟨h₁.hash_eq, h₁.compare_eq, rfl, hlen _, h₁.minimum, h₁.counted, h₁.threshold, ?_, hroom, h₁.stands.push hc hkc v⟩, hcap⟩
    · rw [HashTable.insert, h.isInitialized, if_neg (by decide), hb]
      simp only [hgrow, index_eq h₁.hash_eq h₁.pos, ok_bind, hchain, overwrite_eq h₁.compare_eq, if_neg hkc, if_neg hk,
        pushFront, setChain_eq h₁.nodes_eq]
      rfl
    · rw [card_insert_notMem hk, ← h₁.size]

/-- The table without the first node of the key, which its map has. -/
theorem Holds.unlinked (h : t.Holds hash chains m) (hk : k ∈ m) {c : List (Entry κ ν)}
    (hc : chains[htPlace hash t.capacity k]? = some c) (hkc : k ∈ c.keys) :
    HashTable.Holds
      { t with nodes := .array (chains.set (htPlace hash t.capacity k) (c.kerase k)), size := t.size - 1 } hash
      (chains.set (htPlace hash t.capacity k) (c.kerase k)) (m.erase k) := by
  have hcard := card_erase_mem hk
  have hroom := h.room
  have hsize := h.size
  exact ⟨h.hash_eq, h.compare_eq, rfl, by rw [List.length_set]; exact h.length, h.minimum, h.counted, h.threshold,
    by show t.size - 1 = _; omega, by show t.size - 1 ≤ t.capacity; omega, h.stands.erase hc hkc⟩

/-- **`ht_erase` takes the key out of the map**, and answers 0 whether it was there or not. -/
theorem Holds.erase (h : t.Holds hash chains m) (k : κ) :
    ∃ chains' t', t.erase k = .ok (htSuccess, t') ∧ t'.Holds hash chains' (m.erase k) ∧
      (t'.capacity = t.capacity ∨ t'.size = 0 ∧ t'.capacity = htMinimumCapacity) := by
  obtain ⟨c, hc, hchain⟩ := h.key_chain k
  have hmem := h.stands.mem hc
  by_cases hk : k ∈ m
  · have hkc := hmem.1 hk
    have h₁ := h.unlinked hk hc hkc
    obtain ⟨b, chains₂, t₂, hb, hshrink, h₂, hcap⟩ := h₁.shrink
    refine ⟨chains₂, t₂, ?_, h₂, hcap⟩
    simp only [HashTable.erase, index_eq h.hash_eq h.pos, ok_bind, hchain, unlink_eq h.compare_eq, if_pos hkc,
      setChain_eq h.nodes_eq, hb, hshrink]
    rfl
  · have hkc := fun hin => hk (hmem.2 hin)
    rw [erase_notMem hk]
    refine ⟨chains, t, ?_, h, .inl rfl⟩
    rw [HashTable.erase, index_eq h.hash_eq h.pos, ok_bind, hchain, ok_bind, unlink_eq h.compare_eq, if_neg hkc, ok_bind]
    rfl

/-! ## An array that is too short -/

omit [Key κ] [DecidableEq κ]

theorem not_lt_minimum {n : Nat} (hn : 2 ^ 61 ≤ n) : ¬ n < htMinimumCapacity := by
  rw [htMinimumCapacity]
  omega

/-- The array has fewer chains than the capacity says. -/
def Short (t : HashTable κ ν) : Prop := ∃ chains, t.nodes = .array chains ∧ chains.length < t.capacity

theorem allocate_short (t : HashTable κ ν) {n : Nat} (hn : 2 ^ 61 ≤ n) : (t.allocate n).Short :=
  ⟨_, rfl, by rw [List.length_replicate]; exact htSlots_lt hn⟩

theorem Short.setChain (h : t.Short) (i : Nat) (c : List (Entry κ ν)) : (t.setChain i c).Short := by
  obtain ⟨chains, hn, hlt⟩ := h
  rw [setChain_eq hn]
  exact ⟨_, rfl, by rw [List.length_set]; exact hlt⟩

theorem Short.pushFront (h : t.Short) {i : Nat} {x : Entry κ ν} {t' : HashTable κ ν} (hr : t.pushFront i x = .ok t') :
    t'.Short := by
  obtain ⟨c, -, hr⟩ := bind_returns.1 hr
  cases hr
  exact h.setChain i _

variable [Key κ]

theorem Short.relinks : ∀ (l : List (Entry κ ν)) {t t' : HashTable κ ν}, t.Short → l.foldlM relink t = .ok t' → t'.Short
  | [], t, t', h, hr => by
    cases hr
    exact h
  | x :: l, t, t', h, hr => by
    rw [List.foldlM_cons] at hr
    obtain ⟨t₁, hx, hr⟩ := bind_returns.1 hr
    obtain ⟨i, -, hx⟩ := bind_returns.1 hx
    exact relinks l (h.pushFront hx) hr

theorem resize_short {n : Nat} (hn : 2 ^ 61 ≤ n) {rv : Int} {t' : HashTable κ ν} (hr : t.resize n = .ok (rv, t')) :
    t'.Short := by
  have hmin := not_lt_minimum hn
  rw [HashTable.resize, if_neg fun h => hmin h.1] at hr
  simp only [if_neg hmin] at hr
  obtain ⟨t₁, hrehash, hr⟩ := bind_returns.1 hr
  obtain ⟨nodes, -, hr⟩ := bind_returns.1 hr
  cases hr
  obtain ⟨chains, -, hrelinks⟩ := bind_returns.1 hrehash
  exact (t.allocate_short hn).relinks _ hrelinks

omit [Key κ] in
/-- **A table set up, grown or reserved beyond what a `size_t` counts** is left with too short an array. -/
theorem setup_short {n : Nat} (hn : 2 ^ 61 ≤ n) : (setup n : Int × HashTable κ ν).2.Short := by
  rw [setup, if_neg (not_lt_minimum hn)]
  obtain ⟨chains, hnodes, hlt⟩ := allocate_short (initializer : HashTable κ ν) hn
  exact ⟨chains, hnodes, hlt⟩

theorem reserve_short {n : Nat} (hn : 2 ^ 61 ≤ n / htLoadFactor) (hth : t.threshold < n) {rv : Int} {t' : HashTable κ ν}
    (hr : t.reserve n = .ok (rv, t')) : t'.Short := by
  rw [HashTable.reserve] at hr
  by_cases hi : t.isInitialized = false
  · rw [if_pos hi] at hr
    cases hr
  · rw [if_neg hi, if_pos hth] at hr
    exact resize_short hn hr

theorem insert_short [DecidableEq κ] (hfull : t.size = t.capacity) (hn : 2 ^ 61 ≤ t.size * htGrowthFactor) {k : κ} {v : ν}
    {rv : Int} {t' : HashTable κ ν} (hr : t.insert k v = .ok (rv, t')) : t'.Short := by
  rw [HashTable.insert] at hr
  by_cases hi : t.isInitialized = false
  · rw [if_pos hi] at hr
    cases hr
  rw [if_neg hi] at hr
  obtain ⟨b, hb, hr⟩ := bind_returns.1 hr
  rw [shouldGrow, if_pos (Nat.le_of_eq hfull), decide_eq_true hfull] at hb
  obtain rfl := Except.ok.inj hb
  obtain ⟨⟨rv₁, t₁⟩, hgrow, hr⟩ := bind_returns.1 hr
  have h₁ : t₁.Short := resize_short hn hgrow
  obtain ⟨i, -, hr⟩ := bind_returns.1 hr
  obtain ⟨c, -, hr⟩ := bind_returns.1 hr
  obtain ⟨found, -, hr⟩ := bind_returns.1 hr
  cases found with
  | some c' =>
    cases hr
    exact h₁.setChain i c'
  | none =>
    obtain ⟨t₂, hpush, hr⟩ := bind_returns.1 hr
    cases hr
    obtain ⟨chains, hn, hlt⟩ := h₁.pushFront hpush
    exact ⟨chains, hn, hlt⟩

/-- A table grows into an array that is long enough, or was not full. -/
theorem Holds.insert_counted [DecidableEq κ] (h : t.Holds hash chains m) {k : κ} {v : ν} {rv : Int} {t' : HashTable κ ν}
    (hr : t.insert k v = .ok (rv, t')) (hlong : ¬ t'.Short) : t.grown < 2 ^ 61 := by
  have hcounted := h.counted
  unfold grown
  by_cases hfull : t.size = t.capacity
  · rw [if_pos hfull]
    by_contra hn
    exact hlong (insert_short hfull (Nat.le_of_not_lt hn) hr)
  · rw [if_neg hfull]
    exact hcounted

theorem Holds.reserve_counted (h : t.Holds hash chains m) {n : Nat} {rv : Int} {t' : HashTable κ ν}
    (hr : t.reserve n = .ok (rv, t')) (hlong : ¬ t'.Short) : n / htLoadFactor < 2 ^ 61 := by
  have hcounted := h.counted
  by_contra hn
  -- what the array has room for it does not exceed
  have hth : t.threshold < n := by
    rw [h.threshold]
    rw [htLoadFactor] at hn ⊢
    omega
  exact hlong (reserve_short (Nat.le_of_not_lt hn) hth hr)

theorem Short.not_holds (hs : t.Short) (h : t.Holds hash chains m) : False := by
  obtain ⟨chains', hn, hlt⟩ := hs
  cases h.nodes_eq.symm.trans hn
  exact absurd h.length (Nat.ne_of_lt hlt)

end HashTable

end Nftp
