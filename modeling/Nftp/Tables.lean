import Nftp.Hashtable
import Nftp.Lib.Run
/-!
# Tables — the calls of `hashtable.c` on a family of tables

Each table that is set up is a finite map, and each call does to the maps what its name says: whatever the order of the
calls, the growing and shrinking of the arrays cannot be told from the answers.  Some calls have a condition.  `ht_swap`
leaves the capacities where they are, so they must be equal; `ht_copy` of a table onto itself loses its entries; and an
array of 2^61 pointers or more is allocated too short, since its size in bytes wraps.
-/
namespace Nftp

open Lib
open Function (update update_self update_of_ne)

variable {ι κ ν : Type}

inductive HtCall (ι κ ν : Type)
  | setup (i : ι) (capacity : Nat)
  | copy (first second : ι)
  | move (first second : ι)
  | swap (first second : ι)
  | destroy (i : ι)
  | insert (i : ι) (key : κ) (value : ν)
  | contains (i : ι) (key : κ)
  | lookup (i : ι) (key : κ)
  | erase (i : ι) (key : κ)
  | clear (i : ι)
  | isEmpty (i : ι)
  | reserve (i : ι) (minimumCapacity : Nat)
  | iterate (i : ι)

/-- What a call answers: a code, what a pointer returned points to, or the entries its callback was given. -/
inductive HtAns (κ ν : Type)
  | code (rv : Int)
  | found (value : Option ν)
  | visited (entries : List (Entry κ ν))

def htCall [DecidableEq ι] [Key κ] (f : ι → HashTable κ ν) :
    HtCall ι κ ν → Except HtFault (HtAns κ ν × (ι → HashTable κ ν))
  | .setup i capacity =>
    let (rv, t) := HashTable.setup capacity
    .ok (.code rv, update f i t)
  | .copy first second => do
    let (rv, t) ← HashTable.copy (first = second) (f first) (f second)
    return (.code rv, update f first t)
  | .move first second => do
    let (rv, t, u) ← (f second).move
    return (.code rv, update (update f first t) second u)
  | .swap first second => do
    let (rv, t, u) ← HashTable.swap (f first) (f second)
    return (.code rv, update (update f first t) second u)
  | .destroy i => do
    let (rv, t) ← (f i).destroy
    return (.code rv, update f i t)
  | .insert i key value => do
    let (rv, t) ← (f i).insert key value
    return (.code rv, update f i t)
  | .contains i key => do
    let rv ← (f i).contains key
    return (.code rv, f)
  | .lookup i key => do
    let value ← (f i).lookup key
    return (.found value, f)
  | .erase i key => do
    let (rv, t) ← (f i).erase key
    return (.code rv, update f i t)
  | .clear i => do
    let (rv, t) ← (f i).clear
    return (.code rv, update f i t)
  | .isEmpty i => .ok (.code (f i).isEmpty, f)
  | .reserve i minimumCapacity => do
    let (rv, t) ← (f i).reserve minimumCapacity
    return (.code rv, update f i t)
  | .iterate i => do
    let entries ← (f i).iterate
    return (.visited entries, f)

/-- A call with its answer. -/
def HtStep [DecidableEq ι] [Key κ] (f : ι → HashTable κ ν) (c : HtCall ι κ ν × HtAns κ ν) (f' : ι → HashTable κ ν) : Prop :=
  htCall f c.1 = .ok (c.2, f')

/-! ## The maps -/

/-- What the tables are for: a finite map each, or no table yet. -/
abbrev Maps (ι κ ν : Type) := ι → Option (Finmap fun _ : κ => ν)

/-- What a call answers and does to the maps.  An entry is visited once, in no particular order. -/
def HtSpec [DecidableEq ι] [DecidableEq κ] (g : Maps ι κ ν) : HtCall ι κ ν → HtAns κ ν → Maps ι κ ν → Prop
  | .setup i _, a, g' => a = .code htSuccess ∧ g' = update g i (some ∅)
  | .copy first second, a, g' => (g second).isSome ∧ a = .code htSuccess ∧ g' = update g first (g second)
  | .move first second, a, g' =>
    (g second).isSome ∧ a = .code htSuccess ∧ g' = update (update g first (g second)) second none
  | .swap first second, a, g' =>
    (g first).isSome ∧ (g second).isSome ∧ a = .code htSuccess ∧
      g' = update (update g first (g second)) second (g first)
  | .destroy i, a, g' => (g i).isSome ∧ a = .code htSuccess ∧ g' = update g i none
  | .insert i key value, a, g' => ∃ m, g i = some m ∧
      a = .code (if key ∈ m then htUpdated else htInserted) ∧ g' = update g i (some (m.insert key value))
  | .contains i key, a, g' => ∃ m, g i = some m ∧ a = .code (if key ∈ m then htFound else htNotFound) ∧ g' = g
  | .lookup i key, a, g' => ∃ m, g i = some m ∧ a = .found (m.lookup key) ∧ g' = g
  | .erase i key, a, g' => ∃ m, g i = some m ∧ a = .code htSuccess ∧ g' = update g i (some (m.erase key))
  | .clear i, a, g' => (g i).isSome ∧ a = .code htSuccess ∧ g' = update g i (some ∅)
  | .isEmpty i, a, g' => ∃ m, g i = some m ∧ (m = ∅ ∧ a = .code 1 ∨ m ≠ ∅ ∧ a = .code 0) ∧ g' = g
  | .reserve i _, a, g' => (g i).isSome ∧ a = .code htSuccess ∧ g' = g
  | .iterate i, a, g' => ∃ m, ∃ xs : List (Entry κ ν), g i = some m ∧ m.entries = xs ∧ a = .visited xs ∧ g' = g

/-- There is an array. -/
def HashTable.isUp (t : HashTable κ ν) : Bool :=
  match t.nodes with
  | .array _ => true
  | _ => false

/-- The tables a call reads are set up; a swap is between equal capacities, only an empty table is copied onto itself, and
a `size_t` counts the bytes of the array a table is set up with, grows into or reserves. -/
def HtCall.Careful (f : ι → HashTable κ ν) : HtCall ι κ ν → Prop
  | .setup _ capacity => capacity < 2 ^ 61
  | .copy first second => (f second).isUp ∧ (first = second → (f first).size = 0)
  | .move _ second => (f second).isUp
  | .swap first second => (f first).isUp ∧ (f second).isUp ∧ (f first).capacity = (f second).capacity
  | .destroy i => (f i).isUp
  | .insert i _ _ => (f i).isUp ∧ (f i).grown < 2 ^ 61
  | .contains i _ => (f i).isUp
  | .lookup i _ => (f i).isUp
  | .erase i _ => (f i).isUp
  | .clear i => (f i).isUp
  | .isEmpty i => (f i).isUp
  | .reserve i minimumCapacity => (f i).isUp ∧ minimumCapacity / htLoadFactor < 2 ^ 61
  | .iterate i => (f i).isUp

variable [Key κ]

/-- The table stands for the map, or for none when there is no array. -/
def HashTable.Represents (t : HashTable κ ν) : Option (Finmap fun _ : κ => ν) → Prop
  | some m => t.Is m
  | none => t.isUp = false

/-- Every table does. -/
def Represent (f : ι → HashTable κ ν) (g : Maps ι κ ν) : Prop := ∀ i, (f i).Represents (g i)

variable {f f' : ι → HashTable κ ν} {g g' : Maps ι κ ν} {t : HashTable κ ν} {m : Finmap fun _ : κ => ν} {i : ι}
  {hash : Bytes → UInt64} {chains : List (List (Entry κ ν))}

theorem HashTable.Holds.isUp (h : t.Holds hash chains m) : t.isUp = true := by rw [HashTable.isUp, h.nodes_eq]

theorem HashTable.Holds.represents (h : t.Holds hash chains m) : t.Represents (some m) := ⟨hash, chains, h⟩

/-- A table that is set up, with its map. -/
theorem Represent.holds (h : Represent f g) (hup : (f i).isUp = true) :
    ∃ m hash chains, g i = some m ∧ (f i).Holds hash chains m := by
  have hi := h i
  cases hg : g i with
  | none =>
    rw [hg] at hi
    exact absurd (hup.symm.trans hi) (by decide)
  | some m =>
    rw [hg] at hi
    obtain ⟨hash, chains, hi⟩ := hi
    exact ⟨m, hash, chains, rfl, hi⟩

theorem Represent.isUp (h : Represent f g) (hg : (g i).isSome) : (f i).isUp = true := by
  have hi := h i
  obtain ⟨m, hm⟩ := Option.isSome_iff_exists.1 hg
  rw [hm] at hi
  obtain ⟨hash, chains, hi⟩ := hi
  exact hi.isUp

/-- A table that is set up has as many chains as its capacity says, and as many entries as its size. -/
theorem Represent.array_length (h : Represent f g) (hg : (g i).isSome) :
    ∃ chains, (f i).nodes = .array chains ∧ chains.length = (f i).capacity ∧ (f i).size = chains.flatten.length := by
  obtain ⟨m, hash, chains, -, hi⟩ := h.holds (h.isUp hg)
  exact ⟨chains, hi.nodes_eq, hi.length, hi.size.trans hi.stands.card⟩

theorem Represent.not_short (h : Represent f g) (hg : (g i).isSome) : ¬ (f i).Short := by
  obtain ⟨m, hash, chains, -, hi⟩ := h.holds (h.isUp hg)
  exact fun hs => hs.not_holds hi

theorem represent_initializer : Represent (fun _ : ι => (HashTable.initializer : HashTable κ ν)) fun _ => none := fun _ => rfl

/-- The two tables after a swap; each keeps its capacity. -/
def HashTable.swapped (t u : HashTable κ ν) : HashTable κ ν :=
  { t with size := u.size, hash := u.hash, compare := u.compare, nodes := u.nodes }

theorem HashTable.Holds.swapped {t u : HashTable κ ν} (h : u.Holds hash chains m) (hcap : t.capacity = u.capacity)
    (hth : t.threshold = t.capacity * htLoadFactor) : (t.swapped u).Holds hash chains m where
  hash_eq := h.hash_eq
  compare_eq := h.compare_eq
  nodes_eq := h.nodes_eq
  length := h.length.trans hcap.symm
  minimum := Nat.le_trans h.minimum (Nat.le_of_eq hcap.symm)
  counted := Nat.lt_of_le_of_lt (Nat.le_of_eq hcap) h.counted
  threshold := hth
  size := h.size
  room := Nat.le_trans h.room (Nat.le_of_eq hcap.symm)
  stands := by
    show Stands (htPlace hash t.capacity) chains m
    rw [hcap]
    exact h.stands

variable [DecidableEq ι]

theorem Represent.set (h : Represent f g) (i : ι) {o : Option (Finmap fun _ : κ => ν)} (ht : t.Represents o) :
    Represent (update f i t) (update g i o) := by
  intro j
  by_cases hj : j = i
  · rw [hj, update_self, update_self]
    exact ht
  · rw [update_of_ne hj, update_of_ne hj]
    exact h j

variable [DecidableEq κ]

/-- The call returns, and answers and does what the maps say. -/
def HtCall.Refines (c : HtCall ι κ ν) (f : ι → HashTable κ ν) (g : Maps ι κ ν) : Prop :=
  ∃ a f' g', htCall f c = .ok (a, f') ∧ HtSpec g c a g' ∧ Represent f' g'

/-- **A careful call refines the maps.** -/
theorem refines_of_careful (h : Represent f g) {c : HtCall ι κ ν} (hc : c.Careful f) : c.Refines f g := by
  cases c with
  | setup i capacity =>
    obtain ⟨hrv, hash, chains, hi⟩ := HashTable.setup_is (κ := κ) (ν := ν) hc
    exact ⟨_, _, _, rfl, ⟨congrArg HtAns.code hrv, rfl⟩, h.set i hi.represents⟩
  | copy first second =>
    obtain ⟨m, hash, chains, hg, hi⟩ := h.holds hc.1
    by_cases hsame : first = second
    · subst hsame
      have hsize := hc.2 rfl
      have hm : m = ∅ := Finmap.ext (Multiset.card_eq_zero.1 (hi.size.symm.trans hsize))
      have hcopy := hi.copy_self
      refine ⟨_, update f first ((f first).copied (f first) (List.replicate (f first).capacity [])), _, ?_,
        ⟨by rw [hg]; rfl, rfl, rfl⟩, ?_⟩
      · rw [htCall, decide_eq_true rfl, hcopy]
        rfl
      · have hempty : ((f first).copied (f first) (List.replicate (f first).capacity [])).Holds hash _ ∅ :=
          HashTable.holds_empty hi.hash_eq hi.compare_eq rfl hi.minimum hi.counted rfl hsize
        rw [hg, hm]
        exact h.set first hempty.represents
    · obtain ⟨hcopy, hi'⟩ := hi.copy (f first)
      refine ⟨_, _, _, ?_, ⟨by rw [hg]; rfl, rfl, rfl⟩, h.set first (by rw [hg]; exact hi'.represents)⟩
      rw [htCall, decide_eq_false hsame, hcopy]
      rfl
  | move first second =>
    obtain ⟨m, hash, chains, hg, hi⟩ := h.holds hc
    have hgone : ({ f second with nodes := .null } : HashTable κ ν).Represents none := rfl
    refine ⟨_, _, _, ?_, ⟨by rw [hg]; rfl, rfl, rfl⟩, (h.set first (by rw [hg]; exact hi.represents)).set second hgone⟩
    rw [htCall, HashTable.move, hi.isInitialized, if_neg (by decide)]
    rfl
  | swap first second =>
    obtain ⟨hup₁, hup₂, hcap⟩ := hc
    obtain ⟨m₁, hash₁, chains₁, hg₁, hi₁⟩ := h.holds hup₁
    obtain ⟨m₂, hash₂, chains₂, hg₂, hi₂⟩ := h.holds hup₂
    have hi₁' : ((f first).swapped (f second)).Holds hash₂ chains₂ m₂ := hi₂.swapped hcap hi₁.threshold
    have hi₂' : ((f second).swapped (f first)).Holds hash₁ chains₁ m₁ := hi₁.swapped hcap.symm hi₂.threshold
    refine ⟨_, _, _, ?_, ⟨by rw [hg₁]; rfl, by rw [hg₂]; rfl, rfl, rfl⟩,
      (h.set first (by rw [hg₂]; exact hi₁'.represents)).set second (by rw [hg₁]; exact hi₂'.represents)⟩
    rw [htCall, HashTable.swap, hi₁.isInitialized, if_neg (by decide), hi₂.isInitialized, if_neg (by decide)]
    rfl
  | destroy i =>
    obtain ⟨m, hash, chains, hg, hi⟩ := h.holds hc
    have hgone : ({ f i with nodes := .freed } : HashTable κ ν).Represents none := rfl
    refine ⟨_, _, _, ?_, ⟨by rw [hg]; rfl, rfl, rfl⟩, h.set i hgone⟩
    rw [htCall, hi.destroy]
    rfl
  | insert i key value =>
    obtain ⟨m, hash, chains, hg, hi⟩ := h.holds hc.1
    obtain ⟨chains', t', hrun, hi', -⟩ := hi.insert hc.2 key value
    exact ⟨_, _, _, by rw [htCall, hrun]; rfl, ⟨m, hg, rfl, rfl⟩, h.set i hi'.represents⟩
  | contains i key =>
    obtain ⟨m, hash, chains, hg, hi⟩ := h.holds hc
    exact ⟨_, _, _, by rw [htCall, hi.contains]; rfl, ⟨m, hg, rfl, rfl⟩, h⟩
  | lookup i key =>
    obtain ⟨m, hash, chains, hg, hi⟩ := h.holds hc
    exact ⟨_, _, _, by rw [htCall, HashTable.lookup, hi.search]; rfl, ⟨m, hg, rfl, rfl⟩, h⟩
  | erase i key =>
    obtain ⟨m, hash, chains, hg, hi⟩ := h.holds hc
    obtain ⟨chains', t', hrun, hi', -⟩ := hi.erase key
    exact ⟨_, _, _, by rw [htCall, hrun]; rfl, ⟨m, hg, rfl, rfl⟩, h.set i hi'.represents⟩
  | clear i =>
    obtain ⟨m, hash, chains, hg, hi⟩ := h.holds hc
    obtain ⟨chains', t', hrun, hi', -⟩ := hi.clear
    exact ⟨_, _, _, by rw [htCall, hrun]; rfl, ⟨by rw [hg]; rfl, rfl, rfl⟩, h.set i hi'.represents⟩
  | isEmpty i =>
    obtain ⟨m, hash, chains, hg, hi⟩ := h.holds hc
    refine ⟨_, _, _, rfl, ⟨m, hg, ?_, rfl⟩, h⟩
    rw [HashTable.isEmpty, hi.size]
    by_cases hm : m = ∅
    · exact .inl ⟨hm, by rw [hm]; rfl⟩
    · exact .inr ⟨hm, by rw [if_neg fun hz => hm (Finmap.ext (Multiset.card_eq_zero.1 hz))]⟩
  | reserve i minimumCapacity =>
    obtain ⟨m, hash, chains, hg, hi⟩ := h.holds hc.1
    obtain ⟨chains', t', hrun, hi'⟩ := hi.reserve hc.2
    refine ⟨_, _, g, by rw [htCall, hrun]; rfl, ⟨by rw [hg]; rfl, rfl, rfl⟩, ?_⟩
    have hset := h.set i hi'.represents
    rwa [← hg, Function.update_eq_self] at hset
  | iterate i =>
    obtain ⟨m, hash, chains, hg, hi⟩ := h.holds hc
    exact ⟨_, _, _, by rw [htCall, hi.iterate]; rfl, ⟨m, _, hg, hi.stands.entries, rfl, rfl⟩, h⟩

/-- **A call that refines the maps is careful.** -/
theorem careful_of_refines (h : Represent f g) {c : HtCall ι κ ν} (hr : c.Refines f g) : c.Careful f := by
  obtain ⟨a, f', g', hrun, hspec, h'⟩ := hr
  cases c with
  | setup i capacity =>
    obtain ⟨-, rfl⟩ := hspec
    cases hrun
    have hlong := h'.not_short (i := i) (by rw [update_self]; rfl)
    rw [update_self] at hlong
    by_contra hcap
    exact hlong (HashTable.setup_short (Nat.le_of_not_lt hcap))
  | copy first second =>
    obtain ⟨hsome, -, rfl⟩ := hspec
    refine ⟨h.isUp hsome, fun hsame => ?_⟩
    subst hsame
    obtain ⟨m, hash, chains, -, hi⟩ := h.holds (h.isUp hsome)
    rw [htCall, decide_eq_true rfl, hi.copy_self] at hrun
    cases hrun
    obtain ⟨chains', hn, -, hsize⟩ := h'.array_length (i := first) (by rw [update_self]; exact hsome)
    rw [update_self] at hn hsize
    cases hn
    rw [List.flatten_replicate_nil] at hsize
    exact hsize
  | move first second => exact h.isUp hspec.1
  | swap first second =>
    obtain ⟨hsome₁, hsome₂, -, rfl⟩ := hspec
    refine ⟨h.isUp hsome₁, h.isUp hsome₂, ?_⟩
    obtain ⟨m₁, hash₁, chains₁, -, hi₁⟩ := h.holds (h.isUp hsome₁)
    obtain ⟨m₂, hash₂, chains₂, -, hi₂⟩ := h.holds (h.isUp hsome₂)
    rw [htCall, HashTable.swap, hi₁.isInitialized, if_neg (by decide), hi₂.isInitialized, if_neg (by decide)] at hrun
    cases hrun
    obtain ⟨chains', hn, hlen, -⟩ := h'.array_length (i := second) (by rw [update_self]; exact hsome₁)
    rw [update_self] at hn hlen
    cases hi₁.nodes_eq.symm.trans hn
    exact hi₁.length.symm.trans hlen
  | destroy i => exact h.isUp hspec.1
  | insert i key value =>
    obtain ⟨m, hg, -, rfl⟩ := hspec
    have hup := h.isUp (i := i) (by rw [hg]; rfl)
    obtain ⟨m₀, hash, chains, -, hi⟩ := h.holds hup
    obtain ⟨⟨rv, t'⟩, hins, hs⟩ := bind_returns.1 hrun
    cases hs
    have hlong := h'.not_short (i := i) (by rw [update_self]; rfl)
    rw [update_self] at hlong
    exact ⟨hup, hi.insert_counted hins hlong⟩
  | contains i key =>
    obtain ⟨m, hg, -⟩ := hspec
    exact h.isUp (by rw [hg]; rfl)
  | lookup i key =>
    obtain ⟨m, hg, -⟩ := hspec
    exact h.isUp (by rw [hg]; rfl)
  | erase i key =>
    obtain ⟨m, hg, -⟩ := hspec
    exact h.isUp (by rw [hg]; rfl)
  | clear i => exact h.isUp hspec.1
  | isEmpty i =>
    obtain ⟨m, hg, -⟩ := hspec
    exact h.isUp (by rw [hg]; rfl)
  | reserve i minimumCapacity =>
    obtain ⟨hsome, -, rfl⟩ := hspec
    have hup := h.isUp hsome
    obtain ⟨m, hash, chains, -, hi⟩ := h.holds hup
    obtain ⟨⟨rv, t'⟩, hres, hs⟩ := bind_returns.1 hrun
    cases hs
    have hlong := h'.not_short (i := i) hsome
    rw [update_self] at hlong
    exact ⟨hup, hi.reserve_counted hres hlong⟩
  | iterate i =>
    obtain ⟨m, xs, hg, -⟩ := hspec
    exact h.isUp (by rw [hg]; rfl)

/-- A call of the maps, with its answer. -/
def MapsStep (g : Maps ι κ ν) (c : HtCall ι κ ν × HtAns κ ν) (g' : Maps ι κ ν) : Prop := HtSpec g c.1 c.2 g'

/-- A careful call, with its answer. -/
def CarefulStep (f : ι → HashTable κ ν) (c : HtCall ι κ ν × HtAns κ ν) (f' : ι → HashTable κ ν) : Prop :=
  HtStep f c f' ∧ c.1.Careful f

theorem careful_step {c : HtCall ι κ ν × HtAns κ ν} (h : Represent f g) (hs : CarefulStep f c f') :
    ∃ g', MapsStep g c g' ∧ Represent f' g' := by
  obtain ⟨hs, hc⟩ := hs
  obtain ⟨a, f'', g', hcall, hspec, h'⟩ := refines_of_careful h hc
  rw [HtStep, hcall] at hs
  cases hs
  exact ⟨g', hspec, h'⟩

theorem careful_run {calls : List (HtCall ι κ ν × HtAns κ ν)}
    (hrun : Run CarefulStep (fun _ => HashTable.initializer) calls f) :
    ∃ g, Run MapsStep (fun _ => none) calls g ∧ Represent f g :=
  hrun.simulate (fun (f : ι → HashTable κ ν) _ _ (g : Maps ι κ ν) (h : Represent f g) hs => careful_step h hs)
    represent_initializer

/-- **The tables are maps.**  The answers of careful calls, from tables that are not set up, are those of the maps; and in
every state they lead to a call refines the maps exactly when it is careful. -/
theorem tables_refine {calls : List (HtCall ι κ ν × HtAns κ ν)}
    (hrun : Run CarefulStep (fun _ => HashTable.initializer) calls f) :
    ∃ g, Run MapsStep (fun _ => none) calls g ∧ Represent f g ∧ ∀ c : HtCall ι κ ν, c.Refines f g ↔ c.Careful f := by
  obtain ⟨g, hmaps, hg⟩ := careful_run hrun
  exact ⟨g, hmaps, hg, fun c => ⟨careful_of_refines hg, refines_of_careful hg⟩⟩

/-- Two tables: a pair is put into one, which is copied; the key is then erased there and found in the copy. -/
theorem tables_refine_copy : ∃ (f : Bool → HashTable UInt32 Nat) (g : Maps Bool UInt32 Nat),
    Run CarefulStep (fun _ => HashTable.initializer)
      [(.setup false 0, .code 0), (.insert false 7 1, .code 0), (.copy true false, .code 0), (.erase false 7, .code 0),
        (.lookup true 7, .found (some 1)), (.lookup false 7, .found none)] f ∧
      Represent f g ∧ (HtCall.swap false true).Refines f g := by
  have h₀ : Run CarefulStep (fun _ : Bool => (HashTable.initializer : HashTable UInt32 Nat)) [] _ := .refl
  have h₁ := h₀.snoc (show CarefulStep _ (HtCall.setup false 0, HtAns.code 0) _ from ⟨rfl, show 0 < 2 ^ 61 by decide⟩)
  have h₂ := h₁.snoc (show CarefulStep _ (HtCall.insert false 7 1, HtAns.code 0) _ from ⟨rfl, rfl, by decide⟩)
  have h₃ := h₂.snoc (show CarefulStep _ (HtCall.copy true false, HtAns.code 0) _ from ⟨rfl, rfl, fun h => by cases h⟩)
  have h₄ := h₃.snoc (show CarefulStep _ (HtCall.erase false 7, HtAns.code 0) _ from ⟨rfl, rfl⟩)
  have h₅ := h₄.snoc (show CarefulStep _ (HtCall.lookup true 7, HtAns.found (some 1)) _ from ⟨rfl, rfl⟩)
  have h₆ := h₅.snoc (show CarefulStep _ (HtCall.lookup false 7, HtAns.found none) _ from ⟨rfl, rfl⟩)
  obtain ⟨g, -, hg, hiff⟩ := tables_refine h₆
  exact ⟨_, g, h₆, hg, (hiff _).2 ⟨rfl, rfl, rfl⟩⟩

end Nftp
