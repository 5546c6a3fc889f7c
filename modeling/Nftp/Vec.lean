import Nftp.Basic
/-!
# Vec — `vector.c`

A bounded list in a ring of `cap` slots: the elements are at `low`, `low + 1`, … modulo `cap`.  Slots are read and
written with checked indices, and `int` sums that may overflow are checked as well; `Vec.view` is the list the ring
stands for, and each operation is given by what it does to that list.  `vecX` is `nftp_vec_x`.
-/
namespace Nftp

/-- `struct _vec`; an unused slot and a NULL entry are `none`. -/
structure Vec (α : Type) where
  cap : Nat
  len : Nat
  low : Nat
  vec : List (Option α)
  deriving DecidableEq, Repr

variable {α : Type}

def vecAlloc (sz : Int) : Vec α :=
  let sz := if sz ≤ 0 then nftpSize else sz.toNat
  { cap := sz, len := 0, low := sz / 4, vec := List.replicate sz none }

def Vec.slot (v : Vec α) (i : Nat) : Except Fault (Option α) :=
  match v.vec[i]? with
  | some x => .ok x
  | none => .error .overread

def Vec.setSlot (v : Vec α) (i : Nat) (x : Option α) : Except Fault (Vec α) :=
  if i < v.vec.length then .ok { v with vec := v.vec.set i x } else .error .overflow

/-- `nftp_vec_push`; with `.head` the source takes `low --; low += cap; low %= cap`. -/
def vecPush (v : Vec α) (entry : α) (flag : End) : Except Fault (Rv × Vec α) :=
  if v.len = v.cap then .ok (.overflow, v)
  else match flag with
    | .head => do
      let low ← intAdd v.low (v.cap - 1)
      let v := { v with low := low % v.cap }
      let v ← v.setSlot v.low (some entry)
      return (.ok, { v with len := v.len + 1 })
    | .tail => do
      let pos ← intAdd v.low v.len
      let v ← v.setSlot (pos % v.cap) (some entry)
      return (.ok, { v with len := v.len + 1 })
    | .other => .ok (.flag, v)

def vecAppend (v : Vec α) (entry : α) : Except Fault (Rv × Vec α) := vecPush v entry .tail

/-- `nftp_vec_pop`: the code, the entry popped and the vector. -/
def vecPop (v : Vec α) (flag : End) : Except Fault (Rv × Option α × Vec α) :=
  if v.len = 0 then .ok (.empty, none, v)
  else match flag with
    | .head => do
      let pos := v.low
      let v := { v with low := (v.low + 1) % v.cap }
      let entry ← v.slot pos
      let v ← v.setSlot pos none
      return (.ok, entry, { v with len := v.len - 1 })
    | .tail => do
      let top ← intAdd v.low v.len
      let entry ← v.slot ((top - 1) % v.cap)
      let v ← v.setSlot ((top - 1) % v.cap) none
      return (.ok, entry, { v with len := v.len - 1 })
    | .other => .ok (.flag, none, v)

/-- A slot given by an `int` that may be negative, as C's `%` leaves it. -/
def Vec.slotAt (v : Vec α) (i : Int) : Except Fault (Option α) := if i < 0 then .error .overread else v.slot i.toNat

def Vec.setSlotAt (v : Vec α) (i : Int) (x : Option α) : Except Fault (Vec α) :=
  if i < 0 then .error .overflow else v.setSlot i.toNat x

/-- The loop of `nftp_vec_insert`, from index `i + n` down to `i + 1`. -/
def vecUnshift (v : Vec α) (i : Int) : Nat → Except Fault (Vec α)
  | 0 => .ok v
  | n + 1 => do
    let x ← v.slotAt ((i + n).tmod v.cap)
    let v ← v.setSlotAt ((i + n + 1).tmod v.cap) x
    vecUnshift v i n

def vecInsert (v : Vec α) (entry : α) (pos : Int) : Except Fault (Rv × Vec α) :=
  if v.len = v.cap then .ok (.overflow, v)
  else if pos > v.len then vecPush v entry .tail
  else do
    let top ← intAdd v.low v.len
    let v ← vecUnshift v (v.low + pos) ((top : Int) - (v.low + pos)).toNat
    let v ← v.setSlotAt (((v.low : Int) + pos).tmod v.cap) (some entry)
    return (.ok, { v with len := v.len + 1 })

/-- The loop of `nftp_vec_delete`, from index `i` on, `n` elements left. -/
def vecShift (v : Vec α) (i : Nat) : Nat → Except Fault (Vec α)
  | 0 => .ok v
  | n + 1 => do
    let x ← v.slot (i % v.cap)
    let v ← v.setSlot ((i - 1) % v.cap) x
    vecShift v (i + 1) n

/-- `nftp_vec_delete`: the code, the entry deleted and the vector. -/
def vecDelete (v : Vec α) (pos : Int) : Except Fault (Rv × Option α × Vec α) :=
  if pos < 0 ∨ pos > (v.len : Int) - 1 then .ok (.overflow, none, v)
  else do
    let i ← intAdd v.low pos.toNat
    let entry ← v.slot (i % v.cap)
    let top ← intAdd v.low v.len
    let v ← vecShift v (i + 1) (top - (i + 1))
    return (.ok, entry, { v with len := v.len - 1 })

def vecGet (v : Vec α) (idx : Int) : Except Fault (Rv × Option α) :=
  if idx ≥ v.len then .ok (.overflow, none)
  else if idx < 0 then .ok (.overflow, none)
  else do
    let i ← intAdd v.low idx.toNat
    let entry ← v.slot (i % v.cap)
    return (.ok, entry)

/-- The loop of `nftp_vec_getidx`, from index `i` on, `n` elements left. -/
def vecFind [DecidableEq α] (v : Vec α) (entry : α) (i : Nat) : Nat → Except Fault (Option Nat)
  | 0 => .ok none
  | n + 1 => do
    let x ← v.slot (i % v.cap)
    if x = some entry then .ok (some i) else vecFind v entry (i + 1) n

/-- `nftp_vec_getidx`: the code and the index. -/
def vecGetidx [DecidableEq α] (v : Vec α) (entry : α) : Except Fault (Rv × Option Nat) := do
  let top ← intAdd v.low v.len
  let found ← vecFind v entry v.low (top - v.low)
  match found with
  | some i => .ok (.ok, some ((i - v.low) % v.cap))
  | none => .ok (.empty, none)

/-! ## The list a ring stands for -/

structure Vec.Wf (v : Vec α) : Prop where
  slots : v.vec.length = v.cap
  low_lt : v.low < v.cap
  len_le : v.len ≤ v.cap

def Vec.at (v : Vec α) (k : Nat) : Option α := v.vec.getD ((v.low + k) % v.cap) none

def Vec.view (v : Vec α) : List (Option α) := (List.range v.len).map v.at

@[simp] theorem Vec.view_length (v : Vec α) : v.view.length = v.len := by simp [Vec.view]

theorem Vec.view_getElem? (v : Vec α) {k : Nat} (h : k < v.len) : v.view[k]? = some (v.at k) := by
  simp [Vec.view, h]

theorem vecAlloc_wf (sz : Int) : (vecAlloc sz : Vec α).Wf := by
  unfold vecAlloc
  constructor
  · simp
  · simp only
    split
    · decide
    · have : 0 < sz.toNat := by omega
      omega
  · simp

@[simp] theorem vecAlloc_view (sz : Int) : (vecAlloc sz : Vec α).view = [] := rfl

theorem Vec.Wf.pos {v : Vec α} (h : v.Wf) : 0 < v.cap := Nat.lt_of_le_of_lt (Nat.zero_le _) h.low_lt

theorem Vec.Wf.slot_at {v : Vec α} (h : v.Wf) (k : Nat) : v.slot ((v.low + k) % v.cap) = .ok (v.at k) := by
  have hi : (v.low + k) % v.cap < v.vec.length := by rw [h.slots]; exact Nat.mod_lt _ h.pos
  rw [Vec.slot, Vec.at, List.getElem?_eq_getElem hi, List.getD_eq_getElem?_getD, List.getElem?_eq_getElem hi]
  rfl

theorem Vec.Wf.setSlot_ok {v : Vec α} (h : v.Wf) (k : Nat) (x : Option α) :
    v.setSlot ((v.low + k) % v.cap) x = .ok { v with vec := v.vec.set ((v.low + k) % v.cap) x } := by
  rw [Vec.setSlot, if_pos (by rw [h.slots]; exact Nat.mod_lt _ h.pos)]

/-- Two places of the ring less than `cap` apart have different slots. -/
theorem ring_ne {cap low i j : Nat} (hi : i < cap) (hj : j < cap) (hij : i ≠ j) :
    (low + i) % cap ≠ (low + j) % cap := by
  intro h
  have h' : i ≡ j [MOD cap] := Nat.ModEq.add_left_cancel' low h
  exact hij (Nat.ModEq.eq_of_lt_of_lt h' hi hj)

theorem Vec.Wf.at_set {v : Vec α} (h : v.Wf) {k j : Nat} (hk : k < v.cap) (hj : j < v.cap) (x : Option α) :
    Vec.at { v with vec := v.vec.set ((v.low + k) % v.cap) x } j = if j = k then x else v.at j := by
  have hi : (v.low + k) % v.cap < v.vec.length := by rw [h.slots]; exact Nat.mod_lt _ h.pos
  simp only [Vec.at, List.getD_eq_getElem?_getD]
  by_cases hjk : j = k
  · subst hjk
    rw [if_pos rfl, List.getElem?_set_self hi]; rfl
  · rw [if_neg hjk, List.getElem?_set_ne (ring_ne hk hj (Ne.symm hjk))]

/-- Lowering the start of the ring by one moves every place up by one. -/
theorem ring_pred {cap low k : Nat} (h : 0 < cap) : ((low + (cap - 1)) % cap + (k + 1)) % cap = (low + k) % cap := by
  rw [Nat.mod_add_mod, show low + (cap - 1) + (k + 1) = low + k + cap by omega, Nat.add_mod_right]

theorem ring_succ {cap low k : Nat} : ((low + 1) % cap + k) % cap = (low + (k + 1)) % cap := by
  rw [Nat.mod_add_mod]
  congr 1
  omega

/-! ## What each operation does to the list -/

theorem vecGet_lt {v : Vec α} (h : v.Wf) {k : Nat} (hk : k < v.len) (hi : v.low + k < 2 ^ 31) :
    vecGet v k = .ok (.ok, v.at k) := by
  rw [vecGet, if_neg (by omega), if_neg (by omega), Int.toNat_natCast, intAdd_ok hi, bind_ok, h.slot_at k]
  rfl

theorem vecGet_outside {v : Vec α} {idx : Int} (h : idx < 0 ∨ idx ≥ v.len) : vecGet v idx = .ok (.overflow, none) := by
  unfold vecGet
  by_cases hlt : idx ≥ v.len
  · rw [if_pos hlt]
  · rw [if_neg hlt, if_pos (h.resolve_right hlt)]

theorem vecPush_full {v : Vec α} (h : v.len = v.cap) (entry : α) (flag : End) :
    vecPush v entry flag = .ok (.overflow, v) := by
  unfold vecPush; rw [if_pos h]

theorem vecPush_flag {v : Vec α} (h : v.len ≠ v.cap) (entry : α) : vecPush v entry .other = .ok (.flag, v) := by
  unfold vecPush; rw [if_neg h]

/-- **A tail push with room** adds the entry at the end of the list. -/
theorem vecPush_tail {v : Vec α} (h : v.Wf) (hl : v.len < v.cap) (hi : v.low + v.len < 2 ^ 31) (entry : α) :
    ∃ v', vecPush v entry .tail = .ok (.ok, v') ∧ v'.Wf ∧ v'.view = v.view ++ [some entry] ∧ v'.cap = v.cap ∧
      v'.len = v.len + 1 := by
  refine ⟨{ v with vec := v.vec.set ((v.low + v.len) % v.cap) (some entry), len := v.len + 1 }, ?_,
    ⟨by simp [h.slots], h.low_lt, hl⟩, ?_, rfl, rfl⟩
  · simp only [vecPush]
    rw [if_neg (Nat.ne_of_lt hl), intAdd_ok hi, bind_ok, h.setSlot_ok]
    rfl
  · have hat : ∀ j, j < v.cap → Vec.at { v with vec := v.vec.set ((v.low + v.len) % v.cap) (some entry), len := v.len + 1 } j =
        if j = v.len then some entry else v.at j := fun j hj => h.at_set hl hj (some entry)
    simp only [Vec.view, List.range_succ, List.map_append, List.map_cons, List.map_nil]
    rw [hat v.len hl, if_pos rfl]
    congr 1
    apply List.map_congr_left
    intro j hj
    have := List.mem_range.1 hj
    rw [hat j (by omega), if_neg (by omega)]

/-- **A head push with room** adds the entry in front of the list. -/
theorem vecPush_head {v : Vec α} (h : v.Wf) (hl : v.len < v.cap) (hi : v.low + (v.cap - 1) < 2 ^ 31) (entry : α) :
    ∃ v', vecPush v entry .head = .ok (.ok, v') ∧ v'.Wf ∧ v'.view = some entry :: v.view ∧ v'.cap = v.cap ∧
      v'.len = v.len + 1 := by
  have hpos := h.pos
  have hlow := Nat.mod_lt (v.low + (v.cap - 1)) hpos
  let w : Vec α := { v with low := (v.low + (v.cap - 1)) % v.cap }
  have hw : w.Wf := ⟨h.slots, hlow, h.len_le⟩
  have hset := hw.setSlot_ok 0 (some entry)
  have hlow0 : (w.low + 0) % w.cap = w.low := Nat.mod_eq_of_lt hlow
  rw [hlow0] at hset
  refine ⟨{ w with vec := w.vec.set w.low (some entry), len := w.len + 1 }, ?_, ⟨by simp [w, h.slots], hlow, hl⟩, ?_, rfl,
    rfl⟩
  · simp only [vecPush]
    rw [if_neg (Nat.ne_of_lt hl), intAdd_ok hi, bind_ok]
    show (w.setSlot w.low (some entry) >>= _) = _
    rw [hset]
    rfl
  · have hat : ∀ j, j < v.cap → Vec.at { w with vec := w.vec.set w.low (some entry), len := w.len + 1 } j =
        if j = 0 then some entry else w.at j := by
      intro j hj
      have := hw.at_set hpos hj (some entry)
      rwa [hlow0] at this
    simp only [Vec.view, List.range_succ_eq_map, List.map_cons, List.map_map]
    rw [hat 0 hpos, if_pos rfl]
    congr 1
    apply List.map_congr_left
    intro j hj
    have hj' : j < v.len := List.mem_range.1 hj
    rw [Function.comp_apply, hat (j + 1) (by omega), if_neg (by omega), Vec.at, Vec.at, ring_pred hpos]

theorem vecPop_empty {v : Vec α} (h : v.len = 0) (flag : End) : vecPop v flag = .ok (.empty, none, v) := by
  unfold vecPop; rw [if_pos h]

theorem vecPop_flag {v : Vec α} (h : v.len ≠ 0) : vecPop v .other = .ok (.flag, none, v) := by
  unfold vecPop; rw [if_neg h]

/-- **A head pop** returns and removes the first element. -/
theorem vecPop_head {v : Vec α} (h : v.Wf) (hl : 0 < v.len) :
    ∃ v', vecPop v .head = .ok (.ok, v.at 0, v') ∧ v'.Wf ∧ v'.view = v.view.tail ∧ v'.cap = v.cap ∧ v'.len + 1 = v.len := by
  have hpos := h.pos
  have hle := h.len_le
  have hlow0 : (v.low + 0) % v.cap = v.low := Nat.mod_eq_of_lt h.low_lt
  have hslot := h.slot_at 0
  have hset := h.setSlot_ok 0 none
  rw [hlow0] at hslot hset
  let w : Vec α := { v with vec := v.vec.set v.low none, low := (v.low + 1) % v.cap, len := v.len - 1 }
  refine ⟨w, ?_, ⟨by simp [w, h.slots], Nat.mod_lt _ hpos, by simp only [w]; omega⟩, ?_, rfl, by simp only [w]; omega⟩
  · simp only [vecPop]
    rw [if_neg (by omega)]
    show (v.slot v.low >>= fun entry => Vec.setSlot { v with low := (v.low + 1) % v.cap } v.low none >>= _) = _
    rw [hslot, bind_ok]
    show (Vec.setSlot { v with low := (v.low + 1) % v.cap } v.low none >>= _) = _
    rw [Vec.setSlot, if_pos (by rw [h.slots]; exact h.low_lt)]
    rfl
  · apply List.ext_getElem?
    intro j
    rw [List.getElem?_tail]
    by_cases hj : j < v.len - 1
    · rw [Vec.view_getElem? w hj, Vec.view_getElem? v (by omega)]
      have hat := h.at_set (k := 0) hpos (show j + 1 < v.cap by omega) none
      rw [hlow0, if_neg (by omega)] at hat
      rw [← hat, Vec.at, Vec.at]
      simp only [w, ring_succ]
    · rw [List.getElem?_eq_none (by rw [Vec.view_length]; simp only [w]; omega),
        List.getElem?_eq_none (by rw [Vec.view_length]; omega)]

/-- **A tail pop** returns and removes the last element. -/
theorem vecPop_tail {v : Vec α} (h : v.Wf) (hl : 0 < v.len) (hi : v.low + v.len < 2 ^ 31) :
    ∃ v', vecPop v .tail = .ok (.ok, v.at (v.len - 1), v') ∧ v'.Wf ∧ v'.view = v.view.dropLast ∧ v'.cap = v.cap ∧
      v'.len + 1 = v.len := by
  have hle := h.len_le
  have htop : v.low + v.len - 1 = v.low + (v.len - 1) := by omega
  let w : Vec α := { v with vec := v.vec.set ((v.low + (v.len - 1)) % v.cap) none, len := v.len - 1 }
  refine ⟨w, ?_, ⟨by simp [w, h.slots], h.low_lt, by simp only [w]; omega⟩, ?_, rfl, by simp only [w]; omega⟩
  · simp only [vecPop]
    rw [if_neg (by omega), intAdd_ok hi, bind_ok, htop, h.slot_at, bind_ok, h.setSlot_ok]
    rfl
  · rw [List.dropLast_eq_take, Vec.view_length]
    apply List.ext_getElem?
    intro j
    rw [List.getElem?_take]
    by_cases hj : j < v.len - 1
    · rw [if_pos hj, Vec.view_getElem? w hj, Vec.view_getElem? v (by omega)]
      have hat := h.at_set (k := v.len - 1) (by omega) (show j < v.cap by omega) none
      rw [if_neg (by omega)] at hat
      exact congrArg some hat
    · rw [if_neg hj, List.getElem?_eq_none (by rw [Vec.view_length]; simp only [w]; omega)]

theorem Vec.Wf.slotAt_ok {v : Vec α} (h : v.Wf) (k : Nat) : v.slotAt (Int.tmod ((v.low + k : Nat) : Int) v.cap) = .ok (v.at k) := by
  rw [← Int.ofNat_tmod, Vec.slotAt, if_neg (by omega), Int.toNat_natCast, h.slot_at]

theorem Vec.Wf.setSlotAt_ok {v : Vec α} (h : v.Wf) (k : Nat) (x : Option α) :
    v.setSlotAt (Int.tmod ((v.low + k : Nat) : Int) v.cap) x =
      .ok { v with vec := v.vec.set ((v.low + k) % v.cap) x } := by
  rw [← Int.ofNat_tmod, Vec.setSlotAt, if_neg (by omega), Int.toNat_natCast, h.setSlot_ok]

/-- The shift of `nftp_vec_insert` moves `n` elements one place up, from place `k` on. -/
theorem vecUnshift_ok : ∀ (n k : Nat) (v : Vec α), v.Wf → k + n < v.cap →
    ∃ v', vecUnshift v ((v.low + k : Nat) : Int) n = .ok v' ∧ v'.Wf ∧ v'.low = v.low ∧ v'.len = v.len ∧ v'.cap = v.cap ∧
      ∀ j, j < v.cap → v'.at j = if k < j ∧ j ≤ k + n then v.at (j - 1) else v.at j
  | 0, k, v, h, _ => ⟨v, rfl, h, rfl, rfl, rfl, fun j _ => by rw [if_neg (by omega)]⟩
  | n + 1, k, v, h, hn => by
    let w : Vec α := { v with vec := v.vec.set ((v.low + (k + n + 1)) % v.cap) (v.at (k + n)) }
    have hw : w.Wf := ⟨by simp [w, h.slots], h.low_lt, h.len_le⟩
    have hat : ∀ j, j < v.cap → w.at j = if j = k + n + 1 then v.at (k + n) else v.at j :=
      fun j hj => h.at_set (by omega) hj _
    obtain ⟨v', hrun, hv', hlow, hlen, hcap, hv'at⟩ := vecUnshift_ok n k w hw (by show k + n < v.cap; omega)
    refine ⟨v', ?_, hv', hlow, hlen, hcap, ?_⟩
    · have h1 : ((v.low + k : Nat) : Int) + n = ((v.low + (k + n) : Nat) : Int) := by omega
      have h2 : ((v.low + k : Nat) : Int) + n + 1 = ((v.low + (k + n + 1) : Nat) : Int) := by omega
      rw [vecUnshift, h2, h1, h.slotAt_ok, bind_ok, h.setSlotAt_ok, bind_ok]
      exact hrun
    · intro j hj
      rw [hv'at j hj]
      by_cases h1 : k < j ∧ j ≤ k + n
      · rw [if_pos h1, if_pos (by omega), hat (j - 1) (by omega), if_neg (by omega)]
      · rw [if_neg h1, hat j hj]
        by_cases h2 : j = k + n + 1
        · rw [if_pos h2, if_pos (by omega), h2, Nat.add_sub_cancel]
        · rw [if_neg h2, if_neg (by omega)]

theorem vecInsert_full {v : Vec α} (h : v.len = v.cap) (entry : α) (pos : Int) :
    vecInsert v entry pos = .ok (.overflow, v) := by
  unfold vecInsert; rw [if_pos h]

theorem vecInsert_behind {v : Vec α} (h : v.len ≠ v.cap) (entry : α) {pos : Int} (hpos : pos > v.len) :
    vecInsert v entry pos = vecPush v entry .tail := by
  unfold vecInsert; rw [if_neg h, if_pos hpos]

/-- **An insert inside the list with room** puts the entry at that place. -/
theorem vecInsert_ok {v : Vec α} (h : v.Wf) (hl : v.len < v.cap) (hi : v.low + v.len < 2 ^ 31) (entry : α) {k : Nat}
    (hk : k ≤ v.len) :
    ∃ v', vecInsert v entry k = .ok (.ok, v') ∧ v'.Wf ∧ v'.view = v.view.insertIdx k (some entry) ∧ v'.cap = v.cap ∧
      v'.len = v.len + 1 := by
  obtain ⟨w, hrun, hw, hlow, hlen, hcap, hat⟩ := vecUnshift_ok (v.len - k) k v h (by omega)
  let w' : Vec α := { w with vec := w.vec.set ((w.low + k) % w.cap) (some entry), len := w.len + 1 }
  have hat' : ∀ j, j < v.cap → w'.at j = if j = k then some entry else w.at j :=
    fun j hj => hw.at_set (by rw [hcap]; omega) (by rw [hcap]; exact hj) _
  refine ⟨w', ?_, ⟨by simp [w', hw.slots], hw.low_lt, by simp only [w']; omega⟩, ?_, hcap, by simp only [w', hlen]⟩
  · have h1 : (v.low : Int) + k = ((v.low + k : Nat) : Int) := by omega
    have h2 : (((v.low + v.len : Nat) : Int) - ((v.low + k : Nat) : Int)).toNat = v.len - k := by omega
    have h3 : (w.low : Int) + k = ((w.low + k : Nat) : Int) := by omega
    rw [vecInsert, if_neg (Nat.ne_of_lt hl), if_neg (by omega), intAdd_ok hi, bind_ok]
    simp only [h1, h2]
    rw [hrun, bind_ok, h3, hw.setSlotAt_ok]
    rfl
  · apply List.ext_getElem?
    intro j
    rw [List.getElem?_insertIdx, Vec.view_length]
    by_cases hj : j < v.len + 1
    · rw [Vec.view_getElem? w' (by simp only [w', hlen]; exact hj), hat' j (by omega)]
      by_cases hlt : j < k
      · rw [if_pos hlt, if_neg (by omega), hat j (by omega), if_neg (by omega), Vec.view_getElem? v (by omega)]
      · rw [if_neg hlt]
        by_cases he : j = k
        · rw [if_pos he, if_pos he, if_pos (by omega)]
        · rw [if_neg he, if_neg he, hat j (by omega), if_pos (by omega), Vec.view_getElem? v (by omega)]
    · rw [List.getElem?_eq_none (by rw [Vec.view_length]; simp only [w', hlen]; omega), if_neg (by omega),
        if_neg (by omega), List.getElem?_eq_none (by rw [Vec.view_length]; omega)]

/-- The shift of `nftp_vec_delete` moves `n` elements one place down, from place `k` on. -/
theorem vecShift_ok : ∀ (n k : Nat) (v : Vec α), v.Wf → k + n < v.cap →
    ∃ v', vecShift v (v.low + k + 1) n = .ok v' ∧ v'.Wf ∧ v'.low = v.low ∧ v'.len = v.len ∧ v'.cap = v.cap ∧
      ∀ j, j < v.cap → v'.at j = if k ≤ j ∧ j < k + n then v.at (j + 1) else v.at j
  | 0, k, v, h, _ => ⟨v, rfl, h, rfl, rfl, rfl, fun j _ => by rw [if_neg (by omega)]⟩
  | n + 1, k, v, h, hn => by
    let w : Vec α := { v with vec := v.vec.set ((v.low + k) % v.cap) (v.at (k + 1)) }
    have hw : w.Wf := ⟨by simp [w, h.slots], h.low_lt, h.len_le⟩
    have hat : ∀ j, j < v.cap → w.at j = if j = k then v.at (k + 1) else v.at j :=
      fun j hj => h.at_set (by omega) hj _
    obtain ⟨v', hrun, hv', hlow, hlen, hcap, hv'at⟩ := vecShift_ok n (k + 1) w hw (by show k + 1 + n < v.cap; omega)
    refine ⟨v', ?_, hv', hlow, hlen, hcap, ?_⟩
    · rw [vecShift, Nat.add_assoc v.low k 1, h.slot_at (k + 1), bind_ok,
        show v.low + (k + 1) - 1 = v.low + k by omega, h.setSlot_ok k, bind_ok]
      exact hrun
    · intro j hj
      rw [hv'at j hj]
      by_cases h1 : k + 1 ≤ j ∧ j < k + 1 + n
      · rw [if_pos h1, if_pos (by omega), hat (j + 1) (by omega), if_neg (by omega)]
      · rw [if_neg h1, hat j hj]
        by_cases h2 : j = k
        · subst h2
          rw [if_pos rfl, if_pos (by omega)]
        · rw [if_neg h2, if_neg (by omega)]

theorem vecDelete_outside {v : Vec α} {pos : Int} (h : pos < 0 ∨ pos ≥ v.len) :
    vecDelete v pos = .ok (.overflow, none, v) := by
  unfold vecDelete
  rw [if_pos (by omega)]

/-- **A delete inside the list** returns and removes that element. -/
theorem vecDelete_ok {v : Vec α} (h : v.Wf) {k : Nat} (hk : k < v.len) (hi : v.low + v.len < 2 ^ 31) :
    ∃ v', vecDelete v k = .ok (.ok, v.at k, v') ∧ v'.Wf ∧ v'.view = v.view.eraseIdx k ∧ v'.cap = v.cap := by
  have hle := h.len_le
  obtain ⟨w, hrun, hw, hlow, hlen, hcap, hat⟩ := vecShift_ok (v.len - k - 1) k v h (by omega)
  refine ⟨{ w with len := w.len - 1 }, ?_, ⟨hw.slots, hw.low_lt, ?_⟩, ?_, hcap⟩
  · have hn : v.low + v.len - (v.low + k + 1) = v.len - k - 1 := by omega
    rw [vecDelete, if_neg (by omega), Int.toNat_natCast, intAdd_ok (by omega), bind_ok, h.slot_at k, bind_ok, intAdd_ok hi,
      bind_ok, hn, hrun]
    rfl
  · simp only; omega
  · apply List.ext_getElem?
    intro j
    rw [List.getElem?_eraseIdx]
    have hj' : ∀ i, Vec.at { w with len := w.len - 1 } i = w.at i := fun i => rfl
    by_cases hj : j < v.len - 1
    · rw [Vec.view_getElem? _ (by simp only; omega), hj', hat j (by omega)]
      by_cases hjk : j < k
      · rw [if_pos hjk, if_neg (by omega), Vec.view_getElem? v (by omega)]
      · rw [if_neg hjk, if_pos (by omega), Vec.view_getElem? v (by omega)]
    · rw [List.getElem?_eq_none (by simp only [Vec.view_length]; omega)]
      by_cases hjk : j < k
      · omega
      · rw [if_neg hjk, List.getElem?_eq_none (by simp only [Vec.view_length]; omega)]

/-- The search of `nftp_vec_getidx`, from place `k` on, `n` elements left. -/
theorem vecFind_spec [DecidableEq α] {v : Vec α} (h : v.Wf) (entry : α) : ∀ (n k : Nat), k + n = v.len →
    vecFind v entry (v.low + k) n = .ok (((v.view.drop k).idxOf? (some entry)).map (v.low + k + ·))
  | 0, k, hk => by
    rw [vecFind, List.drop_of_length_le (by rw [Vec.view_length]; omega)]
    rfl
  | n + 1, k, hk => by
    have hdrop : v.view.drop k = v.at k :: v.view.drop (k + 1) := by
      have hl : k < v.view.length := by rw [Vec.view_length]; omega
      have hget := Vec.view_getElem? v (show k < v.len by omega)
      rw [List.getElem?_eq_getElem hl] at hget
      rw [List.drop_eq_getElem_cons hl, Option.some.inj hget]
    rw [vecFind, h.slot_at k, bind_ok, hdrop, List.idxOf?_cons]
    by_cases he : v.at k = some entry
    · rw [if_pos he, he]
      simp
    · rw [if_neg he, Nat.add_assoc v.low k 1, vecFind_spec h entry n (k + 1) (by omega)]
      cases (v.view.drop (k + 1)).idxOf? (some entry) with
      | none => simp [he]
      | some i =>
        simp [he]
        omega

/-- **`nftp_vec_getidx`** gives the first index of the entry. -/
theorem vecGetidx_ok [DecidableEq α] {v : Vec α} (h : v.Wf) (hi : v.low + v.len < 2 ^ 31) (entry : α) :
    vecGetidx v entry = match v.view.idxOf? (some entry) with
      | some i => .ok (.ok, some i)
      | none => .ok (.empty, none) := by
  have hfind := vecFind_spec h entry v.len 0 (by omega)
  rw [List.drop_zero, Nat.add_zero] at hfind
  rw [vecGetidx, intAdd_ok hi, bind_ok, Nat.add_sub_cancel_left, hfind, bind_ok]
  cases hf : v.view.idxOf? (some entry) with
  | none => rfl
  | some i =>
    have hlt : i < v.cap := by
      have := (List.idxOf?_eq_some_iff.1 hf).1
      rw [Vec.view_length] at this
      have := h.len_le
      omega
    simp only [Option.map_some, Nat.add_sub_cancel_left, Nat.mod_eq_of_lt hlt]

end Nftp
