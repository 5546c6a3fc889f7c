import Nftp.Basic
import Nftp.Lib.Fallible
/-!
# Iovs — `iovs.c`

A list of segments (base pointer and length) in a fixed array of slots; the segments in use are `low … low + len`.
A slot that was never written holds what `malloc` left there, which `iovsAlloc` is given; `iolen` is a `size_t`, and wraps.
The bytes a base pointer points to are read only when the segments are flattened.  `iovsX` is `nftp_iovs_x`.
-/
namespace Nftp

open Lib

/-- `struct iovec`; `none` is the NULL base. -/
structure Iovec (β : Type) where
  base : Option β
  len : Nat
  deriving DecidableEq, Repr

/-- `struct _iovs`: the array holds `cap` slots. -/
structure Iovs (β : Type) where
  iovs : List (Iovec β)
  low : Nat
  len : Nat
  cap : Nat
  iolen : Nat
  deriving DecidableEq, Repr

variable {β : Type}

/-- `nftp_iovs_alloc`, from an array whose slots hold `mem`. -/
def iovsAlloc (mem : Nat → Iovec β) : Iovs β :=
  { iovs := (List.range nftpSize).map mem, low := nftpSize / 3, len := 0, cap := nftpSize, iolen := 0 }

def Iovs.setSlot (v : Iovs β) (i : Nat) (x : Iovec β) : Except Fault (Iovs β) :=
  if i < v.iovs.length then .ok { v with iovs := v.iovs.set i x } else .error .overflow

def Iovs.slot (v : Iovs β) (i : Nat) : Except Fault (Iovec β) :=
  match v.iovs[i]? with
  | some x => .ok x
  | none => .error .overread

def iovsPush (v : Iovs β) (ptr : Option β) (len : Nat) (flag : End) : Except Fault (Rv × Iovs β) :=
  match flag with
  | .head =>
    if v.low = 0 then .ok (.overflow, v)
    else do
      let v := { v with low := v.low - 1 }
      let v ← v.setSlot v.low ⟨ptr, len⟩
      return (.ok, { v with len := v.len + 1, iolen := sizeT (v.iolen + len) })
  | .tail =>
    -- the test lets the tail reach slot `cap`, one past the array
    if v.low + v.len > v.cap then .ok (.overflow, v)
    else do
      let v ← v.setSlot (v.low + v.len) ⟨ptr, len⟩
      return (.ok, { v with len := v.len + 1, iolen := sizeT (v.iolen + len) })
  | .other => .ok (.flag, v)

def iovsAppend (v : Iovs β) (ptr : Option β) (len : Nat) : Except Fault (Rv × Iovs β) := iovsPush v ptr len .tail

/-- The loop of `nftp_iovs_insert`, from slot `i + n` down to slot `i + 1`. -/
def shiftSegments (v : Iovs β) (i : Nat) : Nat → Except Fault (Iovs β)
  | 0 => .ok v
  | n + 1 => do
    let x ← v.slot (i + n)
    let v ← v.setSlot (i + n + 1) x
    shiftSegments v i n

/-- `nftp_iovs_insert`: the shift is done from slot `low + pos` on, the segment goes to slot `pos`. -/
def iovsInsert (v : Iovs β) (ptr : Option β) (len pos : Nat) : Except Fault (Rv × Iovs β) :=
  if v.low + v.len + 1 > v.cap then .ok (.overflow, v)
  else if pos > v.len then iovsPush v ptr len .tail
  else do
    let v ← shiftSegments v (v.low + pos) (v.low + v.len - (v.low + pos))
    let v ← v.setSlot pos ⟨ptr, len⟩
    return (.ok, { v with len := v.len + 1, iolen := sizeT (v.iolen + len) })

/-- A segment popped leaves the NULL base in its slot. -/
def iovsPop (v : Iovs β) (flag : End) : Except Fault (Rv × Option (Iovec β) × Iovs β) :=
  if v.len = 0 then .ok (.empty, none, v)
  else match flag with
    | .head => do
      let x ← v.slot v.low
      let v ← v.setSlot v.low ⟨none, 0⟩
      return (.ok, some x, { v with low := v.low + 1, len := v.len - 1, iolen := sizeT (v.iolen - x.len) })
    | .tail => do
      let x ← v.slot (v.low + v.len - 1)
      let v ← v.setSlot (v.low + v.len - 1) ⟨none, 0⟩
      return (.ok, some x, { v with len := v.len - 1, iolen := sizeT (v.iolen - x.len) })
    | .other => .ok (.flag, none, v)

/-- The loop of `nftp_iovs_cat`, from segment `i` of `src` on, `n` left; the first goes to slot `idx` of `dest`. -/
def catSegments (src : Iovs β) (idx i : Nat) : Nat → Iovs β → Except Fault (Iovs β)
  | 0, dest => .ok dest
  | n + 1, dest => do
    let x ← src.slot (src.low + i)
    let dest ← dest.setSlot (idx + i) x
    catSegments src idx (i + 1) n dest

/-- `nftp_iovs_cat` of two iovs that are not the same one. -/
def iovsCat (dest src : Iovs β) : Except Fault (Rv × Iovs β) :=
  if dest.low + dest.len + src.len > dest.cap then .ok (.overflow, dest)
  else do
    let dest ← catSegments src (dest.low + dest.len) 0 src.len dest
    return (.ok, { dest with len := dest.len + src.len, iolen := sizeT (dest.iolen + src.iolen) })

/-- `memcpy` of a segment; `deref` gives the bytes a base pointer points to. -/
def copySegment (deref : β → Bytes) (x : Iovec β) : Except Fault Bytes :=
  match x.base with
  | some b => slice (deref b) 0 x.len
  | none => if x.len = 0 then .ok [] else .error .null

/-- The loop of `nftp_iovs2stream`, from slot `i` on, `n` slots left. -/
def copySegments (deref : β → Bytes) (v : Iovs β) (i : Nat) : Nat → Except Fault Bytes
  | 0 => .ok []
  | n + 1 => do
    let x ← v.slot i
    let b ← copySegment deref x
    let rest ← copySegments deref v (i + 1) n
    return b ++ rest

/-- `nftp_iovs2stream`: the flattened bytes, which must fit the `iolen` bytes allocated for them. -/
def iovs2stream (deref : β → Bytes) (v : Iovs β) : Except Fault (Rv × Bytes × Nat) := do
  let str ← copySegments deref v v.low v.len
  if str.length > v.iolen then .error .overflow
  else .ok (.ok, str, v.iolen)

/-! ## The segments in use -/

def Iovs.segs (v : Iovs β) : List (Iovec β) := (v.iovs.drop v.low).take v.len

theorem Iovs.segs_getElem? {v : Iovs β} {k : Nat} (hk : k < v.len) : v.segs[k]? = v.iovs[v.low + k]? := by
  rw [Iovs.segs, List.getElem?_take, if_pos hk, List.getElem?_drop]

/-- The window lies in the array, whose slots are `cap`. -/
structure Iovs.Wf (v : Iovs β) : Prop where
  slots : v.iovs.length = v.cap
  room : v.low + v.len ≤ v.cap

theorem iovsAlloc_wf (mem : Nat → Iovec β) : (iovsAlloc mem).Wf := ⟨by simp [iovsAlloc], by simp [iovsAlloc, nftpSize]⟩

@[simp] theorem iovsAlloc_segs (mem : Nat → Iovec β) : (iovsAlloc mem).segs = [] := by simp [Iovs.segs, iovsAlloc]

/-- **A tail push below `cap`** adds the segment at the end of the window. -/
theorem iovsPush_tail {v : Iovs β} (h : v.Wf) (hr : v.low + v.len < v.cap) (ptr : Option β) (len : Nat) :
    ∃ v', iovsPush v ptr len .tail = .ok (.ok, v') ∧ v'.Wf ∧ v'.segs = v.segs ++ [⟨ptr, len⟩] ∧
      v'.low = v.low ∧ v'.len = v.len + 1 ∧ v'.cap = v.cap ∧ v'.iolen = sizeT (v.iolen + len) := by
  have hs := h.slots
  refine ⟨{ v with iovs := v.iovs.set (v.low + v.len) ⟨ptr, len⟩, len := v.len + 1, iolen := sizeT (v.iolen + len) },
    ?_, ⟨by simp [hs], by simp only; omega⟩, ?_, rfl, rfl, rfl, rfl⟩
  · simp only [iovsPush, Iovs.setSlot]
    rw [if_neg (by omega), if_pos (by omega)]
    rfl
  · simp only [Iovs.segs]
    rw [List.drop_set, if_neg (by omega), Nat.add_sub_cancel_left, List.take_add_one]
    have hl : v.len < (v.iovs.drop v.low).length := by rw [List.length_drop]; omega
    rw [List.take_set_of_le (Nat.le_refl _), List.getElem?_set_self hl]
    rfl

/-- **A tail push onto a window that ends where the array ends** writes behind the array. -/
theorem iovsPush_past {v : Iovs β} (h : v.Wf) (hend : v.low + v.len = v.cap) (ptr : Option β) (len : Nat) :
    iovsPush v ptr len .tail = .error .overflow := by
  have hs := h.slots
  simp only [iovsPush, Iovs.setSlot]
  rw [if_neg (by omega), if_neg (by omega)]
  rfl

/-- **A head push with a slot before the window** adds the segment in front. -/
theorem iovsPush_head {v : Iovs β} (h : v.Wf) (hr : 0 < v.low) (ptr : Option β) (len : Nat) :
    ∃ v', iovsPush v ptr len .head = .ok (.ok, v') ∧ v'.Wf ∧ v'.segs = ⟨ptr, len⟩ :: v.segs ∧
      v'.low + 1 = v.low ∧ v'.len = v.len + 1 ∧ v'.cap = v.cap ∧ v'.iolen = sizeT (v.iolen + len) := by
  have hs := h.slots
  have hw := h.room
  refine ⟨{ v with iovs := v.iovs.set (v.low - 1) ⟨ptr, len⟩, low := v.low - 1, len := v.len + 1,
                   iolen := sizeT (v.iolen + len) },
    ?_, ⟨by simp [hs], by simp only; omega⟩, ?_, by simp only; omega, rfl, rfl, rfl⟩
  · simp only [iovsPush, Iovs.setSlot]
    rw [if_neg (by omega), if_pos (by omega)]
    rfl
  · simp only [Iovs.segs]
    have hl : v.low - 1 < (v.iovs.set (v.low - 1) ⟨ptr, len⟩).length := by rw [List.length_set]; omega
    rw [List.drop_eq_getElem_cons hl, List.take_succ_cons, List.getElem_set_self, Nat.sub_add_cancel hr,
      List.drop_set_of_lt (by omega)]

theorem Iovs.Wf.segs_length {v : Iovs β} (h : v.Wf) : v.segs.length = v.len := by
  have hs := h.slots
  have hw := h.room
  unfold Iovs.segs
  rw [List.length_take, List.length_drop]
  omega

theorem iovsPush_refused {v : Iovs β} (h : v.low = 0) (ptr : Option β) (len : Nat) :
    iovsPush v ptr len .head = .ok (.overflow, v) := if_pos h

theorem iovsPop_empty {v : Iovs β} (h : v.len = 0) (flag : End) : iovsPop v flag = .ok (.empty, none, v) := if_pos h

/-- **A head pop** takes the first segment. -/
theorem iovsPop_head {v : Iovs β} (h : v.Wf) (hne : 0 < v.len) : ∃ x v', iovsPop v .head = .ok (.ok, some x, v') ∧
    v'.Wf ∧ v.segs = x :: v'.segs ∧ v'.low = v.low + 1 ∧ v'.cap = v.cap ∧ v'.iolen = sizeT (v.iolen - x.len) := by
  have hs := h.slots
  have hw := h.room
  have hl : v.low < v.iovs.length := by omega
  refine ⟨v.iovs[v.low], { v with iovs := v.iovs.set v.low ⟨none, 0⟩, low := v.low + 1, len := v.len - 1,
                                  iolen := sizeT (v.iolen - v.iovs[v.low].len) },
    ?_, ⟨by simp [hs], by simp only; omega⟩, ?_, rfl, rfl, rfl⟩
  · simp only [iovsPop, Iovs.slot, Iovs.setSlot]
    rw [if_neg (by omega), List.getElem?_eq_getElem hl, if_pos hl]
    rfl
  · obtain ⟨n, hn⟩ := Nat.exists_eq_succ_of_ne_zero (Nat.pos_iff_ne_zero.1 hne)
    simp only [Iovs.segs]
    rw [hn, List.drop_eq_getElem_cons hl, List.take_succ_cons, List.drop_set_of_lt (by omega), Nat.succ_sub_one]

/-- **A tail pop** takes the last segment. -/
theorem iovsPop_tail {v : Iovs β} (h : v.Wf) (hne : 0 < v.len) : ∃ x v', iovsPop v .tail = .ok (.ok, some x, v') ∧
    v'.Wf ∧ v.segs = v'.segs ++ [x] ∧ v'.low = v.low ∧ v'.cap = v.cap ∧ v'.iolen = sizeT (v.iolen - x.len) := by
  have hs := h.slots
  have hw := h.room
  have hl : v.low + v.len - 1 < v.iovs.length := by omega
  refine ⟨v.iovs[v.low + v.len - 1], { v with iovs := v.iovs.set (v.low + v.len - 1) ⟨none, 0⟩, len := v.len - 1,
                                              iolen := sizeT (v.iolen - v.iovs[v.low + v.len - 1].len) },
    ?_, ⟨by simp [hs], by simp only; omega⟩, ?_, rfl, rfl, rfl⟩
  · simp only [iovsPop, Iovs.slot, Iovs.setSlot]
    rw [if_neg (by omega), List.getElem?_eq_getElem hl, if_pos hl]
    rfl
  · have hstay : (v.iovs.set (v.low + v.len - 1) ⟨none, 0⟩).drop v.low = (v.iovs.drop v.low).set (v.len - 1) ⟨none, 0⟩ := by
      rw [List.drop_set, if_neg (by omega), show v.low + v.len - 1 - v.low = v.len - 1 by omega]
    simp only [Iovs.segs, hstay]
    rw [List.take_set_of_le (Nat.le_refl _)]
    conv_lhs => rw [show v.len = v.len - 1 + 1 by omega]
    rw [List.take_add_one, List.getElem?_drop, show v.low + (v.len - 1) = v.low + v.len - 1 by omega,
      List.getElem?_eq_getElem hl]
    rfl

theorem iovsPop_flag {v : Iovs β} (h : v.len ≠ 0) : iovsPop v .other = .ok (.flag, none, v) := if_neg h

/-- The loop leaves the copied segments between what was before slot `idx + i` and what is after the last copy. -/
theorem catSegments_eq {src : Iovs β} {idx : Nat} : ∀ {n i : Nat} {dest : Iovs β}, src.low + i + n ≤ src.iovs.length →
    idx + i + n ≤ dest.iovs.length →
    catSegments src idx i n dest = .ok { dest with
      iovs := dest.iovs.take (idx + i) ++ (src.iovs.drop (src.low + i)).take n ++ dest.iovs.drop (idx + i + n) }
  | 0, i, dest, _, _ => by simp [catSegments]
  | n + 1, i, dest, hsrc, hdest => by
    have hi : src.low + i < src.iovs.length := by omega
    have hj : idx + i < dest.iovs.length := by omega
    simp only [catSegments, Iovs.slot, Iovs.setSlot]
    rw [List.getElem?_eq_getElem hi, bind_ok, if_pos hj, bind_ok,
      catSegments_eq (by omega) (by rw [List.length_set]; omega)]
    have hcopied : (src.iovs.drop (src.low + i)).take (n + 1) =
        src.iovs[src.low + i] :: (src.iovs.drop (src.low + (i + 1))).take n := by
      rw [List.drop_eq_getElem_cons hi, List.take_succ_cons, Nat.add_assoc]
    have hbefore : (dest.iovs.set (idx + i) src.iovs[src.low + i]).take (idx + (i + 1)) =
        dest.iovs.take (idx + i) ++ [src.iovs[src.low + i]] := by
      rw [← Nat.add_assoc, List.take_add_one, List.take_set_of_le (Nat.le_refl _), List.getElem?_set_self hj]
      rfl
    have hafter : (dest.iovs.set (idx + i) src.iovs[src.low + i]).drop (idx + (i + 1) + n) =
        dest.iovs.drop (idx + i + (n + 1)) := by
      rw [List.drop_set_of_lt (by omega)]
      congr 1
      omega
    rw [hcopied, hbefore, hafter]
    simp

/-- The shift leaves slot `i` in two places, and what was behind it one slot further. -/
theorem shiftSegments_eq : ∀ {n i : Nat} {v : Iovs β}, i + n < v.iovs.length →
    shiftSegments v i n = .ok { v with
      iovs := v.iovs.take (i + 1) ++ (v.iovs.drop i).take n ++ v.iovs.drop (i + n + 1) }
  | 0, i, v, _ => by simp [shiftSegments]
  | n + 1, i, v, h => by
    have hi : i + n < v.iovs.length := by omega
    have hj : i + n + 1 < v.iovs.length := by omega
    simp only [shiftSegments, Iovs.slot, Iovs.setSlot]
    rw [List.getElem?_eq_getElem hi, bind_ok, if_pos hj, bind_ok, shiftSegments_eq (by rw [List.length_set]; exact hi)]
    have hbefore : (v.iovs.set (i + n + 1) v.iovs[i + n]).take (i + 1) = v.iovs.take (i + 1) :=
      List.take_set_of_le (by omega)
    have hmoved : ((v.iovs.set (i + n + 1) v.iovs[i + n]).drop i).take n = (v.iovs.drop i).take n := by
      rw [List.drop_set, if_neg (by omega), List.take_set_of_le (by omega)]
    have hlast : (v.iovs.drop i).take (n + 1) = (v.iovs.drop i).take n ++ [v.iovs[i + n]] := by
      rw [List.take_add_one, List.getElem?_drop, List.getElem?_eq_getElem hi]
      rfl
    have hafter : (v.iovs.set (i + n + 1) v.iovs[i + n]).drop (i + n + 1) =
        v.iovs[i + n] :: v.iovs.drop (i + (n + 1) + 1) := by
      rw [List.drop_eq_getElem_cons (by rw [List.length_set]; exact hj), List.getElem_set_self, List.drop_set_of_lt (by omega)]
      rfl
    rw [hbefore, hmoved, hlast, hafter]
    simp

theorem iovsInsert_full {v : Iovs β} (h : v.low + v.len + 1 > v.cap) (ptr : Option β) (len pos : Nat) :
    iovsInsert v ptr len pos = .ok (.overflow, v) := if_pos h

theorem iovsInsert_behind {v : Iovs β} (h : ¬ v.low + v.len + 1 > v.cap) (ptr : Option β) (len : Nat) {pos : Nat}
    (hpos : pos > v.len) : iovsInsert v ptr len pos = iovsPush v ptr len .tail := by
  rw [iovsInsert, if_neg h, if_pos hpos]

/-- The window, one slot longer, after a shift from its place `pos` on. -/
theorem Iovs.Wf.shifted {v : Iovs β} (h : v.Wf) {pos : Nat} (hpos : pos ≤ v.len) (hl : v.low + pos < v.iovs.length)
    (rest : List (Iovec β)) :
    ((v.iovs.take (v.low + pos + 1) ++ (v.iovs.drop (v.low + pos)).take (v.len - pos) ++ rest).drop v.low).take (v.len + 1) =
      v.segs.take pos ++ v.iovs[v.low + pos] :: v.segs.drop pos := by
  have hs := h.slots
  have hw := h.room
  have hseg : v.segs.take pos = (v.iovs.drop v.low).take pos := by
    rw [Iovs.segs, List.take_take, Nat.min_eq_left hpos]
  have hdrop : v.segs.drop pos = (v.iovs.drop (v.low + pos)).take (v.len - pos) := by
    rw [Iovs.segs, List.drop_take, List.drop_drop]
  have hfront : (v.iovs.take (v.low + pos + 1)).drop v.low = v.segs.take pos ++ [v.iovs[v.low + pos]] := by
    rw [List.drop_take, show v.low + pos + 1 - v.low = pos + 1 by omega, List.take_add_one, ← hseg, List.getElem?_drop,
      List.getElem?_eq_getElem hl]
    rfl
  have hlen : (v.segs.take pos ++ v.iovs[v.low + pos] :: v.segs.drop pos).length = v.len + 1 := by
    rw [List.length_append, List.length_cons, List.length_take, List.length_drop, h.segs_length]
    omega
  rw [List.append_assoc, List.drop_append_of_le_length (by rw [List.length_take]; omega), hfront, ← hdrop, ← List.append_assoc,
    List.append_assoc _ [_], List.singleton_append]
  exact List.take_left' hlen

/-- **An insert inside the list with room** makes a place at `pos`, which keeps the segment its slot held; the new one is
at slot `pos` of the array. -/
theorem iovsInsert_ok {v : Iovs β} (h : v.Wf) (hr : v.low + v.len < v.cap) (ptr : Option β) (len : Nat) {pos : Nat}
    (hpos : pos ≤ v.len) : ∃ old v', v.iovs[v.low + pos]? = some old ∧ iovsInsert v ptr len pos = .ok (.ok, v') ∧ v'.Wf ∧
      v'.segs = (if pos < v.low then v.segs.take pos ++ old :: v.segs.drop pos
        else (v.segs.take pos ++ old :: v.segs.drop pos).set (pos - v.low) ⟨ptr, len⟩) ∧
      v'.low = v.low ∧ v'.len = v.len + 1 ∧ v'.cap = v.cap ∧ v'.iolen = sizeT (v.iolen + len) := by
  have hs := h.slots
  have hl : v.low + pos < v.iovs.length := by omega
  have hn : v.low + v.len - (v.low + pos) = v.len - pos := by omega
  let a := v.iovs.take (v.low + pos + 1) ++ (v.iovs.drop (v.low + pos)).take (v.len - pos) ++
    v.iovs.drop (v.low + pos + (v.len - pos) + 1)
  have ha : a.length = v.cap := by
    simp only [a, List.length_append, List.length_take, List.length_drop]
    omega
  have hwin : (a.drop v.low).take (v.len + 1) = v.segs.take pos ++ v.iovs[v.low + pos] :: v.segs.drop pos :=
    h.shifted hpos hl _
  refine ⟨v.iovs[v.low + pos], { v with iovs := a.set pos ⟨ptr, len⟩, len := v.len + 1, iolen := sizeT (v.iolen + len) },
    List.getElem?_eq_getElem hl, ?_, ⟨by rw [List.length_set]; exact ha, by simp only; omega⟩, ?_, rfl, rfl, rfl, rfl⟩
  · rw [iovsInsert, if_neg (by omega), if_neg (by omega), hn, shiftSegments_eq (by omega), bind_ok]
    simp only [Iovs.setSlot]
    rw [if_pos (by show pos < a.length; omega)]
    rfl
  · simp only [Iovs.segs] at hwin ⊢
    rw [← hwin]
    by_cases hlow : pos < v.low
    · rw [if_pos hlow, List.drop_set_of_lt hlow]
    · rw [if_neg hlow, List.drop_set, if_neg hlow, List.take_set]

theorem iovsCat_full {dest src : Iovs β} (h : dest.low + dest.len + src.len > dest.cap) :
    iovsCat dest src = .ok (.overflow, dest) := if_pos h

/-- **A cat with room** adds the segments of `src` behind those of `dest`. -/
theorem iovsCat_ok {dest src : Iovs β} (hd : dest.Wf) (hs : src.Wf) (hr : dest.low + dest.len + src.len ≤ dest.cap) :
    ∃ v', iovsCat dest src = .ok (.ok, v') ∧ v'.Wf ∧ v'.segs = dest.segs ++ src.segs ∧ v'.low = dest.low ∧
      v'.cap = dest.cap ∧ v'.iolen = sizeT (dest.iolen + src.iolen) := by
  have hds := hd.slots
  have hss := hs.slots
  have hsw := hs.room
  have hlen := hd.segs_length
  have hslen := hs.segs_length
  have hcat := @catSegments_eq _ src (dest.low + dest.len) src.len 0 dest (by omega) (by omega)
  have hseg : dest.segs = (dest.iovs.take (dest.low + dest.len)).drop dest.low := by
    rw [Iovs.segs, List.drop_take, Nat.add_sub_cancel_left]
  refine ⟨{ dest with
      iovs := dest.iovs.take (dest.low + dest.len) ++ src.segs ++ dest.iovs.drop (dest.low + dest.len + src.len),
      len := dest.len + src.len, iolen := sizeT (dest.iolen + src.iolen) }, ?_, ⟨?_, by simp only; omega⟩, ?_, rfl, rfl, rfl⟩
  · rw [iovsCat, if_neg (by omega), hcat]
    rfl
  · simp only [List.length_append, List.length_take, List.length_drop, hslen]
    omega
  · have htake : (dest.iovs.take (dest.low + dest.len)).length = dest.low + dest.len := by
      rw [List.length_take]
      omega
    have hdrop : (dest.iovs.take (dest.low + dest.len) ++ src.segs ++
        dest.iovs.drop (dest.low + dest.len + src.len)).drop dest.low =
        dest.segs ++ src.segs ++ dest.iovs.drop (dest.low + dest.len + src.len) := by
      rw [List.append_assoc, List.drop_append_of_le_length (by omega), ← hseg, ← List.append_assoc]
    show List.take (dest.len + src.len) (List.drop dest.low _) = _
    rw [hdrop]
    exact List.take_left' (by rw [List.length_append, hlen, hslen])

/-! ## Flattening -/

def flatten (deref : β → Bytes) : List (Iovec β) → Except Fault Bytes
  | [] => .ok []
  | x :: xs => do
    let b ← copySegment deref x
    let rest ← flatten deref xs
    return b ++ rest

theorem copySegments_eq (deref : β → Bytes) (v : Iovs β) : ∀ (n i : Nat), i + n ≤ v.iovs.length →
    copySegments deref v i n = flatten deref ((v.iovs.drop i).take n)
  | 0, i, _ => by simp [copySegments, flatten]
  | n + 1, i, h => by
    have hi : i < v.iovs.length := by omega
    rw [copySegments, Iovs.slot, List.getElem?_eq_getElem hi, List.drop_eq_getElem_cons hi, List.take_succ_cons,
      flatten, copySegments_eq deref v n (i + 1) (by omega)]
    rfl

/-- **Flattening reads the live window, in order.** -/
theorem iovs2stream_eq {v : Iovs β} (h : v.Wf) {deref : β → Bytes} {str : Bytes}
    (hf : flatten deref v.segs = .ok str) (hl : str.length = v.iolen) :
    iovs2stream deref v = .ok (.ok, str, v.iolen) := by
  have hs := h.slots
  have hw := h.room
  rw [iovs2stream, copySegments_eq deref v v.len v.low (by omega)]
  rw [Iovs.segs] at hf
  rw [hf, bind_ok, if_neg (by omega)]

/-! ## The slots out of use -/

/-- Two iovs with the same segments in use, whatever the other slots of their arrays hold. -/
structure Iovs.Like (v w : Iovs β) : Prop where
  left : v.Wf
  right : w.Wf
  low : v.low = w.low
  cap : v.cap = w.cap
  iolen : v.iolen = w.iolen
  segs : v.segs = w.segs

theorem iovsAlloc_like (mem mem' : Nat → Iovec β) : (iovsAlloc mem).Like (iovsAlloc mem') :=
  ⟨iovsAlloc_wf mem, iovsAlloc_wf mem', rfl, rfl, rfl, by rw [iovsAlloc_segs, iovsAlloc_segs]⟩

variable {v w : Iovs β}

theorem Iovs.Like.len (h : v.Like w) : v.len = w.len := by rw [← h.left.segs_length, ← h.right.segs_length, h.segs]

/-- **A push does the same to both.** -/
theorem iovsPush_like (h : v.Like w) (ptr : Option β) (len : Nat) (flag : End) :
    Alike Eq (fun a b => a.1 = b.1 ∧ a.2.Like b.2) (iovsPush v ptr len flag) (iovsPush w ptr len flag) := by
  have hlow := h.low
  have hcap := h.cap
  have hlen := h.len
  cases flag with
  | head =>
    by_cases hl : v.low = 0
    · rw [iovsPush_refused hl, iovsPush_refused (hlow ▸ hl)]
      exact .ok ⟨rfl, h⟩
    · obtain ⟨v', hv, hvw, hvs, hvl, -, hvc, hvi⟩ := iovsPush_head h.left (Nat.pos_of_ne_zero hl) ptr len
      obtain ⟨w', hw, hww, hws, hwl, -, hwc, hwi⟩ := iovsPush_head h.right (by omega) ptr len
      rw [hv, hw]
      exact .ok ⟨rfl, hvw, hww, by simp only; omega, by simp only; omega, by rw [hvi, hwi, h.iolen], by rw [hvs, hws, h.segs]⟩
  | tail =>
    have hroom := h.left.room
    by_cases hend : v.low + v.len = v.cap
    · rw [iovsPush_past h.left hend, iovsPush_past h.right (by omega)]
      exact .error rfl
    · obtain ⟨v', hv, hvw, hvs, hvl, -, hvc, hvi⟩ := iovsPush_tail h.left (Nat.lt_of_le_of_ne hroom hend) ptr len
      obtain ⟨w', hw, hww, hws, hwl, -, hwc, hwi⟩ := iovsPush_tail h.right (by omega) ptr len
      rw [hv, hw]
      exact .ok ⟨rfl, hvw, hww, by simp only; omega, by simp only; omega, by rw [hvi, hwi, h.iolen], by rw [hvs, hws, h.segs]⟩
  | other => exact .ok ⟨rfl, h⟩

theorem iovs2stream_like (h : v.Like w) (deref : β → Bytes) : iovs2stream deref v = iovs2stream deref w := by
  have hvs := h.left.slots
  have hvr := h.left.room
  have hws := h.right.slots
  have hwr := h.right.room
  have hsegs := h.segs
  unfold Iovs.segs at hsegs
  rw [iovs2stream, iovs2stream, copySegments_eq deref v v.len v.low (by omega), copySegments_eq deref w w.len w.low (by omega),
    hsegs, h.iolen]

end Nftp
