import Nftp.Lib.Run
import Nftp.Vec
/-!
# Deque — the vector as a bounded double-ended list

`listCall` says what each call of `vector.c` is for, on a plain list with a capacity; a vector stands for a list
(`Vec.Stands`), and every call answers as the list does and stands for the list after.  The calls that fall outside this
are named: an insert at a negative position, and sums that leave `int` in a vector of more than 2^30 slots.
-/
namespace Nftp

open Lib

variable {α : Type}

/-- The calls of the API; an entry is any pointer, NULL included. -/
inductive VecOp (α : Type)
  | push (entry : α) (flag : End)
  | append (entry : α)
  | pop (flag : End)
  | insert (entry : α) (pos : Int)
  | delete (pos : Int)
  | get (idx : Int)
  | getidx (entry : α)
  deriving DecidableEq

/-- What a call answers: its code, `*entryp` and `*idxp`. -/
structure VecAns (α : Type) where
  rv : Rv
  entry : Option α
  idx : Option Nat
  deriving DecidableEq

def vecCall [DecidableEq α] (v : Vec α) : VecOp α → Except Fault (VecAns α × Vec α)
  | .push entry flag => do
    let (rv, v) ← vecPush v entry flag
    return (⟨rv, none, none⟩, v)
  | .append entry => do
    let (rv, v) ← vecAppend v entry
    return (⟨rv, none, none⟩, v)
  | .pop flag => do
    let (rv, entry, v) ← vecPop v flag
    return (⟨rv, entry, none⟩, v)
  | .insert entry pos => do
    let (rv, v) ← vecInsert v entry pos
    return (⟨rv, none, none⟩, v)
  | .delete pos => do
    let (rv, entry, v) ← vecDelete v pos
    return (⟨rv, entry, none⟩, v)
  | .get idx => do
    let (rv, entry) ← vecGet v idx
    return (⟨rv, entry, none⟩, v)
  | .getidx entry => do
    let (rv, idx) ← vecGetidx v entry
    return (⟨rv, none, idx⟩, v)

/-! ## The list

`listX` is `nftp_vec_x` on a list of at most `cap` elements; a position in front of the list is refused. -/

def listPush (cap : Nat) (l : List α) (entry : α) (flag : End) : Rv × List α :=
  if l.length = cap then (.overflow, l)
  else match flag with
    | .head => (.ok, entry :: l)
    | .tail => (.ok, l ++ [entry])
    | .other => (.flag, l)

def listPop (l : List α) (flag : End) : Rv × Option α × List α :=
  if l = [] then (.empty, none, l)
  else match flag with
    | .head => (.ok, l.head?, l.tail)
    | .tail => (.ok, l.getLast?, l.dropLast)
    | .other => (.flag, none, l)

def listInsert (cap : Nat) (l : List α) (entry : α) (pos : Int) : Rv × List α :=
  if l.length = cap ∨ pos < 0 then (.overflow, l)
  else if pos > l.length then (.ok, l ++ [entry])
  else (.ok, l.insertIdx pos.toNat entry)

def listDelete (l : List α) (pos : Int) : Rv × Option α × List α :=
  if pos < 0 ∨ pos ≥ l.length then (.overflow, none, l) else (.ok, l[pos.toNat]?, l.eraseIdx pos.toNat)

def listGet (l : List α) (idx : Int) : Rv × Option α :=
  if idx < 0 ∨ idx ≥ l.length then (.overflow, none) else (.ok, l[idx.toNat]?)

def listGetidx [DecidableEq α] (l : List α) (entry : α) : Rv × Option Nat :=
  match l.idxOf? entry with
  | some i => (.ok, some i)
  | none => (.empty, none)

/-- The same call on a list. -/
def listCall [DecidableEq α] (cap : Nat) (l : List α) : VecOp α → VecAns α × List α
  | .push entry flag => (⟨(listPush cap l entry flag).1, none, none⟩, (listPush cap l entry flag).2)
  | .append entry => (⟨(listPush cap l entry .tail).1, none, none⟩, (listPush cap l entry .tail).2)
  | .pop flag => (⟨(listPop l flag).1, (listPop l flag).2.1, none⟩, (listPop l flag).2.2)
  | .insert entry pos => (⟨(listInsert cap l entry pos).1, none, none⟩, (listInsert cap l entry pos).2)
  | .delete pos => (⟨(listDelete l pos).1, (listDelete l pos).2.1, none⟩, (listDelete l pos).2.2)
  | .get idx => (⟨(listGet l idx).1, (listGet l idx).2, none⟩, l)
  | .getidx entry => (⟨(listGetidx l entry).1, none, (listGetidx l entry).2⟩, l)

theorem listPush_failed {cap : Nat} {l : List α} {entry : α} {flag : End} (h : (listPush cap l entry flag).1 ≠ .ok) :
    (listPush cap l entry flag).2 = l := by
  unfold listPush at h ⊢
  split
  · rfl
  · rename_i hroom
    rw [if_neg hroom] at h
    cases flag with
    | head => exact absurd rfl h
    | tail => exact absurd rfl h
    | other => rfl

theorem listPop_failed {l : List α} {flag : End} (h : (listPop l flag).1 ≠ .ok) : (listPop l flag).2.2 = l := by
  unfold listPop at h ⊢
  split
  · rfl
  · rename_i hne
    rw [if_neg hne] at h
    cases flag with
    | head => exact absurd rfl h
    | tail => exact absurd rfl h
    | other => rfl

/-- **A call that fails leaves the list as it is.** -/
theorem listCall_failed [DecidableEq α] {cap : Nat} {l : List α} {op : VecOp α} (h : (listCall cap l op).1.rv ≠ .ok) :
    (listCall cap l op).2 = l := by
  cases op with
  | push entry flag => exact listPush_failed h
  | append entry => exact listPush_failed h
  | pop flag => exact listPop_failed h
  | insert entry pos =>
    simp only [listCall, listInsert] at h ⊢
    by_cases hr : l.length = cap ∨ pos < 0
    · rw [if_pos hr]
    · rw [if_neg hr] at h
      split at h
      · exact absurd rfl h
      · exact absurd rfl h
  | delete pos =>
    simp only [listCall, listDelete] at h ⊢
    by_cases hr : pos < 0 ∨ pos ≥ l.length
    · rw [if_pos hr]
    · rw [if_neg hr] at h
      exact absurd rfl h
  | get idx => rfl
  | getidx entry => rfl

/-! ## A vector that stands for a list -/

structure Vec.Stands (v : Vec α) (cap : Nat) (l : List α) : Prop extends v.Wf where
  cap_eq : v.cap = cap
  view : v.view = l.map some

theorem vecAlloc_stands {cap : Nat} (h : 0 < cap) : (vecAlloc cap : Vec α).Stands cap [] := by
  refine ⟨vecAlloc_wf _, ?_, rfl⟩
  simp only [vecAlloc]
  rw [if_neg (by omega), Int.toNat_natCast]

variable {v v' : Vec α} {cap : Nat} {l l' : List α}

theorem Vec.Stands.length (h : v.Stands cap l) : l.length = v.len := by
  have := congrArg List.length h.view
  rw [Vec.view_length, List.length_map] at this
  exact this.symm

theorem Vec.Stands.at_eq (h : v.Stands cap l) {k : Nat} (hk : k < v.len) : v.at k = l[k]? := by
  have hget := Vec.view_getElem? v hk
  rw [h.view, List.getElem?_map] at hget
  cases hl : l[k]? with
  | none => rw [hl] at hget; cases hget
  | some a => rw [hl] at hget; exact (Option.some.inj hget).symm

/-- The sums the call takes stay in `int`. -/
def VecOp.InRange (v : Vec α) : VecOp α → Prop
  | .push _ .head => v.len = v.cap ∨ v.low + (v.cap - 1) < 2 ^ 31
  | .push _ .tail => v.len = v.cap ∨ v.low + v.len < 2 ^ 31
  | .push _ .other => True
  | .append _ => v.len = v.cap ∨ v.low + v.len < 2 ^ 31
  | .pop .tail => v.len = 0 ∨ v.low + v.len < 2 ^ 31
  | .pop _ => True
  | .insert _ _ => v.len = v.cap ∨ v.low + v.len < 2 ^ 31
  | .delete pos => (pos < 0 ∨ pos ≥ v.len) ∨ v.low + v.len < 2 ^ 31
  | .get idx => (idx < 0 ∨ idx ≥ v.len) ∨ v.low + idx.toNat < 2 ^ 31
  | .getidx _ => v.low + v.len < 2 ^ 31

/-- The position of an insert is not negative. -/
def VecOp.FromZero : VecOp α → Prop
  | .insert _ pos => 0 ≤ pos
  | _ => True

/-- In a vector of at most 2^30 slots every sum stays in `int`. -/
theorem Vec.Wf.inRange (h : v.Wf) (hcap : v.cap ≤ 2 ^ 30) (op : VecOp α) : op.InRange v := by
  have hlow := h.low_lt
  have hlen := h.len_le
  cases op with
  | push entry flag =>
    cases flag with
    | head => simp only [VecOp.InRange]; omega
    | tail => simp only [VecOp.InRange]; omega
    | other => trivial
  | append entry => simp only [VecOp.InRange]; omega
  | pop flag =>
    cases flag with
    | tail => simp only [VecOp.InRange]; omega
    | head => trivial
    | other => trivial
  | insert entry pos => simp only [VecOp.InRange]; omega
  | delete pos => simp only [VecOp.InRange]; omega
  | get idx => simp only [VecOp.InRange]; omega
  | getidx entry => simp only [VecOp.InRange]; omega

/-! ## What a call that returns leaves of the ring, whatever position it was given -/

theorem Vec.Wf.set {w : Vec α} (h : v.Wf) {i : Nat} {x : Option α} (hset : v.setSlot i x = .ok w) :
    w.Wf ∧ w.cap = v.cap ∧ w.len = v.len ∧ w.low = v.low := by
  unfold Vec.setSlot at hset
  split at hset
  · cases hset
    exact ⟨⟨by simp [h.slots], h.low_lt, h.len_le⟩, rfl, rfl, rfl⟩
  · cases hset

theorem vecPush_wf (h : v.Wf) {entry : α} {flag : End} {rv : Rv} (hcall : vecPush v entry flag = .ok (rv, v')) :
    v'.Wf ∧ v'.cap = v.cap := by
  unfold vecPush at hcall
  split at hcall
  · cases hcall
    exact ⟨h, rfl⟩
  rename_i hroom
  have hlt : v.len < v.cap := Nat.lt_of_le_of_ne h.len_le hroom
  cases flag with
  | head =>
    obtain ⟨low, -, hcall⟩ := bind_eq_ok.1 hcall
    obtain ⟨w, hset, hcall⟩ := bind_eq_ok.1 hcall
    cases hcall
    have hv : Vec.Wf { v with low := low % v.cap } := ⟨h.slots, Nat.mod_lt _ h.pos, h.len_le⟩
    obtain ⟨hw, hcap, hlen, -⟩ := hv.set hset
    exact ⟨⟨hw.slots, hw.low_lt, by simp only [hlen, hcap]; exact hlt⟩, hcap⟩
  | tail =>
    obtain ⟨pos, -, hcall⟩ := bind_eq_ok.1 hcall
    obtain ⟨w, hset, hcall⟩ := bind_eq_ok.1 hcall
    cases hcall
    obtain ⟨hw, hcap, hlen, -⟩ := h.set hset
    exact ⟨⟨hw.slots, hw.low_lt, by simp only [hlen, hcap]; exact hlt⟩, hcap⟩
  | other =>
    cases hcall
    exact ⟨h, rfl⟩

theorem vecPop_wf (h : v.Wf) {flag : End} {rv : Rv} {entry : Option α} (hcall : vecPop v flag = .ok (rv, entry, v')) :
    v'.Wf ∧ v'.cap = v.cap := by
  have hle := h.len_le
  unfold vecPop at hcall
  split at hcall
  · cases hcall
    exact ⟨h, rfl⟩
  cases flag with
  | head =>
    obtain ⟨x, -, hcall⟩ := bind_eq_ok.1 hcall
    obtain ⟨w, hset, hcall⟩ := bind_eq_ok.1 hcall
    cases hcall
    have hv : Vec.Wf { v with low := (v.low + 1) % v.cap } := ⟨h.slots, Nat.mod_lt _ h.pos, h.len_le⟩
    obtain ⟨hw, hcap, hlen, -⟩ := hv.set hset
    exact ⟨⟨hw.slots, hw.low_lt, Nat.le_trans (Nat.sub_le _ _) hw.len_le⟩, hcap⟩
  | tail =>
    obtain ⟨top, -, hcall⟩ := bind_eq_ok.1 hcall
    obtain ⟨x, -, hcall⟩ := bind_eq_ok.1 hcall
    obtain ⟨w, hset, hcall⟩ := bind_eq_ok.1 hcall
    cases hcall
    obtain ⟨hw, hcap, -, -⟩ := h.set hset
    exact ⟨⟨hw.slots, hw.low_lt, Nat.le_trans (Nat.sub_le _ _) hw.len_le⟩, hcap⟩
  | other =>
    cases hcall
    exact ⟨h, rfl⟩

theorem Vec.Wf.setAt {w : Vec α} (h : v.Wf) {i : Int} {x : Option α} (hset : v.setSlotAt i x = .ok w) :
    w.Wf ∧ w.cap = v.cap ∧ w.len = v.len := by
  unfold Vec.setSlotAt at hset
  split at hset
  · cases hset
  · obtain ⟨hw, hcap, hlen, -⟩ := h.set hset
    exact ⟨hw, hcap, hlen⟩

theorem vecUnshift_wf : ∀ {n : Nat} {i : Int} {v w : Vec α}, v.Wf → vecUnshift v i n = .ok w →
    w.Wf ∧ w.cap = v.cap ∧ w.len = v.len
  | 0, _, _, _, h, hrun => by cases hrun; exact ⟨h, rfl, rfl⟩
  | n + 1, i, v, w, h, hrun => by
    obtain ⟨x, -, hrun⟩ := bind_eq_ok.1 hrun
    obtain ⟨v₁, hset, hrun⟩ := bind_eq_ok.1 hrun
    obtain ⟨h₁, hcap, hlen⟩ := h.setAt hset
    obtain ⟨hw, hcap', hlen'⟩ := vecUnshift_wf h₁ hrun
    exact ⟨hw, hcap'.trans hcap, hlen'.trans hlen⟩

theorem vecShift_wf : ∀ {n i : Nat} {v w : Vec α}, v.Wf → vecShift v i n = .ok w → w.Wf ∧ w.cap = v.cap ∧ w.len = v.len
  | 0, _, _, _, h, hrun => by cases hrun; exact ⟨h, rfl, rfl⟩
  | n + 1, i, v, w, h, hrun => by
    obtain ⟨x, -, hrun⟩ := bind_eq_ok.1 hrun
    obtain ⟨v₁, hset, hrun⟩ := bind_eq_ok.1 hrun
    obtain ⟨h₁, hcap, hlen, -⟩ := h.set hset
    obtain ⟨hw, hcap', hlen'⟩ := vecShift_wf h₁ hrun
    exact ⟨hw, hcap'.trans hcap, hlen'.trans hlen⟩

theorem vecInsert_wf (h : v.Wf) {entry : α} {pos : Int} {rv : Rv} (hcall : vecInsert v entry pos = .ok (rv, v')) :
    v'.Wf ∧ v'.cap = v.cap := by
  unfold vecInsert at hcall
  split at hcall
  · cases hcall
    exact ⟨h, rfl⟩
  rename_i hroom
  have hlt : v.len < v.cap := Nat.lt_of_le_of_ne h.len_le hroom
  split at hcall
  · exact vecPush_wf h hcall
  obtain ⟨top, -, hcall⟩ := bind_eq_ok.1 hcall
  obtain ⟨w, hshift, hcall⟩ := bind_eq_ok.1 hcall
  obtain ⟨w', hset, hcall⟩ := bind_eq_ok.1 hcall
  cases hcall
  obtain ⟨hw, hcap, hlen⟩ := vecUnshift_wf h hshift
  obtain ⟨hw', hcap', hlen'⟩ := hw.setAt hset
  exact ⟨⟨hw'.slots, hw'.low_lt, by simp only [hlen', hlen, hcap', hcap]; exact hlt⟩, hcap'.trans hcap⟩

theorem vecDelete_wf (h : v.Wf) {pos : Int} {rv : Rv} {entry : Option α} (hcall : vecDelete v pos = .ok (rv, entry, v')) :
    v'.Wf ∧ v'.cap = v.cap := by
  unfold vecDelete at hcall
  split at hcall
  · cases hcall
    exact ⟨h, rfl⟩
  obtain ⟨i, -, hcall⟩ := bind_eq_ok.1 hcall
  obtain ⟨x, -, hcall⟩ := bind_eq_ok.1 hcall
  obtain ⟨top, -, hcall⟩ := bind_eq_ok.1 hcall
  obtain ⟨w, hshift, hcall⟩ := bind_eq_ok.1 hcall
  cases hcall
  obtain ⟨hw, hcap, -⟩ := vecShift_wf h hshift
  exact ⟨⟨hw.slots, hw.low_lt, Nat.le_trans (Nat.sub_le _ _) hw.len_le⟩, hcap⟩

/-! ## Each call refines its list call -/

theorem vecPush_refines (h : v.Stands cap l) (entry : α) {flag : End} (hr : (VecOp.push entry flag).InRange v) :
    ∃ v', vecPush v entry flag = .ok ((listPush cap l entry flag).1, v') ∧ v'.Stands cap (listPush cap l entry flag).2 := by
  have hlen := h.length
  have hcap := h.cap_eq
  unfold listPush
  by_cases hfull : v.len = v.cap
  · rw [if_pos (by omega)]
    exact ⟨v, vecPush_full hfull entry flag, h⟩
  have hroom : v.len < v.cap := Nat.lt_of_le_of_ne h.len_le hfull
  rw [if_neg (by omega)]
  cases flag with
  | head =>
    obtain ⟨v', hrun, hw, hview, hcap', -⟩ := vecPush_head h.toWf hroom (hr.resolve_left hfull) entry
    exact ⟨v', hrun, hw, hcap'.trans hcap, by rw [hview, h.view, List.map_cons]⟩
  | tail =>
    obtain ⟨v', hrun, hw, hview, hcap', -⟩ := vecPush_tail h.toWf hroom (hr.resolve_left hfull) entry
    exact ⟨v', hrun, hw, hcap'.trans hcap, by rw [hview, h.view, List.map_append]; rfl⟩
  | other => exact ⟨v, vecPush_flag hfull entry, h⟩

theorem vecPop_refines (h : v.Stands cap l) {flag : End} (hr : (VecOp.pop flag : VecOp α).InRange v) :
    ∃ v', vecPop v flag = .ok ((listPop l flag).1, (listPop l flag).2.1, v') ∧ v'.Stands cap (listPop l flag).2.2 := by
  have hlen := h.length
  unfold listPop
  by_cases hempty : v.len = 0
  · rw [if_pos (List.eq_nil_of_length_eq_zero (by omega))]
    exact ⟨v, vecPop_empty hempty flag, h⟩
  have hpos : 0 < v.len := Nat.pos_of_ne_zero hempty
  rw [if_neg (List.ne_nil_of_length_pos (by omega))]
  cases flag with
  | head =>
    obtain ⟨v', hrun, hw, hview, hcap, -⟩ := vecPop_head h.toWf hpos
    rw [h.at_eq hpos, ← List.head?_eq_getElem?] at hrun
    exact ⟨v', hrun, hw, hcap.trans h.cap_eq, by rw [hview, h.view, List.map_tail]⟩
  | tail =>
    obtain ⟨v', hrun, hw, hview, hcap, -⟩ := vecPop_tail h.toWf hpos (hr.resolve_left hempty)
    rw [h.at_eq (by omega), ← hlen, ← List.getLast?_eq_getElem?] at hrun
    exact ⟨v', hrun, hw, hcap.trans h.cap_eq, by rw [hview, h.view, List.map_dropLast]⟩
  | other => exact ⟨v, vecPop_flag hempty, h⟩

/-- An insert in front of the list is refused only when there is no room. -/
theorem vecInsert_refines (h : v.Stands cap l) (entry : α) {pos : Int} (hr : (VecOp.insert entry pos).InRange v)
    (hpos : v.len = v.cap ∨ 0 ≤ pos) :
    ∃ v', vecInsert v entry pos = .ok ((listInsert cap l entry pos).1, v') ∧ v'.Stands cap (listInsert cap l entry pos).2 := by
  have hlen := h.length
  have hcap := h.cap_eq
  unfold listInsert
  by_cases hfull : v.len = v.cap
  · rw [if_pos (by omega)]
    exact ⟨v, vecInsert_full hfull entry pos, h⟩
  have hroom : v.len < v.cap := Nat.lt_of_le_of_ne h.len_le hfull
  have hi := hr.resolve_left hfull
  rw [if_neg (by omega)]
  by_cases hbehind : pos > v.len
  · rw [if_pos (by omega)]
    obtain ⟨v', hrun, hw, hview, hcap', -⟩ := vecPush_tail h.toWf hroom hi entry
    rw [← vecInsert_behind hfull entry hbehind] at hrun
    exact ⟨v', hrun, hw, hcap'.trans hcap, by rw [hview, h.view, List.map_append]; rfl⟩
  · rw [if_neg (by omega)]
    obtain ⟨k, rfl⟩ := Int.eq_ofNat_of_zero_le (hpos.resolve_left hfull)
    obtain ⟨v', hrun, hw, hview, hcap', -⟩ := vecInsert_ok h.toWf hroom hi entry (k := k) (by omega)
    exact ⟨v', hrun, hw, hcap'.trans hcap, by rw [hview, h.view, Int.toNat_natCast, List.map_insertIdx]⟩

theorem vecDelete_refines (h : v.Stands cap l) {pos : Int} (hr : (VecOp.delete pos : VecOp α).InRange v) :
    ∃ v', vecDelete v pos = .ok ((listDelete l pos).1, (listDelete l pos).2.1, v') ∧ v'.Stands cap (listDelete l pos).2.2 := by
  have hlen := h.length
  unfold listDelete
  by_cases hout : pos < 0 ∨ pos ≥ v.len
  · rw [if_pos (by omega)]
    exact ⟨v, vecDelete_outside hout, h⟩
  · rw [if_neg (by omega)]
    obtain ⟨k, rfl⟩ := Int.eq_ofNat_of_zero_le (show 0 ≤ pos by omega)
    have hk : k < v.len := by omega
    obtain ⟨v', hrun, hw, hview, hcap⟩ := vecDelete_ok h.toWf hk (hr.resolve_left hout)
    rw [h.at_eq hk] at hrun
    exact ⟨v', hrun, hw, hcap.trans h.cap_eq, by rw [hview, h.view, Int.toNat_natCast, List.eraseIdx_map]⟩

theorem vecGet_refines (h : v.Stands cap l) {idx : Int} (hr : (VecOp.get idx : VecOp α).InRange v) :
    vecGet v idx = .ok (listGet l idx) := by
  have hlen := h.length
  unfold listGet
  by_cases hout : idx < 0 ∨ idx ≥ v.len
  · rw [if_pos (by omega)]
    exact vecGet_outside hout
  · rw [if_neg (by omega)]
    have hi := hr.resolve_left hout
    obtain ⟨k, rfl⟩ := Int.eq_ofNat_of_zero_le (show 0 ≤ idx by omega)
    have hk : k < v.len := by omega
    rw [vecGet_lt h.toWf hk hi, h.at_eq hk, Int.toNat_natCast]

variable [DecidableEq α]

theorem idxOf?_map_some (entry : α) : ∀ l : List α, (l.map some).idxOf? (some entry) = l.idxOf? entry
  | [] => rfl
  | a :: l => by
    rw [List.map_cons, List.idxOf?_cons, List.idxOf?_cons, idxOf?_map_some entry l]
    simp

theorem vecGetidx_refines (h : v.Stands cap l) (entry : α) (hr : (VecOp.getidx entry).InRange v) :
    vecGetidx v entry = .ok (listGetidx l entry) := by
  rw [vecGetidx_ok h.toWf hr, h.view, idxOf?_map_some, listGetidx]
  cases l.idxOf? entry with
  | none => rfl
  | some i => rfl

/-- **Every call answers as the list does**, and the vector stands for the list after. -/
theorem vecCall_refines (h : v.Stands cap l) {op : VecOp α} (hr : op.InRange v) (hpos : v.len = v.cap ∨ op.FromZero) :
    ∃ v', vecCall v op = .ok ((listCall cap l op).1, v') ∧ v'.Stands cap (listCall cap l op).2 := by
  cases op with
  | push entry flag =>
    obtain ⟨v', hrun, hs⟩ := vecPush_refines h entry hr
    exact ⟨v', by rw [vecCall, hrun]; rfl, hs⟩
  | append entry =>
    have hr' : (VecOp.push entry .tail).InRange v := hr
    obtain ⟨v', hrun, hs⟩ := vecPush_refines h entry hr'
    exact ⟨v', by rw [vecCall, vecAppend, hrun]; rfl, hs⟩
  | pop flag =>
    obtain ⟨v', hrun, hs⟩ := vecPop_refines h hr
    exact ⟨v', by rw [vecCall, hrun]; rfl, hs⟩
  | insert entry pos =>
    obtain ⟨v', hrun, hs⟩ := vecInsert_refines h entry hr hpos
    exact ⟨v', by rw [vecCall, hrun]; rfl, hs⟩
  | delete pos =>
    obtain ⟨v', hrun, hs⟩ := vecDelete_refines h hr
    exact ⟨v', by rw [vecCall, hrun]; rfl, hs⟩
  | get idx => exact ⟨v, by rw [vecCall, vecGet_refines h hr]; rfl, h⟩
  | getidx entry => exact ⟨v, by rw [vecCall, vecGetidx_refines h entry hr]; rfl, h⟩

/-! ## Runs -/

def ListStep (cap : Nat) (l : List α) (c : VecOp α × VecAns α) (l' : List α) : Prop := listCall cap l c.1 = (c.2, l')

/-- A call with its answer; an insert is at a position from 0 on. -/
def VecStep (v : Vec α) (c : VecOp α × VecAns α) (v' : Vec α) : Prop := c.1.FromZero ∧ vecCall v c.1 = .ok (c.2, v')

theorem vecStep_refines {c : VecOp α × VecAns α} (hcap : cap ≤ 2 ^ 30) (h : v.Stands cap l) (hs : VecStep v c v') :
    ∃ l', ListStep cap l c l' ∧ v'.Stands cap l' := by
  obtain ⟨op, ans⟩ := c
  obtain ⟨hpos, hcall⟩ := hs
  have hr := h.inRange (by rw [h.cap_eq]; exact hcap) op
  obtain ⟨v₁, hrun, hs⟩ := vecCall_refines h hr (.inr hpos)
  rw [hrun] at hcall
  cases hcall
  exact ⟨_, rfl, hs⟩

/-- **The vector is a bounded double-ended list**: whatever calls were made, with the answers they gave, the list under
the same calls gave the same answers, and the vector, read element by element, is that list; and so is every next call
answered. -/
theorem vec_refines {calls : List (VecOp α × VecAns α)} (h0 : 0 < cap) (hcap : cap ≤ 2 ^ 30)
    (hrun : Run VecStep (vecAlloc cap) calls v) : ∃ l, Run (ListStep cap) [] calls l ∧
      v.cap = cap ∧ v.low < cap ∧ v.len = l.length ∧ l.length ≤ cap ∧ (∀ idx, vecGet v idx = .ok (listGet l idx)) ∧
      ∀ op, op.FromZero →
        (∃ v', vecCall v op = .ok ((listCall cap l op).1, v') ∧ v'.view = (listCall cap l op).2.map some) ∧
        ((listCall cap l op).1.rv ≠ .ok → (listCall cap l op).2 = l) := by
  have hstep : ∀ (v : Vec α) c v' l, v.Stands cap l → VecStep v c v' → ∃ l', ListStep cap l c l' ∧ v'.Stands cap l' :=
    fun _ _ _ _ hs hc => vecStep_refines hcap hs hc
  obtain ⟨l, hl, hs⟩ := hrun.simulate hstep (vecAlloc_stands h0)
  have hlen := hs.length
  have hle := hs.len_le
  have hlow := hs.low_lt
  rw [hs.cap_eq] at hle hlow
  refine ⟨l, hl, hs.cap_eq, hlow, hlen.symm, by omega, fun idx => ?_, fun op hpos => ⟨?_, listCall_failed⟩⟩
  · exact vecGet_refines hs (hs.inRange (by rw [hs.cap_eq]; exact hcap) (.get idx))
  · obtain ⟨v', hcall, hs'⟩ := vecCall_refines hs (hs.inRange (by rw [hs.cap_eq]; exact hcap) op) (.inr hpos)
    exact ⟨v', hcall, hs'.view⟩

/-- Two slots, filled from both ends, so that the list wraps around; then a call that is refused and one in the middle. -/
theorem vec_refines_wrapped : ∃ v : Vec Nat, v.low = 1 ∧ v.vec = [some 7, some 5] ∧
    Run VecStep (vecAlloc (2 : Nat)) [(.append 6, ⟨.ok, none, none⟩), (.push 5 .head, ⟨.ok, none, none⟩),
      (.push 8 .tail, ⟨.overflow, none, none⟩), (.delete 1, ⟨.ok, some 6, none⟩), (.insert 7 1, ⟨.ok, none, none⟩)] v ∧
    ∃ l, v.len = l.length ∧ vecGet v 1 = .ok (listGet l 1) := by
  have hrun : Run VecStep (vecAlloc (2 : Nat)) [(.append 6, ⟨.ok, none, none⟩), (.push 5 .head, ⟨.ok, none, none⟩),
      (.push 8 .tail, ⟨.overflow, none, none⟩), (.delete 1, ⟨.ok, some 6, none⟩), (.insert 7 1, ⟨.ok, none, none⟩)]
      { cap := 2, len := 2, low := 1, vec := [some 7, some 5] } :=
    (Run.single ⟨trivial, rfl⟩).append ((Run.single ⟨trivial, rfl⟩).append ((Run.single ⟨trivial, rfl⟩).append
      ((Run.single ⟨trivial, rfl⟩).append (Run.single ⟨Int.zero_le_ofNat 1, rfl⟩))))
  obtain ⟨l, -, -, -, hlen, -, hget, -⟩ := vec_refines (by decide) (by decide) hrun
  exact ⟨_, rfl, rfl, hrun, l, hlen, hget 1⟩

/-! ## Any size, position and flag -/

/-- The position a call names is not one of the list. -/
def VecOp.Outside (v : Vec α) : VecOp α → Prop
  | .insert _ pos => pos < 0 ∨ pos > v.len
  | .delete pos => pos < 0 ∨ pos ≥ v.len
  | .get idx => idx < 0 ∨ idx ≥ v.len
  | _ => False

/-- The call stays in the array, and rejects a position outside the list; or it is an insert behind the end, which
appends. -/
def VecOp.Safe (v : Vec α) (op : VecOp α) : Prop :=
  ∃ ans v', vecCall v op = .ok (ans, v') ∧
    (op.Outside v → (ans.rv ≠ .ok ∧ v'.view = v.view) ∨
      ∃ entry pos, op = .insert entry pos ∧ pos > v.len ∧ v'.view = v.view ++ [some entry])

/-- The sums of the call stay in `int`, and it is no insert at a negative position with room. -/
def VecOp.Careful (v : Vec α) (op : VecOp α) : Prop := op.InRange v ∧ (v.len = v.cap ∨ op.FromZero)

theorem intAdd_past {a b : Nat} (h : ¬ a + b < 2 ^ 31) : intAdd a b = .error .intOverflow := if_neg h

/-- **A call whose sums leave `int` does not return.** -/
theorem vecCall_past (h : v.Wf) {op : VecOp α} (hr : ¬ op.InRange v) : vecCall v op = .error .intOverflow := by
  cases op with
  | push entry flag =>
    cases flag with
    | head =>
      obtain ⟨hroom, hsum⟩ := not_or.1 hr
      rw [vecCall, vecPush, if_neg hroom]
      simp only [intAdd_past hsum, bind_error]
    | tail =>
      obtain ⟨hroom, hsum⟩ := not_or.1 hr
      rw [vecCall, vecPush, if_neg hroom]
      simp only [intAdd_past hsum, bind_error]
    | other => exact absurd trivial hr
  | append entry =>
    obtain ⟨hroom, hsum⟩ := not_or.1 hr
    rw [vecCall, vecAppend, vecPush, if_neg hroom]
    simp only [intAdd_past hsum, bind_error]
  | pop flag =>
    cases flag with
    | tail =>
      obtain ⟨hne, hsum⟩ := not_or.1 hr
      rw [vecCall, vecPop, if_neg hne]
      simp only [intAdd_past hsum, bind_error]
    | head => exact absurd trivial hr
    | other => exact absurd trivial hr
  | insert entry pos =>
    obtain ⟨hroom, hsum⟩ := not_or.1 hr
    rw [vecCall, vecInsert, if_neg hroom]
    by_cases hbehind : pos > v.len
    · rw [if_pos hbehind, vecPush, if_neg hroom]
      simp only [intAdd_past hsum, bind_error]
    · rw [if_neg hbehind, intAdd_past hsum]
      rfl
  | delete pos =>
    obtain ⟨hin, hsum⟩ := not_or.1 hr
    rw [vecCall, vecDelete, if_neg (by omega)]
    by_cases hfirst : v.low + pos.toNat < 2 ^ 31
    · rw [intAdd_ok hfirst, bind_ok, h.slot_at, bind_ok, intAdd_past hsum]
      rfl
    · rw [intAdd_past hfirst]
      rfl
  | get idx =>
    obtain ⟨hin, hsum⟩ := not_or.1 hr
    rw [vecCall, vecGet, if_neg (by omega), if_neg (by omega), intAdd_past hsum]
    rfl
  | getidx entry =>
    rw [vecCall, vecGetidx, intAdd_past hr]
    rfl

/-- **A call that returns leaves a ring**, careful or not. -/
theorem vecCall_wf (h : v.Wf) {op : VecOp α} {ans : VecAns α} (hcall : vecCall v op = .ok (ans, v')) :
    v'.Wf ∧ v'.cap = v.cap := by
  cases op with
  | push entry flag =>
    obtain ⟨⟨rv, w⟩, hrun, hcall⟩ := bind_eq_ok.1 hcall
    cases hcall
    exact vecPush_wf h hrun
  | append entry =>
    obtain ⟨⟨rv, w⟩, hrun, hcall⟩ := bind_eq_ok.1 hcall
    cases hcall
    exact vecPush_wf h hrun
  | pop flag =>
    obtain ⟨⟨rv, entry, w⟩, hrun, hcall⟩ := bind_eq_ok.1 hcall
    cases hcall
    exact vecPop_wf h hrun
  | insert entry pos =>
    obtain ⟨⟨rv, w⟩, hrun, hcall⟩ := bind_eq_ok.1 hcall
    cases hcall
    exact vecInsert_wf h hrun
  | delete pos =>
    obtain ⟨⟨rv, entry, w⟩, hrun, hcall⟩ := bind_eq_ok.1 hcall
    cases hcall
    exact vecDelete_wf h hrun
  | get idx =>
    obtain ⟨⟨rv, entry⟩, -, hcall⟩ := bind_eq_ok.1 hcall
    cases hcall
    exact ⟨h, rfl⟩
  | getidx entry =>
    obtain ⟨⟨rv, idx⟩, -, hcall⟩ := bind_eq_ok.1 hcall
    cases hcall
    exact ⟨h, rfl⟩

/-- **Any calls that return leave a ring** of the size asked for. -/
theorem run_wf {sz : Int} {calls : List (VecOp α × VecAns α)}
    (hrun : Run (fun v c v' => vecCall v c.1 = .ok (c.2, v')) (vecAlloc sz) calls v) :
    v.Wf ∧ v.cap = (vecAlloc sz : Vec α).cap :=
  hrun.invariant (I := fun v => v.Wf ∧ v.cap = (vecAlloc sz : Vec α).cap)
    (fun _ _ _ ⟨h, hcap⟩ hcall => ⟨(vecCall_wf h hcall).1, (vecCall_wf h hcall).2.trans hcap⟩) ⟨vecAlloc_wf sz, rfl⟩

/-- An insert at a negative position with room is not rejected. -/
theorem vecInsert_negative {entry : α} {pos : Int} {ans : VecAns α} (hroom : v.len ≠ v.cap) (hpos : pos < 0)
    (hcall : vecCall v (.insert entry pos) = .ok (ans, v')) : ans.rv = .ok := by
  obtain ⟨⟨rv, w⟩, hins, hcall⟩ := bind_eq_ok.1 hcall
  cases hcall
  rw [vecInsert, if_neg hroom, if_neg (by omega)] at hins
  obtain ⟨top, -, hins⟩ := bind_eq_ok.1 hins
  obtain ⟨w₁, -, hins⟩ := bind_eq_ok.1 hins
  obtain ⟨w₂, -, hins⟩ := bind_eq_ok.1 hins
  cases hins
  rfl

/-- A careful call outside the list is a failed one, or an insert behind the end. -/
theorem listCall_outside (h : v.Stands cap l) {op : VecOp α} (hc : op.Careful v) (hout : op.Outside v) :
    (listCall cap l op).1.rv ≠ .ok ∨
      ∃ entry pos, op = .insert entry pos ∧ pos > v.len ∧ (listCall cap l op).2 = l ++ [entry] := by
  have hlen := h.length
  have hcap := h.cap_eq
  cases op with
  | insert entry pos =>
    simp only [listCall, listInsert]
    by_cases hfull : l.length = cap ∨ pos < 0
    · left
      rw [if_pos hfull]
      nofun
    · right
      have hbehind : pos > v.len := hout.resolve_left fun hneg => hfull (.inr hneg)
      rw [if_neg hfull, if_pos (by omega)]
      exact ⟨entry, pos, rfl, hbehind, rfl⟩
  | delete pos =>
    left
    simp only [VecOp.Outside] at hout
    simp only [listCall, listDelete]
    rw [if_pos (by omega)]
    nofun
  | get idx =>
    left
    simp only [VecOp.Outside] at hout
    simp only [listCall, listGet]
    rw [if_pos (by omega)]
    nofun
  | push entry flag => exact hout.elim
  | append entry => exact hout.elim
  | pop flag => exact hout.elim
  | getidx entry => exact hout.elim

/-- **A call is safe exactly when it is careful.** -/
theorem safe_iff_careful (h : v.Stands cap l) (op : VecOp α) : op.Safe v ↔ op.Careful v := by
  constructor
  · rintro ⟨ans, v', hcall, hsafe⟩
    have hr : op.InRange v := by
      by_contra hr
      rw [vecCall_past h.toWf hr] at hcall
      cases hcall
    refine ⟨hr, ?_⟩
    by_contra hno
    obtain ⟨hroom, hneg⟩ := not_or.1 hno
    cases op with
    | insert entry pos =>
      have hpos : pos < 0 := Int.not_le.1 hneg
      rcases hsafe (.inl hpos) with ⟨hrv, -⟩ | ⟨entry', pos', heq, hbehind, -⟩
      · exact hrv (vecInsert_negative hroom hpos hcall)
      · cases heq
        omega
    | push entry flag => exact hneg trivial
    | append entry => exact hneg trivial
    | pop flag => exact hneg trivial
    | delete pos => exact hneg trivial
    | get idx => exact hneg trivial
    | getidx entry => exact hneg trivial
  · intro hc
    obtain ⟨v', hcall, hs'⟩ := vecCall_refines h hc.1 hc.2
    refine ⟨_, v', hcall, fun hout => ?_⟩
    rw [hs'.view, h.view]
    rcases listCall_outside h hc hout with hrv | ⟨entry, pos, hop, hbehind, hl⟩
    · exact .inl ⟨hrv, by rw [listCall_failed hrv]⟩
    · exact .inr ⟨entry, pos, hop, hbehind, by rw [hl, List.map_append]; rfl⟩

/-- **Runs of careful calls stay in the array**, whatever size was asked for; and in every state of one the next call is
safe exactly when it is careful. -/
theorem slots_safe {sz : Int} {calls : List (VecOp α × VecAns α)}
    (hrun : Run (fun v c v' => vecCall v c.1 = .ok (c.2, v') ∧ c.1.Careful v) (vecAlloc sz) calls v) :
    v.vec.length = v.cap ∧ v.low < v.cap ∧ v.len ≤ v.cap ∧ ∀ op : VecOp α, op.Safe v ↔ op.Careful v := by
  obtain ⟨l, hs⟩ : ∃ l, v.Stands (vecAlloc sz : Vec α).cap l := by
    refine Run.invariant (I := fun v => ∃ l, v.Stands (vecAlloc sz : Vec α).cap l) ?_ hrun
      ⟨[], vecAlloc_wf sz, rfl, rfl⟩
    rintro v ⟨op, ans⟩ v' ⟨l, hs⟩ ⟨hcall, hc⟩
    obtain ⟨v₁, hcall', hs'⟩ := vecCall_refines hs hc.1 hc.2
    simp only at hcall hcall'
    rw [hcall'] at hcall
    cases hcall
    exact ⟨_, hs'⟩
  exact ⟨hs.slots, hs.low_lt, hs.len_le, fun op => safe_iff_careful hs op⟩

/-- A vector of two slots filled from both ends: an insert in front of the list is then rejected, for want of room. -/
theorem slots_safe_full : ∃ v : Vec Nat, v.low < v.cap ∧ v.len = v.cap ∧ (VecOp.insert 7 (-1)).Safe v := by
  have hrun : Run (fun (v : Vec Nat) c v' => vecCall v c.1 = .ok (c.2, v') ∧ c.1.Careful v) (vecAlloc 2)
      [(.append 6, ⟨.ok, none, none⟩), (.push 5 .head, ⟨.ok, none, none⟩)]
      { cap := 2, len := 2, low := 1, vec := [some 6, some 5] } :=
    (Run.single ⟨rfl, .inr (by decide), .inr trivial⟩).append (Run.single ⟨rfl, .inr (by decide), .inr trivial⟩)
  obtain ⟨-, hlow, -, hsafe⟩ := slots_safe hrun
  exact ⟨_, hlow, rfl, (hsafe (.insert 7 (-1))).2 ⟨.inl rfl, .inl rfl⟩⟩

/-- In an empty vector of four slots, whose first slot is 1, an insert at -2 reads slot -1; at -1 it stores the entry
outside the list, which then has an element nobody put there. -/
theorem insert_in_front : ¬ (VecOp.insert 7 (-2)).Safe (vecAlloc 4 : Vec Nat) ∧
    ∃ v, vecInsert (vecAlloc 4 : Vec Nat) 7 (-1) = .ok (.ok, v) ∧ v.view = [none] := by
  refine ⟨?_, _, rfl, rfl⟩
  rintro ⟨ans, v', hcall, -⟩
  cases hcall

end Nftp
