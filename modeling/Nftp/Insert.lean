import Nftp.Slots
/-!
# Insert — inserting a segment into an iovs

`nftp_iovs_insert` makes a place in the window and writes the segment to a slot of the array; the two are one slot only
when the window starts where the array does.  `Placing` is when the list comes out right all the same.
-/
namespace Nftp

open Lib
open Function (update update_self)

variable {ι β : Type}

/-- The list with one more segment at `pos`, or behind the end when there is no such place. -/
def placed (l : List (Iovec β)) (x : Iovec β) (pos : Nat) : List (Iovec β) :=
  if pos ≤ l.length then l.take pos ++ [x] ++ l.drop pos else l ++ [x]

/-- The segment goes behind the end, or the window starts where the array does, or the slots hold the segment already. -/
def Iovs.Placing (v : Iovs β) (x : Iovec β) (pos : Nat) : Prop :=
  pos > v.len ∨ v.low = 0 ∨ v.iovs[v.low + pos]? = some x ∧ (v.low ≤ pos → v.iovs[pos]? = some x)

/-- What an insert is for: the list with the segment in its place, its length added, and a stream that says so. -/
structure Iovs.Inserted (v : Iovs β) (x : Iovec β) (pos : Nat) (v' : Iovs β) : Prop where
  segs : v'.segs = placed v.segs x pos
  iolen : v'.iolen = sizeT (v.iolen + x.len)
  stream : ∀ deref : β → Bytes, (∀ y ∈ placed v.segs x pos, y.Addressed deref) →
    (∀ y ∈ placed v.segs x pos, y.Readable deref) →
    iovs2stream deref v' = .ok (.ok, concat deref (placed v.segs x pos), v'.iolen)

theorem totalLen_placed (l : List (Iovec β)) (x : Iovec β) (pos : Nat) :
    totalLen (placed l x pos) = totalLen l + x.len := by
  unfold placed
  split
  · have hl : totalLen l = totalLen (l.take pos) + totalLen (l.drop pos) := by
      rw [← totalLen_append, List.take_append_drop]
    simp only [totalLen_append, totalLen_cons, hl]
    simp only [totalLen, List.map_nil, List.sum_nil]
    omega
  · simp [totalLen]

/-! ## One insert -/

theorem set_eq_self_iff {α : Type} {l : List α} {k : Nat} {x : α} (hk : k < l.length) : l.set k x = l ↔ l[k]? = some x := by
  constructor
  · intro h
    rw [← h, List.getElem?_set_self hk]
  · intro h
    obtain ⟨_, rfl⟩ := List.getElem?_eq_some_iff.1 h
    exact List.set_getElem_self _

/-- **A place made at `pos` for `old`, and `x` written `low` slots in front of it**: `x` is in its place when that is no
slot away, or when it was in both slots before. -/
theorem written_eq_iff {α : Type} {l : List α} {pos low : Nat} {old x : α} (hpos : pos ≤ l.length) :
    (if pos < low then l.take pos ++ old :: l.drop pos else (l.take pos ++ old :: l.drop pos).set (pos - low) x) =
        l.take pos ++ x :: l.drop pos ↔
      low = 0 ∨ old = x ∧ (low ≤ pos → l[pos - low]? = some x) := by
  have htake : (l.take pos).length = pos := List.length_take_of_le hpos
  by_cases hlow : pos < low
  · rw [if_pos hlow, List.append_cancel_left_eq, List.cons.injEq]
    constructor
    · rintro ⟨hx, -⟩
      exact .inr ⟨hx, fun hle => absurd hle (Nat.not_le.2 hlow)⟩
    · rintro (hz | ⟨hx, -⟩)
      · omega
      · exact ⟨hx, rfl⟩
  rw [if_neg hlow]
  by_cases hzero : low = 0
  · refine iff_of_true ?_ (.inl hzero)
    rw [hzero, Nat.sub_zero, List.set_append_right _ _ (by omega), htake, Nat.sub_self, List.set_cons_zero]
  · -- `x` is written in front of the place
    have hk : pos - low < (l.take pos).length := by omega
    have hslot : (l.take pos)[pos - low]? = l[pos - low]? := by rw [List.getElem?_take, if_pos (by omega)]
    rw [List.set_append_left _ _ hk]
    constructor
    · intro heq
      obtain ⟨hfront, hrest⟩ := List.append_inj heq (by rw [List.length_set])
      rw [set_eq_self_iff hk, hslot] at hfront
      exact .inr ⟨(List.cons.inj hrest).1, fun _ => hfront⟩
    · rintro (hz | ⟨hx, hfront⟩)
      · exact absurd hz hzero
      · rw [(set_eq_self_iff hk).2 (hslot.trans (hfront (Nat.not_lt.1 hlow))), hx]

variable {v v' : Iovs β}

/-- **What an insert that returns 0 does to the list**, in a window anywhere in the array. -/
theorem iovsInsert_segs (h : v.Wf) {ptr : Option β} {len pos : Nat} (hcall : iovsInsert v ptr len pos = .ok (.ok, v')) :
    v'.Wf ∧ v'.cap = v.cap ∧ v'.iolen = sizeT (v.iolen + len) ∧
      (v'.segs = placed v.segs ⟨ptr, len⟩ pos ↔ v.Placing ⟨ptr, len⟩ pos) := by
  have hlen := h.segs_length
  have hroom : ¬ v.low + v.len + 1 > v.cap := by
    intro hfull
    rw [iovsInsert_full hfull] at hcall
    cases hcall
  by_cases hbehind : pos > v.len
  · -- behind the end the insert is an append
    rw [iovsInsert_behind hroom ptr len hbehind] at hcall
    obtain ⟨w, hrun, hw, hsegs, -, -, hcap, hio⟩ := iovsPush_tail h (by omega) ptr len
    rw [hrun] at hcall
    cases hcall
    refine ⟨hw, hcap, hio, iff_of_true ?_ (.inl hbehind)⟩
    rw [hsegs, placed, if_neg (by omega)]
  obtain ⟨old, w, hold, hrun, hw, hsegs, -, -, hcap, hio⟩ := iovsInsert_ok h (by omega) ptr len (Nat.not_lt.1 hbehind)
  rw [hrun] at hcall
  cases hcall
  refine ⟨hw, hcap, hio, ?_⟩
  have hplaced : placed v.segs ⟨ptr, len⟩ pos = v.segs.take pos ++ ⟨ptr, len⟩ :: v.segs.drop pos := by
    rw [placed, if_pos (by omega), List.append_assoc, List.singleton_append]
  have hat : v.iovs[v.low + pos]? = some ⟨ptr, len⟩ ↔ old = ⟨ptr, len⟩ := by rw [hold, Option.some.injEq]
  rw [hsegs, hplaced, written_eq_iff (by omega), Iovs.Placing, hat, or_iff_right hbehind]
  refine or_congr_right' fun hzero => and_congr_right fun _ => forall_congr' fun hle => ?_
  rw [Iovs.segs_getElem? (by omega), Nat.add_sub_cancel' hle]

/-- With a slot behind the window an insert is not refused. -/
theorem iovsInsert_room (h : v.Wf) (hroom : v.low + v.len < v.cap) {ptr : Option β} {len pos : Nat} {rv : Rv}
    (hcall : iovsInsert v ptr len pos = .ok (rv, v')) : rv = .ok := by
  by_cases hbehind : pos > v.len
  · obtain ⟨w, hrun, -⟩ := iovsPush_tail h hroom ptr len
    rw [iovsInsert_behind (by omega) ptr len hbehind, hrun] at hcall
    cases hcall
    rfl
  · obtain ⟨old, w, -, hrun, -⟩ := iovsInsert_ok h hroom ptr len (Nat.not_lt.1 hbehind)
    rw [hrun] at hcall
    cases hcall
    rfl

/-! ## Runs -/

/-- An insert that is not refused finds its segment's place; the other calls fit. -/
def IovsUse.Placed (f : ι → Iovs β) : IovsUse ι β → Prop
  | .op call => call.Fits f
  | .insert i ptr len pos => (f i).low + (f i).len < (f i).cap → (f i).Placing ⟨ptr, len⟩ pos

def PlacedStep [DecidableEq ι] (f : ι → Iovs β) (c : IovsUse ι β × IovsAns β) (f' : ι → Iovs β) : Prop :=
  c.1.Placed f ∧ UseStep f c f'

variable [DecidableEq ι] {f f' : ι → Iovs β}

/-- **One such call keeps every iovs standing for a list.** -/
theorem placedStep_stands {c : IovsUse ι β × IovsAns β} {ls : ι → List (Iovec β)} (h : IovsStands f ls)
    (hs : PlacedStep f c f') : ∃ ls', IovsStands f' ls' := by
  obtain ⟨u, ans⟩ := c
  obtain ⟨hplaced, hcall⟩ := hs
  cases u with
  | op op =>
    obtain ⟨ls', -, hls'⟩ := iovsStep_refines (c := (op, ans)) h ⟨hplaced, hcall⟩
    exact ⟨ls', hls'⟩
  | insert i ptr len pos =>
    obtain ⟨⟨rv, v⟩, hins, hcall⟩ := bind_eq_ok.1 hcall
    cases hcall
    by_cases hfull : (f i).low + (f i).len + 1 > (f i).cap
    · rw [iovsInsert_full hfull] at hins
      cases hins
      rw [Function.update_eq_self]
      exact ⟨ls, h⟩
    have hroom : (f i).low + (f i).len < (f i).cap := by omega
    have hrv : rv = .ok := iovsInsert_room (h i).toWf hroom hins
    subst hrv
    obtain ⟨hw, hcap, hio, hsegs⟩ := iovsInsert_segs (h i).toWf hins
    refine ⟨update ls i (placed (f i).segs ⟨ptr, len⟩ pos), h.update ⟨hw, hcap.trans (h i).cap_eq,
      hsegs.2 (hplaced hroom), ?_⟩⟩
    rw [hio, totalLen_placed, (h i).iolen_eq, sizeT_sizeT_add, (h i).segs_eq, Nat.cast_add]

/-- Head pushes to a new iovs bring the window to the front of the array. -/
theorem heads_run (mem : ι → Nat → Iovec β) (i : ι) (ptr : Option β) (len : Nat) : ∀ n ≤ 10, ∃ f : ι → Iovs β,
    Run PlacedStep (fun i => iovsAlloc (mem i)) (List.replicate n (.op (.push i ptr len .head), ⟨.ok, none⟩)) f ∧
      (f i).low + n = 10 ∧ (f i).segs = List.replicate n ⟨ptr, len⟩ ∧ (f i).iolen = sizeT ((n * len : Nat) : Int)
  | 0, _ => ⟨_, .refl, rfl, iovsAlloc_segs (mem i), by rw [Nat.zero_mul]; rfl⟩
  | n + 1, h => by
    obtain ⟨f, hrun, hlow, hsegs, hio⟩ := heads_run mem i ptr len n (Nat.le_of_succ_le h)
    have hf := run_inArrays (hrun.mono fun _ _ _ hs => hs.2) i
    obtain ⟨v, hpush, -, hsegs', hlow', -, -, hio'⟩ := iovsPush_head hf.1 (show 0 < (f i).low by omega) ptr len
    refine ⟨update f i v, ?_, by rw [update_self]; omega, ?_, ?_⟩
    · rw [List.replicate_succ']
      exact hrun.snoc ⟨trivial, by rw [UseStep, iovsUse, iovsCall, hpush]; rfl⟩
    · rw [update_self, hsegs', hsegs]
      rfl
    · rw [update_self, hio', hio, sizeT_sizeT_add, Nat.succ_mul, Nat.cast_add]

/-- **Inserting into an iovs inserts into the list** exactly when `Placing` holds: after any calls that return, for the
list and its length; and in a run whose inserts all found their place, for the stream as well. -/
theorem insert_exact {mem : ι → Nat → Iovec β} {calls : List (IovsUse ι β × IovsAns β)}
    (hrun : Run UseStep (fun i => iovsAlloc (mem i)) calls f) {i : ι} {ptr : Option β} {len pos : Nat}
    (hcall : iovsInsert (f i) ptr len pos = .ok (.ok, v')) :
    (v'.iolen = sizeT ((f i).iolen + len) ∧
      (v'.segs = placed (f i).segs ⟨ptr, len⟩ pos ↔ (f i).Placing ⟨ptr, len⟩ pos)) ∧
    (Run PlacedStep (fun i => iovsAlloc (mem i)) calls f →
      ((f i).Inserted ⟨ptr, len⟩ pos v' ↔ (f i).Placing ⟨ptr, len⟩ pos)) := by
  obtain ⟨hw, hcap, hio, hsegs⟩ := iovsInsert_segs (run_inArrays hrun i).1 hcall
  refine ⟨⟨hio, hsegs⟩, fun hplaced => ⟨fun hins => hsegs.1 hins.segs, fun hat => ⟨hsegs.2 hat, hio, fun deref ha hread => ?_⟩⟩⟩
  obtain ⟨ls, hls⟩ : ∃ ls, IovsStands f ls :=
    Run.invariant (I := fun f => ∃ ls, IovsStands f ls) (fun _ _ _ ⟨_, h⟩ hs => placedStep_stands h hs) hplaced
      ⟨_, iovsAlloc_stands mem⟩
  have hstands : v'.Stands (placed (f i).segs ⟨ptr, len⟩ pos) := by
    refine ⟨hw, hcap.trans (hls i).cap_eq, hsegs.2 hat, ?_⟩
    rw [hio, totalLen_placed, (hls i).iolen_eq, sizeT_sizeT_add, (hls i).segs_eq, Nat.cast_add]
  exact (iovs2stream_concat hstands ha hread).1

/-- Ten head pushes, so that the window starts where the array does, and a segment inserted at place 1. -/
theorem insert_exact_front : ∃ (f : Unit → Iovs Bytes) (v' : Iovs Bytes),
    Run PlacedStep (fun _ => iovsAlloc fun k => ⟨some [238], k⟩) (List.replicate 10 (.op (.push () (some [97]) 1 .head), ⟨.ok, none⟩)) f ∧
      iovsInsert (f ()) (some [98]) 1 1 = .ok (.ok, v') ∧
      iovs2stream id v' = .ok (.ok, [97, 98, 97, 97, 97, 97, 97, 97, 97, 97, 97], 11) := by
  obtain ⟨f, hrun, hlow, hsegs, hio⟩ := heads_run (fun _ k => ⟨some [238], k⟩) () (some ([97] : Bytes)) 1 10 (Nat.le_refl _)
  have hrun' : Run UseStep (fun _ => iovsAlloc fun k => ⟨some [238], k⟩) _ f := hrun.mono fun _ _ _ hs => hs.2
  have hf := run_inArrays hrun' ()
  have hlen : (f ()).len = 10 := by rw [← hf.1.segs_length, hsegs, List.length_replicate]
  obtain ⟨old, v', -, hcall, -⟩ := iovsInsert_ok hf.1 (show (f ()).low + (f ()).len < (f ()).cap by
    rw [hf.2, nftpSize]; omega) (some [98]) 1 (show 1 ≤ (f ()).len by omega)
  obtain ⟨⟨hio', -⟩, hexact⟩ := insert_exact hrun' hcall
  have hins := (hexact hrun).2 (.inr (.inl (by omega)))
  have hstream := hins.stream id (by rw [hsegs]; simp [placed, Iovec.Addressed])
    (by rw [hsegs]; simp [placed, Iovec.Readable])
  rw [hio', hio, hsegs] at hstream
  exact ⟨f, v', hrun, hcall, hstream⟩

/-- One append, so that the window starts at slot 10, and a segment inserted in front of it: it goes to slot 0, and the list
has the first segment twice. -/
theorem insert_misplaced : ∃ (f : Unit → Iovs Bytes) (v' : Iovs Bytes),
    Run PlacedStep (fun _ => iovsAlloc fun k => ⟨some [238], k⟩) [(.op (.append () (some [97]) 1), ⟨.ok, none⟩)] f ∧
      iovsInsert (f ()) (some [98]) 1 0 = .ok (.ok, v') ∧ v'.segs = [⟨some [97], 1⟩, ⟨some [97], 1⟩] ∧
      iovs2stream id v' = .ok (.ok, [97, 97], 2) ∧ ¬ (f ()).Inserted ⟨some [98], 1⟩ 0 v' := by
  refine ⟨_, _, Run.single ⟨(by decide : 10 + 0 ≠ 32), rfl⟩, rfl, rfl, rfl, fun hins => ?_⟩
  have hsegs := hins.segs
  revert hsegs
  decide

end Nftp
