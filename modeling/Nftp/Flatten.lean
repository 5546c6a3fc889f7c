import Nftp.Codec
import Nftp.Lib.Run
/-!
# Flatten — flattening an iovs is concatenation

A family of iovs under push, append, pop and cat stands for a family of plain lists of segments under the same calls
(`IovsStands`).  A head push and a cat may be refused for want of room, which the lists do not know of: `iovsCode` is the
code of a call, and a call refused changes nothing.  A tail push whose slot is `cap`, one past the array, is not among the
calls.

The lengths are added up in a `size_t`, whatever they are.  The stream takes them for lengths of memory, and there the sum
does not wrap: an iovs has at most 32 segments, and no memory is as large as 2^59 bytes (`Iovec.Addressed`).
-/
namespace Nftp

open Lib
open Function (update update_self)

variable {ι β : Type}

inductive IovsOp (ι β : Type)
  | push (i : ι) (ptr : Option β) (len : Nat) (flag : End)
  | append (i : ι) (ptr : Option β) (len : Nat)
  | pop (i : ι) (flag : End)
  | cat (dest src : ι)

/-- What a call answers: its code, and the segment in `*ptrp` and `*lenp`. -/
structure IovsAns (β : Type) where
  rv : Rv
  seg : Option (Iovec β)
  deriving DecidableEq

def iovsCall [DecidableEq ι] (f : ι → Iovs β) : IovsOp ι β → Except Fault (IovsAns β × (ι → Iovs β))
  | .push i ptr len flag => do
    let (rv, v) ← iovsPush (f i) ptr len flag
    return (⟨rv, none⟩, update f i v)
  | .append i ptr len => do
    let (rv, v) ← iovsAppend (f i) ptr len
    return (⟨rv, none⟩, update f i v)
  | .pop i flag => do
    let (rv, seg, v) ← iovsPop (f i) flag
    return (⟨rv, seg⟩, update f i v)
  | .cat dest src => do
    let (rv, v) ← iovsCat (f dest) (f src)
    return (⟨rv, none⟩, update f dest v)

/-- The iovs of a cat are two, and no tail write lands at `cap` or beyond. -/
def IovsOp.Fits (f : ι → Iovs β) : IovsOp ι β → Prop
  | .push i _ _ .tail => (f i).low + (f i).len ≠ (f i).cap
  | .append i _ _ => (f i).low + (f i).len ≠ (f i).cap
  | .cat dest src => dest ≠ src
  | _ => True

/-! ## The lists -/

/-- The same call on lists, with the segment a pop takes. -/
def listsCall [DecidableEq ι] (ls : ι → List (Iovec β)) : IovsOp ι β → Option (Iovec β) × (ι → List (Iovec β))
  | .push i ptr len .head => (none, update ls i (⟨ptr, len⟩ :: ls i))
  | .push i ptr len .tail => (none, update ls i (ls i ++ [⟨ptr, len⟩]))
  | .push _ _ _ .other => (none, ls)
  | .append i ptr len => (none, update ls i (ls i ++ [⟨ptr, len⟩]))
  | .pop i .head => ((ls i).head?, update ls i (ls i).tail)
  | .pop i .tail => ((ls i).getLast?, update ls i (ls i).dropLast)
  | .pop _ .other => (none, ls)
  | .cat dest src => (none, update ls dest (ls dest ++ ls src))

/-- The code of a call: an iovs with nothing in front of its window refuses a head push, a cat must fit behind it. -/
def iovsCode (f : ι → Iovs β) : IovsOp ι β → Rv
  | .push i _ _ .head => if (f i).low = 0 then .overflow else .ok
  | .push _ _ _ .tail => .ok
  | .push _ _ _ .other => .flag
  | .append _ _ _ => .ok
  | .pop i flag => if (f i).len = 0 then .empty else if flag = .other then .flag else .ok
  | .cat dest src => if (f dest).low + (f dest).len + (f src).len > (f dest).cap then .overflow else .ok

/-- The sum of the lengths of the segments. -/
def totalLen (l : List (Iovec β)) : Nat := (l.map Iovec.len).sum

structure Iovs.Stands (v : Iovs β) (l : List (Iovec β)) : Prop extends v.Wf where
  cap_eq : v.cap = nftpSize
  segs_eq : v.segs = l
  iolen_eq : v.iolen = sizeT (totalLen l)

def IovsStands (f : ι → Iovs β) (ls : ι → List (Iovec β)) : Prop := ∀ i, (f i).Stands (ls i)

theorem iovsAlloc_stands (mem : ι → Nat → Iovec β) : IovsStands (fun i => iovsAlloc (mem i)) fun _ => [] :=
  fun i => ⟨iovsAlloc_wf (mem i), rfl, iovsAlloc_segs (mem i), rfl⟩

@[simp] theorem totalLen_cons (x : Iovec β) (l : List (Iovec β)) : totalLen (x :: l) = x.len + totalLen l := by
  simp [totalLen]

@[simp] theorem totalLen_append (l l' : List (Iovec β)) : totalLen (l ++ l') = totalLen l + totalLen l' := by
  simp [totalLen]

theorem totalLen_le {l : List (Iovec β)} {b : Nat} (h : ∀ x ∈ l, x.len < b) : totalLen l + l.length ≤ l.length * b := by
  induction l with
  | nil => simp [totalLen]
  | cons x l ih =>
    have hx := h x (List.mem_cons_self ..)
    have hl := ih fun y hy => h y (List.mem_cons_of_mem _ hy)
    rw [totalLen_cons, List.length_cons, Nat.succ_mul]
    omega

theorem Iovs.Stands.len_eq {v : Iovs β} {l : List (Iovec β)} (h : v.Stands l) : v.len = l.length := by
  rw [← h.segs_eq, h.segs_length]

/-- At most 32 lengths of memory add up without a wrap. -/
theorem Iovs.Stands.iolen_sum {v : Iovs β} {l : List (Iovec β)} (h : v.Stands l) (hl : ∀ x ∈ l, x.len < 2 ^ 59) :
    v.iolen = totalLen l ∧ totalLen l < 2 ^ 64 := by
  have hsum := totalLen_le hl
  have hw := h.room
  rw [h.cap_eq, h.len_eq, nftpSize] at hw
  have hlt : totalLen l < 2 ^ 64 := by omega
  exact ⟨by rw [h.iolen_eq, sizeT_natCast hlt], hlt⟩

variable [DecidableEq ι] {f f' : ι → Iovs β} {ls ls' : ι → List (Iovec β)}

theorem IovsStands.update (h : IovsStands f ls) {i : ι} {v : Iovs β} {l : List (Iovec β)} (hv : v.Stands l) :
    IovsStands (update f i v) (update ls i l) := by
  intro j
  by_cases hj : j = i
  · rw [hj, Function.update_self, Function.update_self]
    exact hv
  · rw [Function.update_of_ne hj, Function.update_of_ne hj]
    exact h j

/-! ## Each call refines its list call -/

theorem iovsPush_refines {v : Iovs β} {l : List (Iovec β)} (h : v.Stands l) (hr : v.low + v.len ≠ v.cap) (ptr : Option β)
    (len : Nat) : ∃ v', iovsPush v ptr len .tail = .ok (.ok, v') ∧ v'.Stands (l ++ [⟨ptr, len⟩]) := by
  obtain ⟨v', hrun, hw, hsegs, -, -, hcap, hio⟩ := iovsPush_tail h.toWf (Nat.lt_of_le_of_ne h.room hr) ptr len
  refine ⟨v', hrun, hw, hcap.trans h.cap_eq, by rw [hsegs, h.segs_eq], ?_⟩
  rw [hio, h.iolen_eq, sizeT_sizeT_add, totalLen_append, Nat.cast_add]
  rfl

theorem iovsPop_refines {v : Iovs β} {l : List (Iovec β)} (h : v.Stands l) (hne : v.len ≠ 0) :
    (∃ v', iovsPop v .head = .ok (.ok, l.head?, v') ∧ v'.Stands l.tail) ∧
    ∃ v', iovsPop v .tail = .ok (.ok, l.getLast?, v') ∧ v'.Stands l.dropLast := by
  have hpos : 0 < v.len := Nat.pos_of_ne_zero hne
  constructor
  · obtain ⟨x, v', hrun, hw, hsegs, -, hcap, hio⟩ := iovsPop_head h.toWf hpos
    rw [h.segs_eq] at hsegs
    rw [h.iolen_eq, hsegs, sizeT_sizeT_sub, totalLen_cons, Nat.cast_add, add_sub_cancel_left] at hio
    refine ⟨v', ?_, hw, hcap.trans h.cap_eq, ?_, ?_⟩
    · rw [hrun, hsegs, List.head?_cons]
    · rw [hsegs, List.tail_cons]
    · rw [hio, hsegs, List.tail_cons]
  · obtain ⟨x, v', hrun, hw, hsegs, -, hcap, hio⟩ := iovsPop_tail h.toWf hpos
    rw [h.segs_eq] at hsegs
    have hlast : totalLen (v'.segs ++ [x]) = totalLen v'.segs + x.len := totalLen_append v'.segs [x]
    rw [h.iolen_eq, hsegs, sizeT_sizeT_sub, hlast, Nat.cast_add, add_sub_cancel_right] at hio
    refine ⟨v', ?_, hw, hcap.trans h.cap_eq, ?_, ?_⟩
    · rw [hrun, hsegs, List.getLast?_concat]
    · rw [hsegs, List.dropLast_concat]
    · rw [hio, hsegs, List.dropLast_concat]

/-- The call returns with the code `iovsCode`; refused it changes nothing, and else it does to the lists what it says. -/
def IovsOp.Answered (f : ι → Iovs β) (ls : ι → List (Iovec β)) (op : IovsOp ι β) : Prop :=
  ∃ ans f', iovsCall f op = .ok (ans, f') ∧ ans.rv = iovsCode f op ∧
    (ans.rv ≠ .ok → ans.seg = none ∧ f' = f) ∧
    (ans.rv = .ok → ans.seg = (listsCall ls op).1 ∧ IovsStands f' (listsCall ls op).2)

theorem answered_refused {op : IovsOp ι β} {i : ι} {rv : Rv} (hrun : iovsCall f op = .ok (⟨rv, none⟩, update f i (f i)))
    (hcode : iovsCode f op = rv) (hrv : rv ≠ .ok) : op.Answered f ls :=
  ⟨_, _, hrun, hcode.symm, fun _ => ⟨rfl, Function.update_eq_self i f⟩, fun hok => absurd hok hrv⟩

theorem answered_done {op : IovsOp ι β} (hrun : iovsCall f op = .ok (⟨.ok, (listsCall ls op).1⟩, f'))
    (hcode : iovsCode f op = .ok) (hs : IovsStands f' (listsCall ls op).2) : op.Answered f ls :=
  ⟨_, _, hrun, hcode.symm, fun hrv => absurd rfl hrv, fun _ => ⟨rfl, hs⟩⟩

/-- **Every call that fits is answered.** -/
theorem iovsCall_refines (h : IovsStands f ls) {op : IovsOp ι β} (hfit : op.Fits f) : op.Answered f ls := by
  cases op with
  | push i ptr len flag =>
    cases flag with
    | head =>
      by_cases hlow : (f i).low = 0
      · refine answered_refused (by rw [iovsCall, iovsPush_refused hlow]; rfl) ?_ (by decide)
        rw [iovsCode, if_pos hlow]
      · obtain ⟨v', hrun, hw, hsegs, -, -, hcap, hio⟩ := iovsPush_head (h i).toWf (Nat.pos_of_ne_zero hlow) ptr len
        have hs : v'.Stands (⟨ptr, len⟩ :: ls i) := by
          refine ⟨hw, hcap.trans (h i).cap_eq, by rw [hsegs, (h i).segs_eq], ?_⟩
          rw [hio, (h i).iolen_eq, sizeT_sizeT_add, totalLen_cons, Nat.cast_add, add_comm]
        refine answered_done (by rw [iovsCall, hrun]; rfl) ?_ (h.update hs)
        rw [iovsCode, if_neg hlow]
    | tail =>
      obtain ⟨v', hrun, hs⟩ := iovsPush_refines (h i) hfit ptr len
      exact answered_done (by rw [iovsCall, hrun]; rfl) rfl (h.update hs)
    | other => exact answered_refused (i := i) rfl rfl (by decide)
  | append i ptr len =>
    obtain ⟨v', hrun, hs⟩ := iovsPush_refines (h i) hfit ptr len
    exact answered_done (by rw [iovsCall, iovsAppend, hrun]; rfl) rfl (h.update hs)
  | pop i flag =>
    by_cases hempty : (f i).len = 0
    · refine answered_refused (by rw [iovsCall, iovsPop_empty hempty]; rfl) ?_ (by decide)
      rw [iovsCode, if_pos hempty]
    have hcode : iovsCode f (.pop i flag) = if flag = .other then .flag else .ok := by rw [iovsCode, if_neg hempty]
    obtain ⟨⟨v₁, hhead, hs₁⟩, v₂, htail, hs₂⟩ := iovsPop_refines (h i) hempty
    cases flag with
    | head => exact answered_done (by rw [iovsCall, hhead]; rfl) hcode (h.update hs₁)
    | tail => exact answered_done (by rw [iovsCall, htail]; rfl) hcode (h.update hs₂)
    | other => exact answered_refused (by rw [iovsCall, iovsPop_flag hempty]; rfl) hcode (by decide)
  | cat dest src =>
    by_cases hfull : (f dest).low + (f dest).len + (f src).len > (f dest).cap
    · refine answered_refused (by rw [iovsCall, iovsCat_full hfull]; rfl) ?_ (by decide)
      rw [iovsCode, if_pos hfull]
    · obtain ⟨v', hrun, hw, hsegs, -, hcap, hio⟩ := iovsCat_ok (h dest).toWf (h src).toWf (Nat.not_lt.1 hfull)
      have hs : v'.Stands (ls dest ++ ls src) := by
        refine ⟨hw, hcap.trans (h dest).cap_eq, ?_, ?_⟩
        · rw [hsegs, (h dest).segs_eq, (h src).segs_eq]
        · rw [hio, (h dest).iolen_eq, (h src).iolen_eq, sizeT_sizeT_add, sizeT_add_sizeT, totalLen_append, Nat.cast_add]
      refine answered_done (by rw [iovsCall, hrun]; rfl) ?_ (h.update hs)
      rw [iovsCode, if_neg hfull]

theorem iovsCall_cat {dest src : ι} {ans : IovsAns β} (h : iovsCall f (.cat dest src) = .ok (ans, f')) {i : ι}
    (hi : i ≠ dest) : f' i = f i := by
  obtain ⟨⟨rv, v⟩, -, h⟩ := bind_eq_ok.1 h
  cases h
  exact Function.update_of_ne hi _ _

/-! ## Flattening -/

/-- The memory behind a segment is there. -/
def Iovec.Readable (deref : β → Bytes) (x : Iovec β) : Prop :=
  match x.base with
  | some b => x.len ≤ (deref b).length
  | none => x.len = 0

/-- The memory behind a segment is in an address space, where addresses have less than 59 bits. -/
def Iovec.Addressed (deref : β → Bytes) (x : Iovec β) : Prop := ∀ b, x.base = some b → (deref b).length < 2 ^ 59

theorem Iovec.Readable.len_lt {deref : β → Bytes} {x : Iovec β} (h : x.Readable deref) (ha : x.Addressed deref) :
    x.len < 2 ^ 59 := by
  obtain ⟨base, len⟩ := x
  cases base with
  | none =>
    have hlen : len = 0 := h
    simp only
    omega
  | some b =>
    have hlen : len ≤ (deref b).length := h
    exact Nat.lt_of_le_of_lt hlen (ha b rfl)

/-- The bytes of a segment. -/
def Iovec.bytes (deref : β → Bytes) (x : Iovec β) : Bytes :=
  match x.base with
  | some b => (deref b).take x.len
  | none => []

/-- The segments one after the other. -/
def concat (deref : β → Bytes) (l : List (Iovec β)) : Bytes := l.flatMap (Iovec.bytes deref)

theorem copySegment_ok {deref : β → Bytes} {x : Iovec β} (h : x.Readable deref) :
    copySegment deref x = .ok (x.bytes deref) ∧ (x.bytes deref).length = x.len := by
  obtain ⟨base, len⟩ := x
  cases base with
  | none =>
    have hlen : len = 0 := h
    simp [copySegment, Iovec.bytes, hlen]
  | some b =>
    have hlen : len ≤ (deref b).length := h
    simp [copySegment, Iovec.bytes, slice, hlen]

/-- What was copied was there. -/
theorem copySegment_readable {deref : β → Bytes} {x : Iovec β} {bs : Bytes} (h : copySegment deref x = .ok bs) :
    x.Readable deref := by
  obtain ⟨base, len⟩ := x
  unfold copySegment at h
  cases base with
  | none =>
    simp only at h
    split at h
    · assumption
    · cases h
  | some b =>
    obtain ⟨hl, -⟩ := slice_eq_ok h
    rw [Nat.zero_add] at hl
    exact hl

theorem copySegment_length {deref : β → Bytes} {x : Iovec β} {bs : Bytes} (h : copySegment deref x = .ok bs) :
    bs.length = x.len := by
  obtain ⟨hcopy, hlen⟩ := copySegment_ok (copySegment_readable h)
  rw [hcopy] at h
  cases h
  exact hlen

theorem copySegment_error {deref : β → Bytes} {x : Iovec β} : copySegment deref x ≠ .error .overflow := by
  intro h
  unfold copySegment slice at h
  split at h
  · split at h <;> cases h
  · split at h <;> cases h

theorem flatten_length {deref : β → Bytes} : ∀ {l : List (Iovec β)} {str : Bytes}, flatten deref l = .ok str →
    str.length = totalLen l
  | [], _, h => by cases h; rfl
  | x :: l, _, h => by
    obtain ⟨bs, hx, h⟩ := bind_eq_ok.1 h
    obtain ⟨rest, hl, h⟩ := bind_eq_ok.1 h
    cases h
    rw [List.length_append, copySegment_length hx, flatten_length hl, totalLen_cons]

theorem flatten_ok_readable {deref : β → Bytes} : ∀ {l : List (Iovec β)} {str : Bytes}, flatten deref l = .ok str →
    ∀ x ∈ l, x.Readable deref
  | [], _, _ => nofun
  | x :: l, _, h => by
    obtain ⟨bs, hx, h⟩ := bind_eq_ok.1 h
    obtain ⟨rest, hl, -⟩ := bind_eq_ok.1 h
    rintro y (_ | ⟨_, hy⟩)
    · exact copySegment_readable hx
    · exact flatten_ok_readable hl y hy

theorem flatten_error {deref : β → Bytes} : ∀ {l : List (Iovec β)}, flatten deref l ≠ .error .overflow
  | [] => fun h => by cases h
  | x :: l => by
    intro h
    rcases bind_eq_error.1 h with hx | ⟨bs, -, h⟩
    · exact copySegment_error hx
    rcases bind_eq_error.1 h with hl | ⟨rest, -, h⟩
    · exact flatten_error hl
    · cases h

theorem flatten_readable {deref : β → Bytes} : ∀ {l : List (Iovec β)}, (∀ x ∈ l, x.Readable deref) →
    flatten deref l = .ok (concat deref l)
  | [], _ => rfl
  | x :: l, h => by
    have hl := flatten_readable fun y hy => h y (List.mem_cons_of_mem _ hy)
    rw [flatten, (copySegment_ok (h x (List.mem_cons_self ..))).1, bind_ok, hl, bind_ok]
    rfl

/-- **The stream is never longer than what was allocated for it.** -/
theorem iovs2stream_fits {v : Iovs β} {l : List (Iovec β)} (h : v.Stands l) {deref : β → Bytes}
    (ha : ∀ x ∈ l, x.Addressed deref) : iovs2stream deref v ≠ .error .overflow := by
  have hs := h.slots
  have hw := h.room
  have hsegs := h.segs_eq
  unfold Iovs.segs at hsegs
  rw [iovs2stream, copySegments_eq deref v v.len v.low (by omega), hsegs]
  intro hover
  rcases bind_eq_error.1 hover with hf | ⟨str, hf, hover⟩
  · exact flatten_error hf
  · obtain ⟨hio, -⟩ := h.iolen_sum fun x hx => (flatten_ok_readable hf x hx).len_lt (ha x hx)
    rw [if_neg (by rw [flatten_length hf, hio]; omega)] at hover
    cases hover

theorem iovs2stream_concat {v : Iovs β} {l : List (Iovec β)} (h : v.Stands l) {deref : β → Bytes}
    (ha : ∀ x ∈ l, x.Addressed deref) (hread : ∀ x ∈ l, x.Readable deref) :
    iovs2stream deref v = .ok (.ok, concat deref l, v.iolen) ∧ (concat deref l).length = v.iolen := by
  have hflat := flatten_readable hread
  obtain ⟨hio, -⟩ := h.iolen_sum fun x hx => (hread x hx).len_lt (ha x hx)
  have hlen : (concat deref l).length = v.iolen := by rw [hio, flatten_length hflat]
  exact ⟨iovs2stream_eq h.toWf (by rw [h.segs_eq, hflat]) hlen, hlen⟩

/-- **What is decoded is the bytes**, however they are cut into segments. -/
theorem decodeIovs_concat {v : Iovs β} {l : List (Iovec β)} (h : v.Stands l) {deref : β → Bytes}
    (ha : ∀ x ∈ l, x.Addressed deref) (hread : ∀ x ∈ l, x.Readable deref) (p : Packet) :
    decodeIovs p deref v = decode p (concat deref l) (concat deref l).length := by
  obtain ⟨hrun, hlen⟩ := iovs2stream_concat h ha hread
  rw [decodeIovs, hrun, bind_ok, hlen]
  rfl

/-! ## Runs -/

/-- A call that fits, with its answer. -/
def IovsStep (f : ι → Iovs β) (c : IovsOp ι β × IovsAns β) (f' : ι → Iovs β) : Prop :=
  c.1.Fits f ∧ iovsCall f c.1 = .ok (c.2, f')

/-- A call that succeeded does to the lists what it says; one that failed, nothing. -/
def ListsStep (ls : ι → List (Iovec β)) (c : IovsOp ι β × IovsAns β) (ls' : ι → List (Iovec β)) : Prop :=
  if c.2.rv = .ok then listsCall ls c.1 = (c.2.seg, ls') else c.2.seg = none ∧ ls' = ls

theorem iovsStep_refines {c : IovsOp ι β × IovsAns β} (h : IovsStands f ls) (hs : IovsStep f c f') :
    ∃ ls', ListsStep ls c ls' ∧ IovsStands f' ls' := by
  obtain ⟨op, ans⟩ := c
  obtain ⟨hfit, hcall⟩ := hs
  obtain ⟨ans', f₁, hrun, -, hfail, hok⟩ := iovsCall_refines h hfit
  simp only at hcall
  rw [hrun] at hcall
  cases hcall
  unfold ListsStep
  simp only
  by_cases hrv : ans.rv = .ok
  · obtain ⟨hseg, hs⟩ := hok hrv
    refine ⟨_, ?_, hs⟩
    rw [if_pos hrv, hseg]
  · obtain ⟨hseg, rfl⟩ := hfail hrv
    refine ⟨ls, ?_, h⟩
    rw [if_neg hrv]
    exact ⟨hseg, rfl⟩

/-- **Flattening is concatenation, however the iovs was built**: whatever calls were made on a family of iovs, each stands
for the list the same calls give, its length in bytes the sum of the list's.  Its stream is the concatenation of that list
and just as long as was allocated, it decodes as those bytes do, and every next call that fits is answered; a cat adds the
segments of `src`, touching nothing but `dest`, or is refused and touches nothing. -/
theorem iovs_refines {mem : ι → Nat → Iovec β} {calls : List (IovsOp ι β × IovsAns β)}
    (hrun : Run IovsStep (fun i => iovsAlloc (mem i)) calls f) :
    ∃ ls, Run ListsStep (fun _ => []) calls ls ∧
      (∀ i, (f i).segs = ls i ∧ (f i).len = (ls i).length ∧ (f i).iolen = sizeT (totalLen (ls i)) ∧
        ((∀ x ∈ ls i, x.len < 2 ^ 59) → (f i).iolen = totalLen (ls i) ∧ totalLen (ls i) < 2 ^ 64)) ∧
      (∀ i (deref : β → Bytes), (∀ x ∈ ls i, x.Addressed deref) → iovs2stream deref (f i) ≠ .error .overflow ∧
        ((∀ x ∈ ls i, x.Readable deref) →
          iovs2stream deref (f i) = .ok (.ok, concat deref (ls i), (f i).iolen) ∧
          (concat deref (ls i)).length = (f i).iolen ∧
          ∀ p, decodeIovs p deref (f i) = decode p (concat deref (ls i)) (concat deref (ls i)).length)) ∧
      (∀ op, op.Fits f → ∃ ans f', iovsCall f op = .ok (ans, f') ∧ ans.rv = iovsCode f op ∧ (ans.rv ≠ .ok → f' = f)) ∧
      ∀ dest src, dest ≠ src → ∃ ans f', iovsCall f (.cat dest src) = .ok (ans, f') ∧ (∀ i, i ≠ dest → f' i = f i) ∧
        ((f dest).low + (ls dest).length + (ls src).length ≤ (f dest).cap →
          ans.rv = .ok ∧ (f' dest).segs = ls dest ++ ls src) ∧
        (¬ (f dest).low + (ls dest).length + (ls src).length ≤ (f dest).cap → ans.rv = .overflow ∧ f' = f) := by
  have hstep : ∀ (f : ι → Iovs β) c f' ls, IovsStands f ls → IovsStep f c f' → ∃ ls', ListsStep ls c ls' ∧ IovsStands f' ls' :=
    fun _ _ _ _ hs hc => iovsStep_refines hs hc
  obtain ⟨ls, hl, hs⟩ := hrun.simulate hstep (iovsAlloc_stands mem)
  refine ⟨ls, hl, fun i => ⟨(hs i).segs_eq, (hs i).len_eq, (hs i).iolen_eq, (hs i).iolen_sum⟩, fun i deref ha =>
    ⟨iovs2stream_fits (hs i) ha, fun hread => ?_⟩, fun op hfit => ?_, fun dest src hne => ?_⟩
  · obtain ⟨hstream, hlen⟩ := iovs2stream_concat (hs i) ha hread
    exact ⟨hstream, hlen, decodeIovs_concat (hs i) ha hread⟩
  · obtain ⟨ans, f', hcall, hrv, hfail, -⟩ := iovsCall_refines hs hfit
    exact ⟨ans, f', hcall, hrv, fun h => (hfail h).2⟩
  · have hfit : (IovsOp.cat dest src : IovsOp ι β).Fits f := hne
    obtain ⟨ans, f', hcall, hrv, hfail, hok⟩ := iovsCall_refines hs hfit
    simp only [iovsCode] at hrv
    rw [(hs dest).len_eq, (hs src).len_eq] at hrv
    refine ⟨ans, f', hcall, fun i => iovsCall_cat hcall, fun hroom => ?_, fun hroom => ?_⟩
    · rw [if_neg (Nat.not_lt.2 hroom)] at hrv
      have hs' := (hok hrv).2 dest
      simp only [listsCall, update_self] at hs'
      exact ⟨hrv, hs'.segs_eq⟩
    · rw [if_pos (Nat.not_le.1 hroom)] at hrv
      exact ⟨hrv, (hfail (by rw [hrv]; decide)).2⟩

/-- Two iovs filled from both ends and put together: the segments of two bytes, one of them read short, give four. -/
theorem iovs_refines_cat : ∃ f : Bool → Iovs Bytes, Run IovsStep (fun _ => iovsAlloc fun k => ⟨some [238], k⟩)
      [(.append true (some [98, 99]) 2, ⟨.ok, none⟩), (.push true (some [97]) 1 .head, ⟨.ok, none⟩),
        (.push false (some [100, 0]) 1 .head, ⟨.ok, none⟩), (.cat true false, ⟨.ok, none⟩)] f ∧
    iovs2stream id (f true) = .ok (.ok, [97, 98, 99, 100], 4) ∧ iovs2stream id (f false) = .ok (.ok, [100], 1) := by
  have hrun : ∃ f : Bool → Iovs Bytes, (f true).segs = [⟨some [97], 1⟩, ⟨some [98, 99], 2⟩, ⟨some [100, 0], 1⟩] ∧
      (f false).segs = [⟨some [100, 0], 1⟩] ∧ Run IovsStep (fun _ => iovsAlloc fun k => ⟨some [238], k⟩)
      [(.append true (some [98, 99]) 2, ⟨.ok, none⟩), (.push true (some [97]) 1 .head, ⟨.ok, none⟩),
        (.push false (some [100, 0]) 1 .head, ⟨.ok, none⟩), (.cat true false, ⟨.ok, none⟩)] f :=
    ⟨_, rfl, rfl, (Run.single ⟨by simp [IovsOp.Fits, iovsAlloc, nftpSize], rfl⟩).append ((Run.single ⟨trivial, rfl⟩).append
      ((Run.single ⟨trivial, rfl⟩).append (Run.single ⟨(by decide : true ≠ false), rfl⟩)))⟩
  obtain ⟨f, htrue, hfalse, hrun⟩ := hrun
  obtain ⟨ls, -, hls, hstream, -⟩ := iovs_refines hrun
  have hltrue := (hls true).1.symm.trans htrue
  have hlfalse := (hls false).1.symm.trans hfalse
  obtain ⟨hstrue, -⟩ := (hstream true id (by rw [hltrue]; simp [Iovec.Addressed])).2
    (by rw [hltrue]; simp [Iovec.Readable])
  obtain ⟨hsfalse, -⟩ := (hstream false id (by rw [hlfalse]; simp [Iovec.Addressed])).2
    (by rw [hlfalse]; simp [Iovec.Readable])
  rw [(hls true).2.2.1, hltrue] at hstrue
  rw [(hls false).2.2.1, hlfalse] at hsfalse
  exact ⟨f, hrun, hstrue, hsfalse⟩

end Nftp
