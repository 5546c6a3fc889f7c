import Nftp.Lib.Cursor
import Nftp.Deque
import Nftp.Slots
/-!
# Iter — `iter.c`, and the iterators of `vector.c` and `iovs.c`

An iterator holds a key, which is -1 in front of the list and the largest `int` behind it, and a pointer to the element
there.  `iterX` is `nftp_iter_x`; the schema an iterator was allocated for is the pair of functions it calls.
-/
namespace Nftp

open Lib

variable {ι α β ν : Type}

/-- `NFTP_HEAD` and `NFTP_TAIL`. -/
def nftpHead : Int := -1
def nftpTail : Int := 0x7FFFFFFF

/-- `key` and `val` of `struct _iter`; `none` is the NULL pointer. -/
structure Iter (ν : Type) where
  key : Int
  val : Option ν
  deriving DecidableEq, Repr

/-- `next` and `prev` of `struct _iter`, on its `matrix`. -/
structure Schema (ν : Type) where
  next : Iter ν → Except Fault (Iter ν)
  prev : Iter ν → Except Fault (Iter ν)

def vecIterNext (v : Vec α) (self : Iter α) : Except Fault (Iter α) :=
  if self.key = nftpTail then .ok { self with val := none }
  else do
    let (rv, val) ← vecGet v (self.key + 1)
    if rv ≠ .ok then .ok ⟨nftpTail, none⟩ else .ok ⟨self.key + 1, val⟩

/-- At `NFTP_TAIL` the key stays. -/
def vecIterPrev (v : Vec α) (self : Iter α) : Except Fault (Iter α) :=
  if self.key = nftpTail then .ok { self with val := none }
  else do
    let (rv, val) ← vecGet v (self.key - 1)
    if rv ≠ .ok then .ok ⟨nftpHead, none⟩ else .ok ⟨self.key - 1, val⟩

/-- `&iovs->iovs[iovs->low + key]`, a sum of `size_t`s: the slot pointed to. -/
def Iovs.slotPtr (v : Iovs β) (key : Int) : Except Fault Nat :=
  let i := (v.low + sizeT key) % 2 ^ 64
  if i ≤ v.iovs.length then .ok i else .error .overread

/-- At `NFTP_TAIL` the key is counted up all the same. -/
def iovsIterNext (v : Iovs β) (self : Iter Nat) : Except Fault (Iter Nat) :=
  if self.key = cInt v.len - 1 then .ok ⟨nftpTail, none⟩
  else if self.key = nftpTail then .error .intOverflow
  else do
    let val ← v.slotPtr (self.key + 1)
    return ⟨self.key + 1, some val⟩

/-- The key counts down to `NFTP_HEAD` with a pointer to a slot. -/
def iovsIterPrev (v : Iovs β) (self : Iter Nat) : Except Fault (Iter Nat) :=
  if self.key = nftpTail then do
    let key := cInt (sizeT ((v.len : Int) - 1))
    let val ← v.slotPtr key
    return ⟨key, some val⟩
  else if self.key = nftpHead then .ok { self with val := none }
  else do
    let val ← v.slotPtr (self.key - 1)
    return ⟨self.key - 1, some val⟩

def vecIter (v : Vec α) : Schema α := ⟨vecIterNext v, vecIterPrev v⟩

def iovsIter (v : Iovs β) : Schema Nat := ⟨iovsIterNext v, iovsIterPrev v⟩

/-- The iterator `nftp_iter_alloc` returns. -/
def iterAlloc : Iter ν := ⟨nftpHead, none⟩

def iterNext (sc : Schema ν) (iter : Iter ν) : Except Fault (Iter ν) := sc.next iter

def iterPrev (sc : Schema ν) (iter : Iter ν) : Except Fault (Iter ν) := sc.prev iter

def iterMove (sc : Schema ν) (iter : Iter ν) : Move → Option (Iter ν)
  | .next => (iterNext sc iter).toOption
  | .prev => (iterPrev sc iter).toOption

/-! ## What an iterator shows -/

def keyOf : Cursor → Int
  | .head => nftpHead
  | .on k => k
  | .tail => nftpTail

/-- The key of the place, and the element there: the entry of the vector, NULL when the entry is. -/
def Vec.Shows (v : Vec α) (iter : Iter α) (c : Cursor) : Prop := iter.key = keyOf c ∧ iter.val = (c.val v.view).join

/-- The key of the place, and a pointer to the segment there. -/
def Iovs.Shows (v : Iovs β) (iter : Iter Nat) (c : Cursor) : Prop :=
  iter.key = keyOf c ∧ iter.val.map (v.iovs[·]?) = (c.val v.segs).map some

instance [DecidableEq α] (v : Vec α) (iter : Iter α) (c : Cursor) : Decidable (v.Shows iter c) :=
  inferInstanceAs (Decidable (_ ∧ _))

instance [DecidableEq β] (v : Iovs β) (iter : Iter Nat) (c : Cursor) : Decidable (v.Shows iter c) :=
  inferInstanceAs (Decidable (_ ∧ _))

/-- The iterator of a vector goes anywhere but back from the end; the sum it takes stays in `int`. -/
def Vec.Clear (v : Vec α) (c : Cursor) (m : Move) : Prop :=
  ¬ (c = .tail ∧ m = .prev) ∧ ∀ k, c.move v.len m = .on k → v.low + k < 2 ^ 31

/-- The iterator of an iovs goes anywhere but on from the end and back to the front. -/
def Iovs.Clear (v : Iovs β) (c : Cursor) (m : Move) : Prop :=
  ¬ (c = .tail ∧ m = .next) ∧ ¬ (c ≠ .head ∧ c.move v.len m = .head)

/-! ## The iterator of a vector -/

/-- What both moves do with the position they counted to; `iter` is what they leave when it is none of the list's. -/
def vecIterGet (v : Vec α) (key : Int) (iter : Iter α) : Except Fault (Iter α) := do
  let (rv, val) ← vecGet v key
  if rv ≠ .ok then .ok iter else .ok ⟨key, val⟩

variable {v : Vec α} {self : Iter α} {c : Cursor} {k : Nat}

theorem vecIterNext_get (h : self.key ≠ nftpTail) : vecIterNext v self = vecIterGet v (self.key + 1) ⟨nftpTail, none⟩ := if_neg h

theorem vecIterPrev_get (h : self.key ≠ nftpTail) : vecIterPrev v self = vecIterGet v (self.key - 1) ⟨nftpHead, none⟩ := if_neg h

theorem vecGet_past (hk : k < v.len) (hsum : ¬ v.low + k < 2 ^ 31) : vecGet v k = .error .intOverflow := by
  rw [vecGet, if_neg (by omega), if_neg (by omega), Int.toNat_natCast, intAdd_past hsum]
  rfl

/-- **A move to a place of the list** shows it exactly when the sum stays in `int`. -/
theorem vecIterGet_on (h : v.Wf) (hk : k < v.len) (iter : Iter α) :
    (∃ s, (vecIterGet v k iter).toOption = some s ∧ v.Shows s (.on k)) ↔ v.low + k < 2 ^ 31 := by
  constructor
  · rintro ⟨s, hs, -⟩
    by_contra hsum
    rw [vecIterGet, vecGet_past hk hsum] at hs
    cases hs
  · intro hsum
    refine ⟨⟨k, v.at k⟩, by rw [vecIterGet, vecGet_lt h hk hsum]; rfl, rfl, ?_⟩
    show v.at k = (v.view[k]?).join
    rw [Vec.view_getElem? v hk]
    rfl

theorem vecIterGet_off {key : Int} (h : key < 0 ∨ key ≥ v.len) (iter : Iter α) : vecIterGet v key iter = .ok iter := by
  rw [vecIterGet, vecGet_outside h]
  rfl

theorem Vec.shows_end (v : Vec α) (c : Cursor) (h : ∀ k, c ≠ .on k) : v.Shows ⟨keyOf c, none⟩ c := by
  cases c with
  | head => exact ⟨rfl, rfl⟩
  | on k => exact absurd rfl (h k)
  | tail => exact ⟨rfl, rfl⟩

/-- **A move that counts to a position** shows the place `d` that the position stands for, if the sum stays in `int`. -/
theorem vecIterGet_shows (h : v.Wf) {key : Int} {iter : Iter α} {d : Cursor} (hd : d.Valid v.len)
    (hon : ∀ k, d = .on k → key = k) (hoff : (∀ k, d ≠ .on k) → (key < 0 ∨ key ≥ v.len) ∧ iter = ⟨keyOf d, none⟩) :
    (∃ s, (vecIterGet v key iter).toOption = some s ∧ v.Shows s d) ↔ ∀ k, d = .on k → v.low + k < 2 ^ 31 := by
  by_cases hplace : ∃ k, d = .on k
  · obtain ⟨k, rfl⟩ := hplace
    rw [hon k rfl, vecIterGet_on h hd]
    exact ⟨fun hsum j hj => by cases hj; exact hsum, fun hall => hall k rfl⟩
  · have hend : ∀ k, d ≠ .on k := fun k hk => hplace ⟨k, hk⟩
    obtain ⟨hkey, rfl⟩ := hoff hend
    rw [vecIterGet_off hkey]
    exact iff_of_true ⟨_, rfl, v.shows_end d hend⟩ fun k hk => absurd hk (hend k)

/-- A place of a vector, whose length is an `int`, is not `NFTP_TAIL`. -/
theorem keyOf_ne_tail {n : Nat} (hlen : n < 2 ^ 31) (hc : c.Valid n) (h : c ≠ .tail) : keyOf c ≠ nftpTail := by
  cases c with
  | head => decide
  | on k =>
    have hk : k < n := hc
    simp only [keyOf, nftpTail]
    omega
  | tail => exact absurd rfl h

/-- Where a move on leads to: the position behind, or the end. -/
theorem next_place {n : Nat} (hc : c.Valid n) (htail : c ≠ .tail) :
    ∃ k : Nat, k ≤ n ∧ keyOf c + 1 = k ∧ c.next n = if k < n then .on k else .tail := by
  cases c with
  | head => exact ⟨0, Nat.zero_le n, rfl, rfl⟩
  | on j => exact ⟨j + 1, hc, rfl, rfl⟩
  | tail => exact absurd rfl htail

theorem vecIter_next (h : v.Wf) (hlen : v.len < 2 ^ 31) (hs : v.Shows self c) (hc : c.Valid v.len) :
    (∃ s, iterMove (vecIter v) self .next = some s ∧ v.Shows s (c.next v.len)) ↔ v.Clear c .next := by
  have hkey := hs.1
  have hclear : v.Clear c .next ↔ ∀ k, c.next v.len = .on k → v.low + k < 2 ^ 31 := by simp [Vec.Clear, Cursor.move]
  rw [hclear]
  show (∃ s, (vecIterNext v self).toOption = some s ∧ _) ↔ _
  by_cases htail : c = .tail
  · subst htail
    have hrun : vecIterNext v self = .ok { self with val := none } := if_pos hkey
    rw [hrun]
    exact iff_of_true ⟨{ self with val := none }, rfl, hkey, rfl⟩ fun k hk => by cases hk
  obtain ⟨k, hle, hk, hnext⟩ := next_place hc htail
  rw [vecIterNext_get (by rw [hkey]; exact keyOf_ne_tail hlen hc htail), hkey, hk]
  refine vecIterGet_shows h hc.next (fun j hj => ?_) fun hend => ?_
  · rw [hnext] at hj
    split at hj
    · cases hj; rfl
    · cases hj
  · have hlast : ¬ k < v.len := fun hn => hend k (by rw [hnext, if_pos hn])
    rw [hnext, if_neg hlast]
    exact ⟨.inr (by omega), rfl⟩

theorem vecIter_prev (h : v.Wf) (hlen : v.len < 2 ^ 31) (hs : v.Shows self c) (hc : c.Valid v.len) :
    (∃ s, iterMove (vecIter v) self .prev = some s ∧ v.Shows s (c.prev v.len)) ↔ v.Clear c .prev := by
  have hkey := hs.1
  show (∃ s, (vecIterPrev v self).toOption = some s ∧ _) ↔ _
  by_cases htail : c = .tail
  · -- the key stays at the end, and the cursor leaves it
    subst htail
    have hrun : vecIterPrev v self = .ok { self with val := none } := if_pos hkey
    rw [hrun]
    refine iff_of_false ?_ fun hclear => hclear.1 ⟨rfl, rfl⟩
    rintro ⟨s, hs', hshows⟩
    cases hs'
    have hstay : keyOf (Cursor.tail.prev v.len) = nftpTail := hshows.1.symm.trans hkey
    refine keyOf_ne_tail hlen hc.prev ?_ hstay
    simp only [Cursor.prev]
    split
    · intro h'; cases h'
    · intro h'; cases h'
  have hclear : v.Clear c .prev ↔ ∀ k, c.prev v.len = .on k → v.low + k < 2 ^ 31 := by simp [Vec.Clear, Cursor.move, htail]
  rw [hclear, vecIterPrev_get (by rw [hkey]; exact keyOf_ne_tail hlen hc htail), hkey]
  refine vecIterGet_shows h hc.prev (fun k hk => ?_) fun hend => ?_
  · cases c with
    | head => cases hk
    | on j =>
      cases j with
      | zero => cases hk
      | succ j => cases hk; simp [keyOf]
    | tail => exact absurd rfl htail
  · cases c with
    | head => exact ⟨.inl (by decide), rfl⟩
    | on j =>
      cases j with
      | zero => exact ⟨.inl (by decide), rfl⟩
      | succ j => exact absurd rfl (hend j)
    | tail => exact absurd rfl htail

theorem vecIter_move (h : v.Wf) (hlen : v.len < 2 ^ 31) (hs : v.Shows self c) (hc : c.Valid v.len) (m : Move) :
    (∃ s, iterMove (vecIter v) self m = some s ∧ v.Shows s (c.move v.len m)) ↔ v.Clear c m := by
  cases m with
  | next => exact vecIter_next h hlen hs hc
  | prev => exact vecIter_prev h hlen hs hc

/-! ## The iterator of an iovs -/

section Iovs

variable {v : Iovs β} {self : Iter Nat} {c : Cursor} {k : Nat}

theorem slotPtr_ok (h : v.Wf) (hcap : v.cap = nftpSize) (hk : k < v.len) : v.slotPtr k = .ok (v.low + k) := by
  have hs := h.slots
  have hw := h.room
  have hkey : sizeT k = k := by
    rw [nftpSize] at hcap
    unfold sizeT
    omega
  have hsum : (v.low + k) % 2 ^ 64 = v.low + k := by
    rw [nftpSize] at hcap
    exact Nat.mod_eq_of_lt (by omega)
  simp only [Iovs.slotPtr, hkey, hsum]
  rw [if_pos (by omega)]

/-- **A pointer to a segment of the window** shows its place. -/
theorem Iovs.Wf.shows_on (h : v.Wf) (hk : k < v.len) : v.Shows ⟨k, some (v.low + k)⟩ (.on k) := by
  have hlt : k < v.segs.length := by rw [h.segs_length]; exact hk
  refine ⟨rfl, ?_⟩
  show some v.iovs[v.low + k]? = (v.segs[k]?).map some
  rw [← Iovs.segs_getElem? hk, List.getElem?_eq_getElem hlt]
  rfl

theorem Iovs.shows_tail (v : Iovs β) : v.Shows ⟨nftpTail, none⟩ .tail := ⟨rfl, rfl⟩

/-- A move that ends with a pointer does not show the front of the list. -/
theorem not_shows_head {key key' : Int} {s : Iter Nat}
    (hs : (v.slotPtr key >>= fun val => Except.ok ⟨key', some val⟩).toOption = some s) : ¬ v.Shows s .head := by
  rintro ⟨-, hval⟩
  cases hp : v.slotPtr key with
  | error e => rw [hp] at hs; cases hs
  | ok i =>
    rw [hp] at hs
    cases hs
    cases hval

/-- The keys of a window, which holds 32 segments at most, are far from `NFTP_TAIL`. -/
theorem Iovs.Wf.len_le (h : v.Wf) (hcap : v.cap = nftpSize) : v.len ≤ 32 ∧ cInt v.len = v.len := by
  have hw := h.room
  rw [nftpSize] at hcap
  exact ⟨by omega, cInt_of_lt (by omega)⟩

theorem iovsIterNext_on (h : v.Wf) (hcap : v.cap = nftpSize) (hk : k < v.len) (hkey : self.key + 1 = k) :
    iovsIterNext v self = .ok ⟨k, some (v.low + k)⟩ := by
  obtain ⟨hlen, hint⟩ := h.len_le hcap
  rw [iovsIterNext, hint, if_neg (by omega), if_neg (by rw [nftpTail]; omega), hkey, slotPtr_ok h hcap hk]
  rfl

theorem iovsIterNext_last (h : v.Wf) (hcap : v.cap = nftpSize) (hkey : self.key + 1 = v.len) :
    iovsIterNext v self = .ok ⟨nftpTail, none⟩ := by
  rw [iovsIterNext, (h.len_le hcap).2, if_pos (by omega)]

theorem iovsIterNext_tail (h : v.Wf) (hcap : v.cap = nftpSize) (hkey : self.key = nftpTail) :
    iovsIterNext v self = .error .intOverflow := by
  obtain ⟨hlen, hint⟩ := h.len_le hcap
  rw [iovsIterNext, hint, if_neg (by rw [hkey, nftpTail]; omega), if_pos hkey]

theorem iovsIter_next (h : v.Wf) (hcap : v.cap = nftpSize) (hs : v.Shows self c) (hc : c.Valid v.len) :
    (∃ s, iterMove (iovsIter v) self .next = some s ∧ v.Shows s (c.next v.len)) ↔ v.Clear c .next := by
  have hkey := hs.1
  show (∃ s, (iovsIterNext v self).toOption = some s ∧ _) ↔ _
  by_cases htail : c = .tail
  · -- the key is counted past the largest `int`
    subst htail
    rw [iovsIterNext_tail h hcap hkey]
    refine iff_of_false ?_ fun hclear => hclear.1 ⟨rfl, rfl⟩
    rintro ⟨s, hs', -⟩
    cases hs'
  obtain ⟨k, hle, hk, hnext⟩ := next_place hc htail
  have hclear : v.Clear c .next := by
    refine ⟨fun h' => htail h'.1, fun ⟨_, hhead⟩ => ?_⟩
    replace hhead : c.next v.len = .head := hhead
    rw [hnext] at hhead
    split at hhead <;> cases hhead
  refine iff_of_true ?_ hclear
  rw [hnext]
  by_cases hlt : k < v.len
  · rw [iovsIterNext_on h hcap hlt (by rw [hkey, hk]), if_pos hlt]
    exact ⟨_, rfl, h.shows_on hlt⟩
  · rw [iovsIterNext_last h hcap (by rw [hkey]; omega), if_neg hlt]
    exact ⟨_, rfl, v.shows_tail⟩

theorem iovsIterPrev_on (h : v.Wf) (hcap : v.cap = nftpSize) (hk : k < v.len) (hkey : self.key = (k + 1 : Nat)) :
    iovsIterPrev v self = .ok ⟨k, some (v.low + k)⟩ := by
  obtain ⟨hlen, -⟩ := h.len_le hcap
  have hprev : self.key - 1 = k := by omega
  rw [iovsIterPrev, if_neg (by rw [hkey, nftpTail]; omega), if_neg (by rw [hkey, nftpHead]; omega), hprev, slotPtr_ok h hcap hk]
  rfl

theorem iovsIterPrev_tail (h : v.Wf) (hcap : v.cap = nftpSize) (hk : v.len = k + 1) (hkey : self.key = nftpTail) :
    iovsIterPrev v self = .ok ⟨k, some (v.low + k)⟩ := by
  obtain ⟨hlen, -⟩ := h.len_le hcap
  have hlast : cInt (sizeT ((v.len : Int) - 1)) = k := by
    rw [hk, show ((k + 1 : Nat) : Int) - 1 = k by omega, sizeT_natCast (by omega), cInt_of_lt (by omega)]
  have hptr := slotPtr_ok h hcap (show k < v.len by omega)
  simp only [iovsIterPrev, if_pos hkey, hlast, hptr]
  rfl

theorem iovsIter_prev (h : v.Wf) (hcap : v.cap = nftpSize) (hs : v.Shows self c) (hc : c.Valid v.len) :
    (∃ s, iterMove (iovsIter v) self .prev = some s ∧ v.Shows s (c.prev v.len)) ↔ v.Clear c .prev := by
  have hkey := hs.1
  show (∃ s, (iovsIterPrev v self).toOption = some s ∧ _) ↔ _
  cases c with
  | head =>
    have hkey' : self.key = nftpHead := hkey
    have hrun : iovsIterPrev v self = .ok { self with val := none } := by
      rw [iovsIterPrev, if_neg (by rw [hkey']; decide), if_pos hkey']
    rw [hrun]
    exact iff_of_true ⟨_, rfl, hkey, rfl⟩ ⟨fun ⟨h', _⟩ => (by cases h'), fun ⟨h', _⟩ => h' rfl⟩
  | on j =>
    cases j with
    | zero =>
      -- the key is counted down to the front, with a pointer to the slot before the window
      refine iff_of_false ?_ fun hcl => hcl.2 ⟨fun h' => (by cases h'), rfl⟩
      rintro ⟨s, hs', hshows⟩
      rw [iovsIterPrev, if_neg (by rw [hkey]; decide), if_neg (by rw [hkey]; decide)] at hs'
      exact not_shows_head hs' hshows
    | succ j =>
      rw [iovsIterPrev_on h hcap (Nat.lt_of_succ_lt hc) hkey]
      exact iff_of_true ⟨_, rfl, h.shows_on (Nat.lt_of_succ_lt hc)⟩ ⟨fun ⟨h', _⟩ => (by cases h'), fun ⟨_, h'⟩ => (by cases h')⟩
  | tail =>
    have hkey' : self.key = nftpTail := hkey
    by_cases hn : v.len = 0
    · have hprev : Cursor.tail.move v.len .prev = .head := by rw [hn]; rfl
      refine iff_of_false ?_ fun hcl => hcl.2 ⟨fun h' => (by cases h'), hprev⟩
      rintro ⟨s, hs', hshows⟩
      rw [iovsIterPrev, if_pos hkey'] at hs'
      replace hshows : v.Shows s (Cursor.tail.move v.len .prev) := hshows
      rw [hprev] at hshows
      exact not_shows_head hs' hshows
    · obtain ⟨n, hn⟩ := Nat.exists_eq_succ_of_ne_zero hn
      have hprev : Cursor.tail.move v.len .prev = .on n := by rw [hn]; rfl
      rw [iovsIterPrev_tail h hcap hn hkey', show Cursor.tail.prev v.len = .on n from hprev]
      refine iff_of_true ⟨_, rfl, h.shows_on (by omega)⟩ ⟨fun ⟨_, h'⟩ => (by cases h'), fun ⟨_, h'⟩ => ?_⟩
      rw [hprev] at h'
      cases h'

theorem iovsIter_move (h : v.Wf) (hcap : v.cap = nftpSize) (hs : v.Shows self c) (hc : c.Valid v.len) (m : Move) :
    (∃ s, iterMove (iovsIter v) self m = some s ∧ v.Shows s (c.move v.len m)) ↔ v.Clear c m := by
  cases m with
  | next => exact iovsIter_next h hcap hs hc
  | prev => exact iovsIter_prev h hcap hs hc

end Iovs

/-! ## Walks -/

theorem walk_vec {v : Vec α} (h : v.Wf) (hlen : v.len < 2 ^ 31) (moves : List Move) :
    Follows (iterMove (vecIter v)) (Cursor.move v.len) v.Shows iterAlloc .head moves ↔
      Along (Cursor.move v.len) v.Clear .head moves :=
  follows_iff (Cursor.Valid v.len) (fun _ m hc => hc.move m) (fun _ _ m hs hc => vecIter_move h hlen hs hc m) moves ⟨rfl, rfl⟩ trivial

theorem walk_iovs {v : Iovs β} (h : v.Wf) (hcap : v.cap = nftpSize) (moves : List Move) :
    Follows (iterMove (iovsIter v)) (Cursor.move v.len) v.Shows iterAlloc .head moves ↔
      Along (Cursor.move v.len) v.Clear .head moves :=
  follows_iff (Cursor.Valid v.len) (fun _ m hc => hc.move m) (fun _ _ m hs hc => iovsIter_move h hcap hs hc m) moves ⟨rfl, rfl⟩ trivial

/-- **Iterators are cursors over the list** exactly on the walks whose moves are all clear: for a vector of any size and
an iovs, whatever calls were made on them before.  The cursor's `prev` undoes its `next` wherever that moved. -/
theorem iter_cursor [DecidableEq α] [DecidableEq ι] :
    (∀ (sz : Int) (calls : List (VecOp α × VecAns α)) (v : Vec α), sz < 2 ^ 31 →
      Run (fun v c v' => vecCall v c.1 = .ok (c.2, v')) (vecAlloc sz) calls v → ∀ moves,
        Follows (iterMove (vecIter v)) (Cursor.move v.len) v.Shows iterAlloc .head moves ↔
          Along (Cursor.move v.len) v.Clear .head moves) ∧
    (∀ (mem : ι → Nat → Iovec β) (calls : List (IovsUse ι β × IovsAns β)) (f : ι → Iovs β),
      Run UseStep (fun i => iovsAlloc (mem i)) calls f → ∀ i moves,
        Follows (iterMove (iovsIter (f i))) (Cursor.move (f i).len) (f i).Shows iterAlloc .head moves ↔
          Along (Cursor.move (f i).len) (f i).Clear .head moves) ∧
    ∀ n (c : Cursor), c.Valid n → c.next n ≠ c → (c.next n).prev n = c := by
  refine ⟨fun sz calls v hsz hrun moves => ?_, fun mem calls f hrun i moves => ?_, fun n c hc hmoved => Cursor.prev_next hc hmoved⟩
  · obtain ⟨hw, hcap⟩ := run_wf hrun
    refine walk_vec hw ?_ moves
    have hle := hw.len_le
    simp only [vecAlloc, nftpSize] at hcap
    split at hcap <;> omega
  · obtain ⟨hw, hcap⟩ := run_inArrays hrun i
    exact walk_iovs hw hcap moves

/-- A vector of two entries that wraps around, walked to the end with a turn in the middle; and an iovs of one segment. -/
theorem iter_cursor_turning : (∃ v : Vec Nat, v.vec = [some 6, some 5] ∧ v.view = [some 5, some 6] ∧
      Follows (iterMove (vecIter v)) (Cursor.move 2) v.Shows iterAlloc .head [.next, .next, .prev, .next, .next, .next]) ∧
    ∃ f : Unit → Iovs Nat, (f ()).segs = [⟨some 7, 1⟩] ∧
      Follows (iterMove (iovsIter (f ()))) (Cursor.move 1) (f ()).Shows iterAlloc .head [.prev, .next, .next, .prev] := by
  obtain ⟨hvec, hiovs, -⟩ := @iter_cursor Unit Nat Nat _ _
  have hrun : Run (fun (v : Vec Nat) c v' => vecCall v c.1 = .ok (c.2, v')) (vecAlloc 2)
      [(.append 6, ⟨.ok, none, none⟩), (.push 5 .head, ⟨.ok, none, none⟩)]
      { cap := 2, len := 2, low := 1, vec := [some 6, some 5] } := (Run.single rfl).append (Run.single rfl)
  have hrun' : ∃ f : Unit → Iovs Nat, (f ()).segs = [⟨some 7, 1⟩] ∧ (f ()).len = 1 ∧
      Run UseStep (fun _ => iovsAlloc fun k => ⟨some 238, k⟩) [(.op (.append () (some 7) 1), ⟨.ok, none⟩)] f := ⟨_, rfl, rfl, Run.single rfl⟩
  obtain ⟨f, hsegs, hlen, hrun'⟩ := hrun'
  refine ⟨⟨_, rfl, rfl, (hvec 2 _ _ (by decide) hrun _).2 ?_⟩, f, hsegs, ?_⟩
  · simp [Along, Vec.Clear, Cursor.move, Cursor.next, Cursor.prev]
  · have hwalk := (hiovs _ _ f hrun' () [.prev, .next, .next, .prev]).2
    rw [hlen] at hwalk
    refine hwalk ?_
    simp [Along, Iovs.Clear, Cursor.move, Cursor.next, Cursor.prev, hlen]

/-- Back from the end the iterator of a vector stays; that of an iovs shows a slot in front of the list, and counts its key
past the largest `int` at the end. -/
theorem iter_strays :
    ¬ Follows (iterMove (vecIter (vecAlloc 4 : Vec Nat))) (Cursor.move 0) (vecAlloc 4).Shows iterAlloc .head [.next, .prev] ∧
    ∃ f : Unit → Iovs Nat, Run UseStep (fun _ => iovsAlloc fun k => ⟨some 238, k⟩) [(.op (.append () (some 7) 1), ⟨.ok, none⟩)] f ∧
      iovsIterPrev (f ()) ⟨0, some 10⟩ = .ok ⟨nftpHead, some 9⟩ ∧
      iovsIterNext (f ()) ⟨nftpTail, none⟩ = .error .intOverflow ∧
      ¬ Follows (iterMove (iovsIter (f ()))) (Cursor.move 1) (f ()).Shows iterAlloc .head [.next, .prev] ∧
      ¬ Follows (iterMove (iovsIter (f ()))) (Cursor.move 1) (f ()).Shows iterAlloc .head [.next, .next, .next] := by
  refine ⟨by decide, _, Run.single rfl, by decide, by decide, by decide, by decide⟩

end Nftp
