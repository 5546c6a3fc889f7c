import Mathlib.Tactic
/-!
# Crc — reflected cyclic redundancy checks

The register of a reflected CRC as a bit vector of any width: one shift takes the lowest bit out and adds the polynomial
if it was set.  Shifts are linear in exclusive or, and injective when the polynomial has the highest bit; both carry over
to the bytes of a message, which may be fed one by one or as one little-endian word.
-/
namespace Lib

variable {w : ℕ} {p : BitVec w}

def shift (p c : BitVec w) : BitVec w := if c.getLsbD 0 then (c >>> 1) ^^^ p else c >>> 1

def shifts (p : BitVec w) (n : ℕ) (c : BitVec w) : BitVec w := (shift p)^[n] c

/-- The register after one byte of the message. -/
def crcStep (p c : BitVec w) (b : BitVec 8) : BitVec w := shifts p 8 (c ^^^ b.setWidth w)

/-- **The CRC of a message**, bit by bit, from the register `init`, which is inverted by `out` at the end. -/
def crc (p init out : BitVec w) (bs : List (BitVec 8)) : BitVec w := bs.foldl (crcStep p) init ^^^ out

/-! ## Shifts -/

@[simp] theorem shifts_zero (c : BitVec w) : shifts p 0 c = c := rfl

theorem shifts_succ (n : ℕ) (c : BitVec w) : shifts p (n + 1) c = shift p (shifts p n c) :=
  Function.iterate_succ_apply' ..

theorem shifts_add (m n : ℕ) (c : BitVec w) : shifts p (m + n) c = shifts p m (shifts p n c) :=
  Function.iterate_add_apply ..

/-- **A shift is linear.** -/
theorem shift_xor (c d : BitVec w) : shift p (c ^^^ d) = shift p c ^^^ shift p d := by
  have hp : p ^^^ p = 0#w := BitVec.xor_self
  unfold shift
  rw [BitVec.getLsbD_xor, BitVec.ushiftRight_xor_distrib]
  cases hc : c.getLsbD 0 <;> cases hd : d.getLsbD 0
  · rfl
  · exact BitVec.xor_assoc ..
  · show (c >>> 1 ^^^ d >>> 1) ^^^ p = (c >>> 1 ^^^ p) ^^^ d >>> 1
    rw [BitVec.xor_assoc, BitVec.xor_assoc, BitVec.xor_comm p]
  · show c >>> 1 ^^^ d >>> 1 = (c >>> 1 ^^^ p) ^^^ (d >>> 1 ^^^ p)
    rw [BitVec.xor_comm (d >>> 1) p, BitVec.xor_assoc, ← BitVec.xor_assoc p p, hp, BitVec.zero_xor]

theorem shifts_xor (c d : BitVec w) : ∀ n, shifts p n (c ^^^ d) = shifts p n c ^^^ shifts p n d
  | 0 => rfl
  | n + 1 => by rw [shifts_succ, shifts_xor c d n, shift_xor, ← shifts_succ, ← shifts_succ]

/-- A register whose low bits are clear only moves down. -/
theorem shifts_clear {c : BitVec w} : ∀ n, (∀ i, i < n → c.getLsbD i = false) → shifts p n c = c >>> n
  | 0, _ => by rw [shifts_zero, BitVec.ushiftRight_zero]
  | n + 1, hc => by
    have hbit : (c >>> n).getLsbD 0 = false := by
      rw [BitVec.getLsbD_ushiftRight]
      exact hc n (Nat.lt_succ_self n)
    rw [shifts_succ, shifts_clear n fun i hi => hc i (Nat.lt_succ_of_lt hi), shift, hbit, BitVec.shiftRight_add]
    rfl

/-- **A shift loses nothing** when the polynomial has the highest bit. -/
theorem shift_injective (hp : p.getLsbD (w - 1) = true) : Function.Injective (shift p) := by
  have hw : 0 < w := by
    by_contra h0
    rw [BitVec.getLsbD_of_ge p (w - 1) (by omega)] at hp
    cases hp
  have hzero : ∀ c, shift p c = 0#w → c = 0#w := by
    intro c hc
    unfold shift at hc
    cases h0 : c.getLsbD 0 with
    | true =>
      -- the highest bit of the shifted register is clear
      rw [h0, if_pos rfl, BitVec.xor_eq_zero_iff] at hc
      rw [← hc, BitVec.getLsbD_ushiftRight, BitVec.getLsbD_of_ge c (1 + (w - 1)) (by omega)] at hp
      cases hp
    | false =>
      rw [h0, if_neg Bool.false_ne_true] at hc
      apply BitVec.eq_of_getLsbD_eq
      intro i hi
      rw [BitVec.getLsbD_zero]
      cases i with
      | zero => exact h0
      | succ i =>
        have hbit := congrArg (·.getLsbD i) hc
        simp only [BitVec.getLsbD_ushiftRight, BitVec.getLsbD_zero] at hbit
        rwa [Nat.add_comm] at hbit
  intro c d hcd
  have hxor : shift p (c ^^^ d) = 0#w := by rw [shift_xor, hcd, BitVec.xor_self]
  exact BitVec.xor_eq_zero_iff.1 (hzero _ hxor)

theorem shifts_injective (hp : p.getLsbD (w - 1) = true) (n : ℕ) : Function.Injective (shifts p n) :=
  (shift_injective hp).iterate n

/-- A register in a wider one. -/
theorem shifts_setWidth {v : ℕ} (hv : w ≤ v) (c : BitVec w) : ∀ n,
    (shifts p n c).setWidth v = shifts (p.setWidth v) n (c.setWidth v)
  | 0 => rfl
  | n + 1 => by
    rw [shifts_succ, shifts_succ, ← shifts_setWidth hv c n]
    generalize shifts p n c = d
    have hbit : (d.setWidth v).getLsbD 0 = d.getLsbD 0 := by
      rw [BitVec.getLsbD_setWidth]
      by_cases h0 : 0 < v
      · simp [h0]
      · simp [BitVec.getLsbD_of_ge d 0 (by omega)]
    have hshift : (d >>> 1).setWidth v = d.setWidth v >>> 1 := by
      apply BitVec.eq_of_getLsbD_eq
      intro i hi
      rw [BitVec.getLsbD_setWidth, BitVec.getLsbD_ushiftRight, BitVec.getLsbD_ushiftRight, BitVec.getLsbD_setWidth]
      by_cases h1 : 1 + i < v
      · simp [hi, h1]
      · simp [BitVec.getLsbD_of_ge d (1 + i) (by omega)]
    unfold shift
    rw [hbit]
    split
    · rw [BitVec.setWidth_xor, hshift]
    · exact hshift

/-! ## Bytes of the register -/

def lowByte (c : BitVec w) : BitVec w := c &&& 255#w

theorem getLsbD_lowByte (c : BitVec w) (i : ℕ) : (lowByte c).getLsbD i = (c.getLsbD i && decide (i < 8)) := by
  have h255 : (255 : ℕ).testBit i = decide (i < 8) := Nat.testBit_two_pow_sub_one 8 i
  rw [lowByte, BitVec.getLsbD_and, BitVec.getLsbD_ofNat, h255]
  by_cases hi : i < w
  · simp [hi]
  · simp [BitVec.getLsbD_of_ge c i (by omega)]

/-- **Eight shifts** act on the low byte, and move the rest down. -/
theorem shifts_eight (c : BitVec w) : shifts p 8 c = shifts p 8 (lowByte c) ^^^ (c >>> 8) := by
  have hsplit : c = lowByte c ^^^ (c ^^^ lowByte c) := by
    rw [BitVec.xor_comm c, ← BitVec.xor_assoc, BitVec.xor_self, BitVec.zero_xor]
  have hbit : ∀ i, (c ^^^ lowByte c).getLsbD i = (c.getLsbD i && !decide (i < 8)) := by
    intro i
    rw [BitVec.getLsbD_xor, getLsbD_lowByte]
    cases c.getLsbD i <;> cases decide (i < 8) <;> rfl
  have hclear : shifts p 8 (c ^^^ lowByte c) = (c ^^^ lowByte c) >>> 8 :=
    shifts_clear 8 fun i hi => by rw [hbit]; simp [hi]
  have hhigh : (c ^^^ lowByte c) >>> 8 = c >>> 8 := by
    apply BitVec.eq_of_getLsbD_eq
    intro i _
    rw [BitVec.getLsbD_ushiftRight, BitVec.getLsbD_ushiftRight, hbit]
    simp
  conv => lhs; rw [hsplit]
  rw [shifts_xor, hclear, hhigh]

/-- The register after `8 * n` shifts, each of its bytes shifted by itself. -/
def sliced (p : BitVec w) : ℕ → BitVec w → BitVec w
  | 0, c => c
  | n + 1, c => shifts p (8 * (n + 1)) (lowByte c) ^^^ sliced p n (c >>> 8)

/-- **Slicing**: the bytes of the register may be shifted apart and added up. -/
theorem sliced_eq : ∀ (n : ℕ) (c : BitVec w), sliced p n c = shifts p (8 * n) c
  | 0, _ => rfl
  | n + 1, c => by
    rw [sliced, sliced_eq n, Nat.mul_succ, shifts_add, shifts_add, shifts_eight c, shifts_xor]

/-! ## Bytes of the message -/

/-- The bytes as a little-endian word. -/
def le (w : ℕ) : List (BitVec 8) → BitVec w
  | [] => 0#w
  | b :: bs => b.setWidth w ||| (le w bs <<< 8)

theorem getLsbD_le : ∀ (bs : List (BitVec 8)) (i : ℕ), 8 * bs.length ≤ i → (le w bs).getLsbD i = false
  | [], i, _ => by rw [le, BitVec.getLsbD_zero]
  | b :: bs, i, hi => by
    rw [List.length_cons] at hi
    rw [le, BitVec.getLsbD_or, BitVec.getLsbD_setWidth, BitVec.getLsbD_shiftLeft, getLsbD_le bs (i - 8) (by omega),
      BitVec.getLsbD_of_ge b i (by omega)]
    simp

/-- A byte below a word that is moved up. -/
theorem byte_or (b : BitVec 8) (v : BitVec w) : b.setWidth w ||| (v <<< 8) = b.setWidth w ^^^ (v <<< 8) := by
  apply BitVec.eq_of_getLsbD_eq
  intro i hi
  rw [BitVec.getLsbD_or, BitVec.getLsbD_xor, BitVec.getLsbD_setWidth, BitVec.getLsbD_shiftLeft]
  by_cases h8 : i < 8
  · simp [h8]
  · simp [BitVec.getLsbD_of_ge b i (by omega)]

/-- **The bytes of a word fed one by one** are the word fed at once. -/
theorem foldl_crcStep : ∀ (bs : List (BitVec 8)) (c : BitVec w), 8 * bs.length ≤ w →
    bs.foldl (crcStep p) c = shifts p (8 * bs.length) (c ^^^ le w bs)
  | [], c, _ => by rw [le, BitVec.xor_zero]; rfl
  | b :: bs, c, hw => by
    rw [List.length_cons] at hw
    have hclear : shifts p 8 (le w bs <<< 8) = le w bs := by
      rw [shifts_clear 8 fun i hi => by rw [BitVec.getLsbD_shiftLeft]; simp [hi]]
      apply BitVec.eq_of_getLsbD_eq
      intro i hi
      rw [BitVec.getLsbD_ushiftRight, BitVec.getLsbD_shiftLeft]
      by_cases hlt : 8 + i < w
      · simp [hlt]
      · simp [hlt, getLsbD_le bs i (by omega)]
    rw [List.foldl_cons, foldl_crcStep bs _ (by omega), List.length_cons, Nat.mul_succ, shifts_add, le, byte_or,
      ← BitVec.xor_assoc, shifts_xor _ _ 8, hclear]
    rfl

/-- A message in a wider register. -/
theorem foldl_setWidth {v : ℕ} (hv : w ≤ v) (h8 : 8 ≤ w) : ∀ (bs : List (BitVec 8)) (c : BitVec w),
    (bs.foldl (crcStep p) c).setWidth v = bs.foldl (crcStep (p.setWidth v)) (c.setWidth v)
  | [], _ => rfl
  | b :: bs, c => by
    rw [List.foldl_cons, List.foldl_cons, foldl_setWidth hv h8 bs, crcStep, crcStep, shifts_setWidth hv,
      BitVec.setWidth_xor, BitVec.setWidth_setWidth (by omega)]

/-! ## What a CRC detects -/

theorem crcStep_injective (hp : p.getLsbD (w - 1) = true) (b : BitVec 8) : Function.Injective (crcStep p · b) := by
  intro c d hcd
  exact (BitVec.xor_left_inj _).1 (shifts_injective hp 8 hcd)

theorem foldl_injective (hp : p.getLsbD (w - 1) = true) : ∀ bs : List (BitVec 8),
    Function.Injective fun c => bs.foldl (crcStep p) c
  | [], _, _, h => h
  | b :: bs, _, _, h => crcStep_injective hp b (foldl_injective hp bs h)

theorem le_injective : ∀ {bs bs' : List (BitVec 8)}, bs.length = bs'.length → 8 * bs.length ≤ w →
    le w bs = le w bs' → bs = bs'
  | [], [], _, _, _ => rfl
  | b :: bs, b' :: bs', hl, hw, he => by
    rw [List.length_cons] at hw
    have hbit : ∀ i, i < w → (b.getLsbD i || !decide (i < 8) && (le w bs).getLsbD (i - 8)) =
        (b'.getLsbD i || !decide (i < 8) && (le w bs').getLsbD (i - 8)) := by
      intro i hi
      have h1 := congrArg (·.getLsbD i) he
      simpa only [le, BitVec.getLsbD_or, BitVec.getLsbD_setWidth, BitVec.getLsbD_shiftLeft, hi, decide_true, Bool.true_and]
        using h1
    have hlow : b = b' := by
      apply BitVec.eq_of_getLsbD_eq
      intro i hi
      simpa [hi] using hbit i (by omega)
    have hhigh : le w bs = le w bs' := by
      apply BitVec.eq_of_getLsbD_eq
      intro i hi
      by_cases hlt : i + 8 < w
      · have h1 := hbit (i + 8) hlt
        rw [BitVec.getLsbD_of_ge b (i + 8) (by omega), BitVec.getLsbD_of_ge b' (i + 8) (by omega)] at h1
        simpa using h1
      · rw [getLsbD_le bs i (by omega), getLsbD_le bs' i (by rw [List.length_cons, List.length_cons] at hl; omega)]
    rw [hlow, le_injective (Nat.succ.inj hl) (by omega) hhigh]

/-- **A CRC catches every change within its width**: two messages that differ in one stretch, no wider than the register,
have different CRCs. -/
theorem crc_burst (hp : p.getLsbD (w - 1) = true) {init out : BitVec w} {pre m m' post : List (BitVec 8)}
    (hl : m.length = m'.length) (hw : 8 * m.length ≤ w)
    (h : crc p init out (pre ++ (m ++ post)) = crc p init out (pre ++ (m' ++ post))) : m = m' := by
  unfold crc at h
  have h1 := (BitVec.xor_left_inj _).1 h
  rw [List.foldl_append, List.foldl_append, List.foldl_append, List.foldl_append] at h1
  have h2 := foldl_injective hp post h1
  rw [foldl_crcStep m _ hw, foldl_crcStep m' _ (by omega), ← hl] at h2
  have h3 := (BitVec.xor_right_inj _).1 (shifts_injective hp _ h2)
  exact le_injective hl hw h3

/-- Two messages that agree outside `k` places in a row, `k` bytes fitting the register. -/
theorem crc_within (hp : p.getLsbD (w - 1) = true) {init out : BitVec w} {x y : List (BitVec 8)} {i k : ℕ}
    (hl : x.length = y.length) (hk : 8 * k ≤ w) (hout : ∀ j, j < i ∨ i + k ≤ j → x[j]? = y[j]?)
    (h : crc p init out x = crc p init out y) : x = y := by
  have hsplit : ∀ z : List (BitVec 8), z = z.take i ++ ((z.drop i).take k ++ z.drop (i + k)) := by
    intro z
    rw [← List.drop_drop, List.take_append_drop, List.take_append_drop]
  have hpre : x.take i = y.take i := by
    apply List.ext_getElem?
    intro j
    rw [List.getElem?_take, List.getElem?_take]
    by_cases hj : j < i
    · rw [if_pos hj, if_pos hj, hout j (.inl hj)]
    · rw [if_neg hj, if_neg hj]
  have hpost : x.drop (i + k) = y.drop (i + k) := by
    apply List.ext_getElem?
    intro j
    rw [List.getElem?_drop, List.getElem?_drop, hout (i + k + j) (.inr (Nat.le_add_right _ j))]
  have hlen : ((x.drop i).take k).length = ((y.drop i).take k).length := by
    rw [List.length_take, List.length_take, List.length_drop, List.length_drop, hl]
  have hwide : 8 * ((x.drop i).take k).length ≤ w :=
    Nat.le_trans (Nat.mul_le_mul_left 8 (List.length_take_le k _)) hk
  rw [hsplit x, hsplit y, ← hpre, ← hpost] at h
  rw [hsplit x, hsplit y, ← hpre, ← hpost, crc_burst hp hlen hwide h]

end Lib
