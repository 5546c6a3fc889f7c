import Nftp.CodecTrip
import Nftp.Proto
/-!
# Bounds — when the parsers stay inside their input

Every read of `nftp_decode` and `nftp_proto_hello_get_fname` is checked, so a parser stays inside its input exactly when
it returns.  `nftp_decode` compares the outer length with the length field and no inner length with either.
-/
namespace Nftp

variable {α β : Type}

def Defined (x : Except Fault α) : Prop := ∃ a, x = .ok a

@[simp] theorem defined_ok (a : α) : Defined (Except.ok a : Except Fault α) := ⟨a, rfl⟩
@[simp] theorem not_defined_error (e : Fault) : ¬ Defined (Except.error e : Except Fault α) := nofun

theorem defined_bind {x : Except Fault α} {f : α → Except Fault β} :
    Defined (x >>= f) ↔ ∃ a, x = .ok a ∧ Defined (f a) := by
  cases x with
  | error e => simp
  | ok a => simp

/-! ## A checked read, as a condition and a value -/

theorem byteAt_ok_iff {v : Bytes} {pos : Nat} {b : UInt8} :
    byteAt v pos = .ok b ↔ pos < v.length ∧ v.getD pos 0 = b := by
  rw [byteAt_eq]
  by_cases h : pos < v.length
  · rw [if_pos h, Except.ok.injEq]; exact (and_iff_right h).symm
  · rw [if_neg h]
    exact ⟨fun he => (by cases he), fun hh => absurd hh.1 h⟩

theorem getU16_ok_iff {v : Bytes} {pos : Nat} {u : UInt16} :
    getU16 v pos = .ok u ↔ pos + 2 ≤ v.length ∧ be16 v pos = u := by
  rw [getU16_eq]
  by_cases h : pos + 2 ≤ v.length
  · rw [if_pos h, Except.ok.injEq]; exact (and_iff_right h).symm
  · rw [if_neg h]
    exact ⟨fun he => (by cases he), fun hh => absurd hh.1 h⟩

theorem getU32_ok_iff {v : Bytes} {pos : Nat} {u : UInt32} :
    getU32 v pos = .ok u ↔ pos + 4 ≤ v.length ∧ be32 v pos = u := by
  rw [getU32_eq]
  by_cases h : pos + 4 ≤ v.length
  · rw [if_pos h, Except.ok.injEq]; exact (and_iff_right h).symm
  · rw [if_neg h]
    exact ⟨fun he => (by cases he), fun hh => absurd hh.1 h⟩

theorem slice_ok_iff {v s : Bytes} {pos n : Nat} :
    slice v pos n = .ok s ↔ pos + n ≤ v.length ∧ (v.drop pos).take n = s := by
  rw [slice]
  by_cases h : pos + n ≤ v.length
  · rw [if_pos h, Except.ok.injEq]; exact (and_iff_right h).symm
  · rw [if_neg h]
    exact ⟨fun he => (by cases he), fun hh => absurd hh.1 h⟩

/-! ## `nftp_decode` -/

theorem decodeHello_defined {p : Packet} {v : Bytes} (hl : p.len.toNat = v.length) :
    Defined (decodeHello p v) ↔ 10 + (be16 v 8).toNat + 4 ≤ v.length := by
  unfold decodeHello
  simp only [defined_bind, byteAt_ok_iff, getU16_ok_iff, slice_ok_iff]
  constructor
  · rintro ⟨id, -, blocks, -, namelen, ⟨-, rfl⟩, fname, -, h⟩
    split at h
    · exact absurd h (not_defined_error _)
    · obtain ⟨content, hcontent, h⟩ := defined_bind.1 h
      obtain ⟨hash, hhash, -⟩ := defined_bind.1 h
      obtain ⟨-, rfl⟩ := slice_ok_iff.1 hcontent
      have h4 := (getU32_ok_iff.1 hhash).1
      rw [List.length_take, List.length_drop] at h4
      omega
  · intro h
    refine ⟨_, ⟨by omega, rfl⟩, _, ⟨by omega, rfl⟩, _, ⟨by omega, rfl⟩, _, ⟨by omega, rfl⟩, ?_⟩
    rw [if_neg (by omega)]
    refine defined_bind.2 ⟨_, slice_ok_iff.2 ⟨by omega, rfl⟩, defined_bind.2 ⟨_, getU32_ok_iff.2 ⟨?_, rfl⟩, defined_ok _⟩⟩
    rw [List.length_take, List.length_drop]
    omega

theorem decodeAck_defined (p : Packet) (v : Bytes) : Defined (decodeAck p v) ↔ 10 ≤ v.length := by
  unfold decodeAck
  simp only [defined_bind, byteAt_ok_iff, getU32_ok_iff]
  constructor
  · rintro ⟨id, -, fileid, ⟨h, -⟩, -⟩
    exact h
  · intro h
    exact ⟨_, ⟨by omega, rfl⟩, _, ⟨h, rfl⟩, defined_ok _⟩

theorem decodeFile_defined (p : Packet) (v : Bytes) :
    Defined (decodeFile p v) ↔ 15 + (be32 v 11).toNat ≤ v.length := by
  unfold decodeFile
  simp only [defined_bind, getU16_ok_iff, getU32_ok_iff, slice_ok_iff]
  constructor
  · rintro ⟨fileid, -, blockseq, -, ctlen, ⟨-, rfl⟩, content, ⟨h, -⟩, -⟩
    exact h
  · intro h
    exact ⟨_, ⟨by omega, rfl⟩, _, ⟨by omega, rfl⟩, _, ⟨by omega, rfl⟩, _, ⟨h, rfl⟩, defined_ok _⟩

theorem decodeGiveme_defined (p : Packet) (v : Bytes) : Defined (decodeGiveme p v) ↔ 11 ≤ v.length := by
  unfold decodeGiveme
  simp only [defined_bind, getU16_ok_iff, getU32_ok_iff]
  constructor
  · rintro ⟨fileid, -, blockseq, ⟨h, -⟩, -⟩
    exact h
  · intro h
    exact ⟨_, ⟨by omega, rfl⟩, _, ⟨h, rfl⟩, defined_ok _⟩

/-- The buffer is refused for its length, or as long as its type and inner lengths need. -/
def DecodeFits (v : Bytes) : Prop := v.length < 6 ∨ v.length ≠ (be32 v 1).toNat ∨ wireSize v ≤ v.length

theorem decode_defined (p : Packet) (v : Bytes) : Defined (decode p v v.length) ↔ DecodeFits v := by
  unfold decode DecodeFits
  by_cases h0 : v.length = 0
  · rw [if_pos h0]
    exact ⟨fun _ => .inl (by omega), fun _ => defined_ok _⟩
  by_cases h6 : v.length < 6
  · rw [if_neg h0, if_pos h6]
    exact ⟨fun _ => .inl h6, fun _ => defined_ok _⟩
  rw [if_neg h0, if_neg h6, byteAt_ok_iff.2 ⟨by omega, rfl⟩, bind_ok, getU32_ok_iff.2 ⟨by omega, rfl⟩, bind_ok]
  simp only
  by_cases hl : v.length = (be32 v 1).toNat
  · rw [if_neg (by simpa using hl)]
    have hfit : (v.length < 6 ∨ v.length ≠ (be32 v 1).toNat ∨ wireSize v ≤ v.length) ↔ wireSize v ≤ v.length := by
      constructor
      · rintro (h | h | h)
        · exact absurd h h6
        · exact absurd hl h
        · exact h
      · exact fun h => .inr (.inr h)
    rw [hfit, wireSize]
    cases MsgType.ofCode (v.getD 0 0) with
    | none => exact ⟨fun _ => Nat.zero_le _, fun _ => defined_ok _⟩
    | some t =>
      cases t with
      | hello => exact decodeHello_defined hl.symm
      | ack => exact decodeAck_defined _ v
      | file => exact decodeFile_defined _ v
      | fin => exact decodeFile_defined _ v
      | giveme => exact decodeGiveme_defined _ v
  · rw [if_pos hl]
    exact ⟨fun _ => .inr (.inl hl), fun _ => defined_ok _⟩

/-! ## `nftp_proto_hello_get_fname` -/

/-- `strncpy` stops at a NUL: it stays inside the buffer when that holds `n` bytes, or a NUL to stop at. -/
theorem strncpy_defined (v : Bytes) : ∀ n pos, Defined (strncpy v pos n) ↔ n = 0 ∨ pos + n ≤ v.length ∨ 0 ∈ v.drop pos
  | 0, pos => ⟨fun _ => .inl rfl, fun _ => defined_ok _⟩
  | n + 1, pos => by
    rw [strncpy]
    by_cases hp : pos < v.length
    · have hd : v.drop pos = v.getD pos 0 :: v.drop (pos + 1) := drop_of_byteAt (byteAt_ok_iff.2 ⟨hp, rfl⟩)
      rw [byteAt_ok_iff.2 ⟨hp, rfl⟩, bind_ok, hd]
      by_cases hb : v.getD pos 0 = 0
      · rw [if_pos hb, hb]
        exact ⟨fun _ => .inr (.inr List.mem_cons_self), fun _ => defined_ok _⟩
      · rw [if_neg hb, defined_bind]
        have ih := strncpy_defined v n (pos + 1)
        constructor
        · rintro ⟨rest, hrest, -⟩
          rcases ih.1 ⟨rest, hrest⟩ with h | h | h
          · exact .inr (.inl (by omega))
          · exact .inr (.inl (by omega))
          · exact .inr (.inr (List.mem_cons_of_mem _ h))
        · intro h
          have hn : n = 0 ∨ pos + 1 + n ≤ v.length ∨ 0 ∈ v.drop (pos + 1) := by
            rcases h with h | h | h
            · omega
            · exact .inr (.inl (by omega))
            · rcases List.mem_cons.1 h with h | h
              · exact absurd h.symm hb
              · exact .inr (.inr h)
          obtain ⟨rest, hrest⟩ := ih.2 hn
          exact ⟨rest, hrest, defined_ok _⟩
    · rw [byteAt_eq, if_neg hp, bind_error, List.drop_eq_nil_of_le (by omega)]
      constructor
      · exact fun h => absurd h (not_defined_error _)
      · rintro (h | h | h)
        · omega
        · omega
        · exact absurd h List.not_mem_nil

/-- There is a type byte, and behind that of a HELLO a name length and the name, or a NUL in its place. -/
def FnameFits (v : Bytes) : Prop :=
  0 < v.length ∧
    (v.getD 0 0 = MsgType.hello.code → 10 ≤ v.length ∧ (10 + (be16 v 8).toNat ≤ v.length ∨ 0 ∈ v.drop 10))

theorem helloGetFname_defined (v : Bytes) : Defined (protoHelloGetFname v) ↔ FnameFits v := by
  unfold protoHelloGetFname FnameFits
  by_cases h0 : 0 < v.length
  · rw [byteAt_ok_iff.2 ⟨h0, rfl⟩, bind_ok]
    by_cases hb : v.getD 0 0 = MsgType.hello.code
    · rw [if_neg (by simpa using hb), defined_bind]
      simp only [getU16_ok_iff, defined_bind]
      constructor
      · rintro ⟨n, ⟨h10, rfl⟩, fname, hf, -⟩
        refine ⟨h0, fun _ => ⟨h10, ?_⟩⟩
        rcases (strncpy_defined v _ 10).1 ⟨fname, hf⟩ with h | h | h
        · exact .inl (by omega)
        · exact .inl h
        · exact .inr h
      · rintro ⟨-, h⟩
        obtain ⟨h10, hn⟩ := h hb
        obtain ⟨fname, hf⟩ := (strncpy_defined v (be16 v 8).toNat 10).2 (.inr hn)
        exact ⟨_, ⟨h10, rfl⟩, fname, hf, defined_ok _⟩
    · rw [if_pos hb]
      exact ⟨fun _ => ⟨h0, fun h => absurd h hb⟩, fun _ => defined_ok _⟩
  · rw [byteAt_eq, if_neg h0]
    exact ⟨fun h => absurd h (not_defined_error _), fun h => absurd h.1 h0⟩

/-- **The parsers read inside their input exactly when** the buffer is refused for its outer length or as long as its
inner lengths need, and, for the name of a HELLO, holds the name or a NUL. -/
theorem parsers_defined (p : Packet) (v : Bytes) :
    (Defined (decode p v v.length) ↔ DecodeFits v) ∧ (Defined (protoHelloGetFname v) ↔ FnameFits v) :=
  ⟨decode_defined p v, helloGetFname_defined v⟩

/-- Six bytes whose type is ACK and whose length field says six are read past their end; so is a HELLO cut behind its
type by `nftp_proto_hello_get_fname`. -/
theorem decode_reads_past : ¬ Defined (decode Packet.alloc [2, 0, 0, 0, 6, 0] 6) ∧ ¬ Defined (protoHelloGetFname [1]) :=
  ⟨not_defined_error .overread, not_defined_error .overread⟩

end Nftp
