import Nftp.Hello
import Nftp.Iter
/-!
# Lookup — the callback registry as its callers see it

An entry is read by its index, as the code reads it.  In every reachable state the first entry is the default one and no
name comes twice, so that a HELLO has one entry to bind; its search by index is the walk of an iterator.
-/
namespace Nftp

open Lib

variable {h : Host} {s : State} {fname msg : Bytes} {n : Packet} {r : Ret} {a : Addr}

/-- The entry at an index of the registry has the name. -/
def State.Entry (s : State) (i : Nat) (fname : Bytes) : Prop :=
  ∃ a r, vecGet s.fcbReg i = .ok (.ok, some a) ∧ s.heap a = some r ∧ r.fname = fname

/-- The record is the entry of the name, or the one at the front when no entry has the name. -/
def State.Picks (s : State) (fname : Bytes) (a : Addr) : Prop :=
  (∀ i, s.Entry i fname → vecGet s.fcbReg i = .ok (.ok, some a)) ∧
    ((∀ i, ¬ s.Entry i fname) → vecGet s.fcbReg 0 = .ok (.ok, some a))

/-- **The registry is well formed**, entry by entry. -/
structure WellFormed (s : State) : Prop where
  default : s.Entry 0 star
  entry : ∀ i < s.fcbReg.len, ∃ fname, s.Entry i fname
  only : ∀ i, s.Entry i star → i = 0
  distinct : ∀ i j fname, s.Entry i fname → s.Entry j fname → i = j

/-! ## Entries -/

theorem RegOk.get_iff (h : RegOk s) {i : Nat} {a : Addr} :
    vecGet s.fcbReg i = .ok (.ok, some a) ↔ s.regs[i]? = some a := by
  by_cases hi : i < s.regs.length
  · rw [h.toRecords.get hi, List.getElem?_eq_getElem hi]
    simp
  · have hlen := h.length
    rw [vecGet_outside (.inr (by omega)), List.getElem?_eq_none (by omega)]
    simp

theorem RegOk.entry_iff (h : RegOk s) {i : Nat} : s.Entry i fname ↔ s.Named i fname := by
  simp only [State.Entry, State.Named, h.get_iff]

theorem RegOk.wellFormed (h : RegOk s) : WellFormed s where
  default := h.entry_iff.2 h.head
  entry i hi := by
    rw [← h.length] at hi
    obtain ⟨r, hr, -⟩ := h.deref (List.getElem_mem hi)
    exact ⟨r.fname, h.entry_iff.2 ⟨_, r, List.getElem?_eq_getElem hi, hr, rfl⟩⟩
  only i hi := h.named_inj (h.entry_iff.1 hi) h.head
  distinct i j fname hi hj := h.named_inj (h.entry_iff.1 hi) (h.entry_iff.1 hj)

theorem RegOk.picks_iff (h : RegOk s) : s.Picks fname a ↔ Binds s fname a := by
  constructor
  · rintro ⟨hentry, hnone⟩
    by_cases hex : ∃ i, s.Named i fname
    · obtain ⟨i, b, r, hb, hr, hn⟩ := hex
      have hget := h.get_iff.1 (hentry i (h.entry_iff.2 ⟨b, r, hb, hr, hn⟩))
      rw [hb] at hget
      cases hget
      exact .inl ⟨r, hr, hn⟩
    · rw [not_exists] at hex
      exact .inr ⟨hex, h.get_iff.1 (hnone fun i hi => hex i (h.entry_iff.1 hi))⟩
  · rintro (⟨r, hr, hn⟩ | ⟨hnone, hfirst⟩)
    · obtain ⟨j, hget⟩ := h.index hr
      have hnamed : s.Named j fname := ⟨a, r, hget, hr, hn⟩
      refine ⟨fun i hi => ?_, fun hno => absurd (h.entry_iff.2 hnamed) (hno j)⟩
      rw [h.named_inj (h.entry_iff.1 hi) hnamed]
      exact h.get_iff.2 hget
    · exact ⟨fun i hi => absurd (h.entry_iff.1 hi) (hnone i), fun _ => h.get_iff.2 hfirst⟩

/-! ## What a HELLO binds -/

/-- The record a HELLO binds is the one that its name picks. -/
theorem bindFcb_picks (hreg : RegOk s) (n : Packet) : ∃ a s₁, bindFcb s n.name = .ok (some a, s₁) ∧
    ∀ b, s.Picks n.name b ↔ b = a := by
  obtain ⟨a, s₁, hbind, -⟩ := bindFcb_bound hreg (cstr_cstr (n.fname.getD []))
  obtain ⟨hbinds, -⟩ := bindFcb_binds hreg hbind
  exact ⟨a, s₁, hbind, fun b => hreg.picks_iff.trans (hbinds b)⟩

/-- A HELLO that is accepted stores a context bound to the record that its name picks. -/
theorem handleHello_picks (hreg : RegOk s) (hr : handleHello h s n = .ok r) (hrv : r.rv = .ok) :
    ∃ c a, r.st.files (nftpHash n.name) = some c ∧ c.fcb = some a ∧ s.Picks n.name a := by
  rcases handleHello_cases hreg hr with ⟨-, rfl⟩ | ⟨-, a, s₁, w, path, hbind, -, -, -, hcase⟩
  · cases hrv
  rcases hcase with ⟨-, rfl⟩ | ⟨-, rv, rmsg, rlen, -, rfl⟩
  · cases hrv
  obtain ⟨a', s₂, hbind', hpicks⟩ := bindFcb_picks hreg n
  rw [hbind'] at hbind
  cases hbind
  exact ⟨helloCtx n a w, a, Function.update_self .., rfl, (hpicks a).2 rfl⟩

/-! ## The search of a HELLO is a walk -/

/-- The `while` loop of the HELLO case, with the iterator at an entry or at `NFTP_TAIL`. -/
def iterLoop (s : State) (fname : Bytes) (iter : Iter Addr) (found : Option Addr) : Nat → Except Fault (Option Addr)
  | 0 => .error .diverge
  | fuel + 1 =>
    if iter.key = nftpTail then .ok found
    else do
      let (a, r) ← s.deref iter.val
      let iter ← iterNext (vecIter s.fcbReg) iter
      iterLoop s fname iter (if r.fname = fname then some a else found) fuel

/-- **The search by index is the walk of the iterator**, from any entry on. -/
theorem iterLoop_eq (h : RegOk s) (fname : Bytes) : ∀ (n i : Nat) (val found : Option Addr), i + n = s.regs.length →
    (iterNext (vecIter s.fcbReg) ⟨(i : Int) - 1, val⟩ >>= fun iter => iterLoop s fname iter found (n + 1)) =
      iterName s fname i found n
  | n, i, val, found, hn => by
    have hlen := h.length
    have hle := h.wf.len_le
    have hcap := h.cap
    rw [nftpFiles] at hcap
    have hkey : (i : Int) - 1 ≠ nftpTail := by rw [nftpTail]; omega
    have hnext : iterNext (vecIter s.fcbReg) ⟨(i : Int) - 1, val⟩ = vecIterGet s.fcbReg i ⟨nftpTail, none⟩ := by
      have hrun : vecIterNext s.fcbReg ⟨(i : Int) - 1, val⟩ = vecIterGet s.fcbReg ((i : Int) - 1 + 1) ⟨nftpTail, none⟩ :=
        vecIterNext_get hkey
      rw [Int.sub_add_cancel] at hrun
      exact hrun
    rw [hnext]
    cases n with
    | zero =>
      rw [vecIterGet_off (.inr (by omega))]
      rfl
    | succ n =>
      have hi : i < s.regs.length := by omega
      obtain ⟨r, -, hd⟩ := h.deref (List.getElem_mem hi)
      have hget := h.toRecords.get hi
      have hkey' : (i : Int) ≠ nftpTail := by rw [nftpTail]; omega
      have ih := iterLoop_eq h fname n (i + 1) (some s.regs[i]) (if r.fname = fname then some s.regs[i] else found) (by omega)
      rw [Int.natCast_add, Int.natCast_one, Int.add_sub_cancel] at ih
      rw [vecIterGet, hget]
      simp only [bind_ok, ne_eq, not_true_eq_false, if_false, iterName, hget, hd]
      rw [iterLoop, if_neg hkey']
      simp only [hd, bind_ok]
      exact ih

/-- **A HELLO's walk of the registry** with a fresh iterator finds what the search by index finds. -/
theorem iterLoop_search (h : RegOk s) (fname : Bytes) :
    (iterNext (vecIter s.fcbReg) iterAlloc >>= fun iter => iterLoop s fname iter none (s.fcbReg.len + 1)) =
      iterName s fname 0 none s.fcbReg.len := by
  have hwalk := iterLoop_eq h fname s.fcbReg.len 0 none none (by rw [h.length, Nat.zero_add])
  exact hwalk

/-! ## Every reachable state -/

/-- **In every reachable state the registry is well formed and lookups are unambiguous**: the record that a HELLO binds is
the entry of its name or else the default one, and a registration or an unregistration that fails changes nothing. -/
theorem registry_lookup (hl : Live s) :
    WellFormed s ∧
    (∀ n : Packet, ∃ a s₁, bindFcb s n.name = .ok (some a, s₁) ∧ ∀ b, s.Picks n.name b ↔ b = a) ∧
    (∀ h msg n r, parse msg = .ok (.ok, n) → MsgType.ofCode n.type = some .hello → receive h s msg = .ok r → r.rv = .ok →
      ∃ c a, r.st.files (nftpHash n.name) = some c ∧ c.fcb = some a ∧ s.Picks n.name a) ∧
    (∀ fname cb arg, ∃ rv s', protoRegister s fname cb arg = .ok (rv, s') ∧ (rv ≠ .ok → s' = s)) ∧
    (∀ fname, ∃ rv s', protoUnregister s fname = .ok (rv, s') ∧ (rv ≠ .ok → s' = s)) := by
  have hreg := hl.inv.reg
  refine ⟨hreg.wellFormed, bindFcb_picks hreg, fun h msg n r hp ht hr hrv => ?_, fun fname cb arg => ?_, fun fname => ?_⟩
  · rw [receive_of_parse h s hp, dispatch, ht] at hr
    exact handleHello_picks hreg hr hrv
  · obtain ⟨rv, s', hrun, -, -, -, hfail, -⟩ := protoRegister_spec hreg fname cb arg
    exact ⟨rv, s', hrun, hfail⟩
  · obtain ⟨rv, s', hrun, -, -, -, hfail, -⟩ := protoUnregister_spec hreg fname
    exact ⟨rv, s', hrun, hfail⟩

/-- The registry filled with 31 names: one more is refused, and a HELLO of it is accepted. -/
theorem registry_lookup_full : ∃ s c a, Live s ∧ WellFormed s ∧ s.fcbReg.len = 32 ∧
    protoRegister s (some [0x66]) none 0 = .ok (.overflow, s) ∧
    (∃ r, receive .good s (helloBytes 0 1 [0x66] 0) = .ok r ∧ r.rv = .ok ∧ r.st.files (nftpHash [0x66]) = some c) ∧
    c.fcb = some a ∧ s.Picks [0x66] a := by
  obtain ⟨s, hl, hlen, ⟨⟨rv, s'⟩, hrun, hrv⟩, r, hr, hok⟩ := trace_live none 1 .empty
    ((List.range 31).map fun i => .register (some [UInt8.ofNat (i + 1)]) none 0)
    (fun s => s.fcbReg.len = 32 ∧ (∃ x, protoRegister s (some [0x66]) none 0 = .ok x ∧ x.1 = .overflow) ∧
      ∃ r, receive .good s (helloBytes 0 1 [0x66] 0) = .ok r ∧ r.rv = .ok) (by decide +kernel)
  obtain ⟨n, hp, ht, hname, -⟩ := parse_helloBytes 0 1 0 (show [0x66].length < 2 ^ 16 by decide) rfl
  obtain ⟨hwf, -, hhello, hregister, -⟩ := registry_lookup hl
  obtain ⟨c, a, hc, ha, hpicks⟩ := hhello .good _ n r hp ht hr hok
  rw [hname] at hc hpicks
  obtain ⟨rv', s'', hrun', hsame⟩ := hregister (some [0x66]) none 0
  rw [hrun] at hrun'
  cases hrun'
  obtain rfl : rv = .overflow := hrv
  rw [hsame (by decide)] at hrun
  exact ⟨s, c, a, hl, hwf, hlen, hrun, ⟨r, hr, hok, hc⟩, ha, hpicks⟩

end Nftp
