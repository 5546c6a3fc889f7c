import Nftp.Proto
/-!
# Registry — the callback records as a list

`RegOk` says what the registry is: a ring whose list of addresses has no repetition, holds exactly the records that are
allocated, starts with the default record `"*"` and has no two records of one name.  Each search and each change of
`proto.c` is then given on that list.
-/
namespace Nftp

def State.regs (s : State) : List Addr := s.fcbReg.view.filterMap id

/-- The ring holds the allocated records, each once. -/
structure Records (s : State) : Prop where
  wf : s.fcbReg.Wf
  cap : s.fcbReg.cap = nftpFiles
  view : s.fcbReg.view = s.regs.map some
  nodup : s.regs.Nodup
  mem_iff : ∀ a, a ∈ s.regs ↔ (s.heap a).isSome
  lt_brk : ∀ a ∈ s.regs, a < s.brk

structure RegOk (s : State) : Prop extends Records s where
  names : ∀ a b r r', s.heap a = some r → s.heap b = some r' → r.fname = r'.fname → a = b
  head : ∃ a r, s.regs[0]? = some a ∧ s.heap a = some r ∧ r.fname = star

variable {s : State}

theorem RegOk.of_eq {s' : State} (h : RegOk s) (hreg : s'.fcbReg = s.fcbReg) (hheap : s'.heap = s.heap)
    (hbrk : s'.brk = s.brk) : RegOk s' := by
  have hregs : s'.regs = s.regs := by rw [State.regs, State.regs, hreg]
  refine ⟨⟨?_, ?_, ?_, ?_, ?_, ?_⟩, ?_, ?_⟩
  · rw [hreg]; exact h.wf
  · rw [hreg]; exact h.cap
  · rw [hreg, hregs]; exact h.view
  · rw [hregs]; exact h.nodup
  · rw [hregs, hheap]; exact h.mem_iff
  · rw [hregs, hbrk]; exact h.lt_brk
  · rw [hheap]; exact h.names
  · rw [hregs, hheap]; exact h.head

/-! ## Reading -/

theorem Records.length (h : Records s) : s.regs.length = s.fcbReg.len := by
  have := congrArg List.length h.view
  rw [Vec.view_length, List.length_map] at this
  exact this.symm

/-- A place of the registry's ring is an `int`. -/
theorem Records.place_lt (h : Records s) {i : Nat} (hi : i ≤ s.fcbReg.cap) : s.fcbReg.low + i < 2 ^ 31 := by
  have hlow := h.wf.low_lt
  have hcap := h.cap
  rw [nftpFiles] at hcap
  omega

theorem Records.get (h : Records s) {i : Nat} (hi : i < s.regs.length) :
    vecGet s.fcbReg i = .ok (.ok, some s.regs[i]) := by
  have hl : i < s.fcbReg.len := by rw [← h.length]; exact hi
  have hv := Vec.view_getElem? s.fcbReg hl
  rw [h.view, List.getElem?_map, List.getElem?_eq_getElem hi] at hv
  rw [vecGet_lt h.wf hl (h.place_lt (hl.le.trans h.wf.len_le)), ← Option.some.inj hv]

theorem Records.deref (h : Records s) {a : Addr} (ha : a ∈ s.regs) :
    ∃ r, s.heap a = some r ∧ s.deref (some a) = .ok (a, r) := by
  obtain ⟨r, hr⟩ := Option.isSome_iff_exists.1 ((h.mem_iff a).1 ha)
  exact ⟨r, hr, by simp [State.deref, hr]⟩

/-- An allocated record has a place in the registry. -/
theorem Records.index (h : Records s) {a : Addr} {r : FileCb} (hr : s.heap a = some r) : ∃ i : Nat, s.regs[i]? = some a := by
  have hmem : a ∈ s.regs := (h.mem_iff a).2 (by rw [hr]; rfl)
  exact List.mem_iff_getElem?.1 hmem

theorem deref_eq_ok {p : Option Addr} {a : Addr} {r : FileCb} :
    s.deref p = .ok (a, r) ↔ p = some a ∧ s.heap a = some r := by
  cases p with
  | none => simp [State.deref]
  | some b =>
    unfold State.deref
    constructor
    · intro h
      cases hb : s.heap b with
      | none => simp [hb] at h
      | some r' => simp only [hb, Except.ok.injEq, Prod.mk.injEq] at h; obtain ⟨rfl, rfl⟩ := h; exact ⟨rfl, hb⟩
    · rintro ⟨h, hr⟩
      cases h
      simp only [hr]

/-- The record at a place of the registry has the name. -/
def State.Named (s : State) (i : Nat) (fname : Bytes) : Prop :=
  ∃ a r, s.regs[i]? = some a ∧ s.heap a = some r ∧ r.fname = fname

theorem RegOk.pos (h : RegOk s) : 0 < s.regs.length := by
  obtain ⟨a, -, ha, -⟩ := h.head
  exact (List.getElem?_eq_some_iff.1 ha).1

theorem RegOk.named_inj (h : RegOk s) {i j : Nat} {fname : Bytes} (hi : s.Named i fname) (hj : s.Named j fname) :
    i = j := by
  obtain ⟨a, r, ha, hr, rfl⟩ := hi
  obtain ⟨b, r', hb, hr', hn⟩ := hj
  have hab := h.names a b r r' hr hr' hn.symm
  obtain ⟨hia, hae⟩ := List.getElem?_eq_some_iff.1 ha
  obtain ⟨hjb, hbe⟩ := List.getElem?_eq_some_iff.1 hb
  exact (List.Nodup.getElem_inj_iff h.nodup).1 (hae.trans (hab.trans hbe.symm))

/-- A record is the default one exactly when it is the first. -/
theorem RegOk.star_iff (h : RegOk s) {i : Nat} {a : Addr} {r : FileCb} (hi : s.regs[i]? = some a)
    (hr : s.heap a = some r) : r.fname = star ↔ i = 0 := by
  constructor
  · intro hs
    exact h.named_inj ⟨a, r, hi, hr, hs⟩ h.head
  · rintro rfl
    obtain ⟨b, r', hb, hr', hs⟩ := h.head
    rw [hi] at hb
    cases hb
    rw [hr] at hr'
    cases hr'
    exact hs

/-! ## The searches -/

/-- **The search of register and unregister** finds the first place with the name. -/
theorem findName_spec (h : Records s) (fname : Bytes) : ∀ n i, i + n ≤ s.regs.length →
    ∃ o, findName s fname i n = .ok (.ok, o) ∧ (∀ j, o = some j → i ≤ j ∧ s.Named j fname) ∧
      (o = none → ∀ j, i ≤ j → j < i + n → ¬ s.Named j fname)
  | 0, i, _ => ⟨none, rfl, nofun, fun _ j h1 h2 => by omega⟩
  | n + 1, i, hn => by
    have hi : i < s.regs.length := by omega
    obtain ⟨r, hr, hd⟩ := h.deref (List.getElem_mem hi)
    have hget := List.getElem?_eq_getElem hi
    by_cases hf : r.fname = fname
    · refine ⟨some i, ?_, ?_, nofun⟩
      · rw [findName, h.get hi, bind_ok]
        simp only [ne_eq, not_true_eq_false, if_false, hd, bind_ok, if_pos hf]
      · rintro j hj
        cases hj
        exact ⟨Nat.le_refl i, _, r, hget, hr, hf⟩
    · obtain ⟨o, hrun, hsome, hnone⟩ := findName_spec h fname n (i + 1) (by omega)
      refine ⟨o, ?_, fun j hj => ⟨by have := (hsome j hj).1; omega, (hsome j hj).2⟩, ?_⟩
      · rw [findName, h.get hi, bind_ok]
        simp only [ne_eq, not_true_eq_false, if_false, hd, bind_ok, if_neg hf]
        exact hrun
      · intro ho j h1 h2
        by_cases hj : j = i
        · subst hj
          rintro ⟨a, r', ha, hr', hn'⟩
          rw [hget] at ha
          cases ha
          rw [hr] at hr'
          cases hr'
          exact hf hn'
        · exact hnone ho j (by omega) (by omega)

/-- **The search of the HELLO case** finds a record with the name when there is one. -/
theorem iterName_spec (h : Records s) (fname : Bytes) : ∀ n i found, i + n = s.regs.length →
    ∃ o, iterName s fname i found n = .ok o ∧
      (o = found ∨ ∃ a r, o = some a ∧ s.heap a = some r ∧ r.fname = fname) ∧
      (o = found ∨ ∃ j, i ≤ j ∧ s.Named j fname) ∧ (o = none → ∀ j, i ≤ j → ¬ s.Named j fname)
  | 0, i, found, hn => ⟨found, rfl, .inl rfl, .inl rfl, fun _ j h1 ⟨a, r, ha, _⟩ => by
      have := (List.getElem?_eq_some_iff.1 ha).1
      omega⟩
  | n + 1, i, found, hn => by
    have hi : i < s.regs.length := by omega
    obtain ⟨r, hr, hd⟩ := h.deref (List.getElem_mem hi)
    have hget := List.getElem?_eq_getElem hi
    obtain ⟨o, hrun, hrec, hat, hnone⟩ :=
      iterName_spec h fname n (i + 1) (if r.fname = fname then some s.regs[i] else found) (by omega)
    have hstep : iterName s fname i found (n + 1) = .ok o := by
      rw [iterName, h.get hi, bind_ok]
      simp only [ne_eq, not_true_eq_false, if_false, hd, bind_ok]
      exact hrun
    by_cases hf : r.fname = fname
    · rw [if_pos hf] at hrec hat
      have hi' : s.Named i fname := ⟨_, r, hget, hr, hf⟩
      refine ⟨o, hstep, .inr ?_, .inr ⟨i, Nat.le_refl i, hi'⟩, ?_⟩
      · rcases hrec with rfl | h'
        · exact ⟨_, r, rfl, hr, hf⟩
        · exact h'
      · rintro rfl
        rcases hrec with h' | ⟨a, r', h', -⟩ <;> cases h'
    · rw [if_neg hf] at hrec hat
      refine ⟨o, hstep, hrec, ?_, ?_⟩
      · rcases hat with h' | ⟨j, hj, hj'⟩
        · exact .inl h'
        · exact .inr ⟨j, by omega, hj'⟩
      · intro ho j h1
        by_cases hj : j = i
        · subst hj
          rintro ⟨a, r', ha, hr', hn'⟩
          rw [hget] at ha
          cases ha
          rw [hr] at hr'
          cases hr'
          exact hf hn'
        · exact hnone ho j (by omega)

/-- **The search by address** finds the place of an address. -/
theorem findCb_spec (h : Records s) (a : Addr) : ∀ n i, i + n = s.regs.length →
    ∃ o, findCb s a i n = .ok o ∧ (∀ j, o = some j → s.regs[j]? = some a) ∧ (o = none → a ∉ s.regs.drop i)
  | 0, i, hn => ⟨none, rfl, nofun, fun _ => by rw [List.drop_eq_nil_of_le (by omega)]; exact List.not_mem_nil⟩
  | n + 1, i, hn => by
    have hi : i < s.regs.length := by omega
    by_cases ha : s.regs[i] = a
    · refine ⟨some i, ?_, ?_, nofun⟩
      · rw [findCb, h.get hi, bind_ok]
        simp only [ha, and_self, if_true]
      · rintro j hj
        cases hj
        rw [List.getElem?_eq_getElem hi, ha]
    · obtain ⟨o, hrun, hsome, hnone⟩ := findCb_spec h a n (i + 1) (by omega)
      refine ⟨o, ?_, hsome, ?_⟩
      · rw [findCb, h.get hi, bind_ok]
        simp only [Option.some.injEq, ha, and_false, if_false]
        exact hrun
      · intro ho
        rw [List.drop_eq_getElem_cons hi, List.mem_cons, not_or]
        exact ⟨fun h' => ha h'.symm, hnone ho⟩

/-! ## Adding a record -/

theorem regs_of_view {t : State} {l : List Addr} (h : t.fcbReg.view = l.map some) : t.regs = l := by
  rw [State.regs, h]
  simp

theorem pushCb_full (h : s.fcbReg.len = s.fcbReg.cap) (r : FileCb) : pushCb s r = .ok (.overflow, s) := by
  rw [pushCb, vecPush_full h]
  rfl

/-- **A push with room** adds the record at the end, at a fresh address. -/
theorem pushCb_ok (h : Records s) (hl : s.fcbReg.len < s.fcbReg.cap) (r : FileCb) :
    ∃ reg, pushCb s r =
        .ok (.ok, { s with fcbReg := reg, heap := Function.update s.heap s.brk (some r), brk := s.brk + 1 }) ∧
      reg.len = s.fcbReg.len + 1 ∧
      Records { s with fcbReg := reg, heap := Function.update s.heap s.brk (some r), brk := s.brk + 1 } ∧
      State.regs { s with fcbReg := reg, heap := Function.update s.heap s.brk (some r), brk := s.brk + 1 } =
        s.regs ++ [s.brk] := by
  obtain ⟨reg, hpush, hwf, hview, hcap, hlen⟩ := vecPush_tail h.wf hl (h.place_lt h.wf.len_le) s.brk
  have hregs : State.regs { s with fcbReg := reg, heap := Function.update s.heap s.brk (some r), brk := s.brk + 1 } =
      s.regs ++ [s.brk] := regs_of_view (by rw [hview, h.view, List.map_append]; rfl)
  have hnew : s.brk ∉ s.regs := fun hm => Nat.lt_irrefl _ (h.lt_brk _ hm)
  refine ⟨reg, by rw [pushCb, hpush]; rfl, hlen, ⟨hwf, by rw [← h.cap]; exact hcap, ?_, ?_, ?_, ?_⟩, hregs⟩
  · rw [hregs, List.map_append, ← h.view]
    exact hview
  · rw [hregs, List.nodup_append]
    exact ⟨h.nodup, by simp, fun a ha b hb => by rw [List.mem_singleton.1 hb]; rintro rfl; exact hnew ha⟩
  · intro a
    rw [hregs, List.mem_append, List.mem_singleton, h.mem_iff]
    show _ ↔ (Function.update s.heap s.brk (some r) a).isSome
    by_cases ha : a = s.brk
    · simp [ha]
    · rw [Function.update_of_ne ha]; simp [ha]
  · intro a ha
    rw [hregs, List.mem_append, List.mem_singleton] at ha
    show a < s.brk + 1
    rcases ha with ha | ha
    · exact Nat.lt_succ_of_lt (h.lt_brk a ha)
    · rw [ha]; exact Nat.lt_succ_self _

theorem RegOk.push (h : RegOk s) {r : FileCb} {reg : Vec Addr} {t : State}
    (ht : t = { s with fcbReg := reg, heap := Function.update s.heap s.brk (some r), brk := s.brk + 1 })
    (hrec : Records t) (hregs : t.regs = s.regs ++ [s.brk]) (hnew : ∀ i, ¬ s.Named i r.fname) : RegOk t := by
  have hheap : t.heap = Function.update s.heap s.brk (some r) := by rw [ht]
  have hold : ∀ a r', s.heap a = some r' → r'.fname ≠ r.fname := by
    intro a r' hr' hn
    obtain ⟨i, hi⟩ := h.index hr'
    exact hnew i ⟨a, r', hi, hr', hn⟩
  refine ⟨hrec, ?_, ?_⟩
  · intro a b ra rb ha hb hn
    rw [hheap] at ha hb
    by_cases ha' : a = s.brk
    · by_cases hb' : b = s.brk
      · rw [ha', hb']
      · rw [ha', Function.update_self] at ha
        rw [Function.update_of_ne hb'] at hb
        cases ha
        exact absurd hn.symm (hold b rb hb)
    · rw [Function.update_of_ne ha'] at ha
      by_cases hb' : b = s.brk
      · rw [hb', Function.update_self] at hb
        cases hb
        exact absurd hn (hold a ra ha)
      · rw [Function.update_of_ne hb'] at hb
        exact h.names a b ra rb ha hb hn
  · obtain ⟨a, r', ha, hr', hs⟩ := h.head
    have hlt : a < s.brk := h.lt_brk a (List.mem_of_getElem? ha)
    refine ⟨a, r', ?_, ?_, hs⟩
    · rw [hregs, List.getElem?_append_left h.pos]
      exact ha
    · rw [hheap, Function.update_of_ne (Nat.ne_of_lt hlt)]
      exact hr'

/-! ## Removing a record -/

/-- The registry is as long as there are records: one shorter when one was released that is not the default one. -/
theorem RegOk.len_release {s' : State} (h : RegOk s) (h' : RegOk s') {a : Addr} {r : FileCb} (hr : s.heap a = some r)
    (hheap : ∀ b, s'.heap b = if b = a ∧ r.fname ≠ star then none else s.heap b) :
    (r.fname = star → s'.fcbReg.len = s.fcbReg.len) ∧ (r.fname ≠ star → s'.fcbReg.len + 1 = s.fcbReg.len) := by
  rw [← h.length, ← h'.length]
  constructor
  · intro hs
    refine ((List.perm_ext_iff_of_nodup h'.nodup h.nodup).2 fun b => ?_).length_eq
    rw [h'.mem_iff, h.mem_iff, hheap, if_neg fun hb => hb.2 hs]
  · intro hs
    have hmem : a ∈ s.regs := (h.mem_iff a).2 (by rw [hr]; rfl)
    have hperm : s'.regs.Perm (s.regs.erase a) := by
      refine (List.perm_ext_iff_of_nodup h'.nodup (h.nodup.erase a)).2 fun b => ?_
      rw [h'.mem_iff, h.nodup.mem_erase_iff, h.mem_iff, hheap]
      by_cases hb : b = a
      · simp [hb, hs]
      · simp [hb]
    have hpos := List.length_pos_of_mem hmem
    rw [hperm.length_eq, List.length_erase_of_mem hmem]
    omega

/-- **Deleting the record at a place behind the first and releasing it** keeps the registry in order. -/
theorem RegOk.delete (h : RegOk s) {k : Nat} {a : Addr} (hk : s.regs[k]? = some a) (h0 : k ≠ 0) :
    ∃ reg, vecDelete s.fcbReg k = .ok (.ok, some a, reg) ∧
      State.freeCb { s with fcbReg := reg } (some a) =
        .ok { s with fcbReg := reg, heap := Function.update s.heap a none } ∧
      RegOk { s with fcbReg := reg, heap := Function.update s.heap a none } := by
  obtain ⟨hlt, hka⟩ := List.getElem?_eq_some_iff.1 hk
  have hl : k < s.fcbReg.len := by rw [← h.length]; exact hlt
  obtain ⟨reg, hdel, hwf, hview, hcap⟩ := vecDelete_ok h.wf hl (h.place_lt h.wf.len_le)
  have hat : s.fcbReg.at k = some a := by
    have hv := Vec.view_getElem? s.fcbReg hl
    rw [h.view, List.getElem?_map, hk] at hv
    exact (Option.some.inj hv).symm
  obtain ⟨r, hr, -⟩ := h.deref (List.mem_of_getElem? hk)
  have hregs : State.regs { s with fcbReg := reg, heap := Function.update s.heap a none } = s.regs.eraseIdx k :=
    regs_of_view (by rw [hview, h.view, List.eraseIdx_map])
  have hmem : ∀ b, b ∈ s.regs.eraseIdx k ↔ b ∈ s.regs ∧ b ≠ a := by
    intro b
    rw [← hka, ← h.nodup.erase_getElem k hlt, h.nodup.mem_erase_iff]
    exact and_comm
  refine ⟨reg, by rw [hdel, hat], ?_, ⟨⟨hwf, by rw [← h.cap]; exact hcap, ?_, ?_, ?_, ?_⟩, ?_, ?_⟩⟩
  · simp only [State.freeCb, State.deref, hr, bind_ok, pure_ok]
  · rw [hregs, ← List.eraseIdx_map, ← h.view]
    exact hview
  · rw [hregs]
    exact h.nodup.eraseIdx k
  · intro b
    rw [hregs, hmem, h.mem_iff]
    show _ ↔ (Function.update s.heap a none b).isSome
    by_cases hb : b = a
    · simp [hb]
    · rw [Function.update_of_ne hb]; simp [hb]
  · intro b hb
    rw [hregs, hmem] at hb
    exact h.lt_brk b hb.1
  · intro b c rb rc hb hc hn
    have hne : ∀ {x rx}, Function.update s.heap a none x = some rx → s.heap x = some rx := by
      intro x rx hx
      by_cases hxa : x = a
      · rw [hxa, Function.update_self] at hx; cases hx
      · rwa [Function.update_of_ne hxa] at hx
    exact h.names b c rb rc (hne hb) (hne hc) hn
  · obtain ⟨b, r', hb, hr', hs⟩ := h.head
    have hba : b ≠ a := by
      rintro rfl
      exact h0 ((h.star_iff hk hr').1 hs)
    refine ⟨b, r', ?_, ?_, hs⟩
    · rw [hregs, List.getElem?_eraseIdx, if_pos (Nat.pos_of_ne_zero h0)]
      exact hb
    · show Function.update s.heap a none b = some r'
      rw [Function.update_of_ne hba]
      exact hr'

/-! ## The calls that change the registry -/

/-- What a change of the registry leaves alone: addresses handed out stay taken, and a record keeps its name until it is
released. -/
structure Keeps (s s' : State) : Prop where
  brk_le : s.brk ≤ s'.brk
  fname : ∀ a r', a < s.brk → s'.heap a = some r' → ∃ r, s.heap a = some r ∧ r'.fname = r.fname

theorem Keeps.refl (s : State) : Keeps s s := ⟨Nat.le_refl _, fun _ r' _ hr => ⟨r', hr, rfl⟩⟩

theorem Keeps.trans {s₁ s₂ s₃ : State} (h : Keeps s₁ s₂) (h' : Keeps s₂ s₃) : Keeps s₁ s₃ where
  brk_le := Nat.le_trans h.brk_le h'.brk_le
  fname a r hlt hr := by
    obtain ⟨r', hr', hn⟩ := h'.fname a r (Nat.lt_of_lt_of_le hlt h.brk_le) hr
    obtain ⟨r'', hr'', hn'⟩ := h.fname a r' hlt hr'
    exact ⟨r'', hr'', hn.trans hn'⟩

/-- The parts of the state the registry is made of; nothing else reads or changes them. -/
def State.withReg (s t : State) : State := { s with fcbReg := t.fcbReg, heap := t.heap, brk := t.brk }

theorem keeps_push {r : FileCb} {reg : Vec Addr} :
    Keeps s { s with fcbReg := reg, heap := Function.update s.heap s.brk (some r), brk := s.brk + 1 } where
  brk_le := Nat.le_succ _
  fname a r' hlt hr := by
    replace hr : Function.update s.heap s.brk (some r) a = some r' := hr
    rw [Function.update_of_ne (Nat.ne_of_lt hlt)] at hr
    exact ⟨r', hr, rfl⟩

theorem keeps_release {a : Addr} {reg : Vec Addr} :
    Keeps s { s with fcbReg := reg, heap := Function.update s.heap a none } where
  brk_le := Nat.le_refl _
  fname b r' _ hr := by
    replace hr : Function.update s.heap a none b = some r' := hr
    by_cases hb : b = a
    · rw [hb, Function.update_self] at hr; cases hr
    · rw [Function.update_of_ne hb] at hr; exact ⟨r', hr, rfl⟩

/-- A record pushed under a name the registry does not hold: refused when the registry is full. -/
theorem RegOk.pushCb_spec (h : RegOk s) {r : FileCb} (hnew : ∀ i, ¬ s.Named i r.fname) :
    (s.fcbReg.len = nftpFiles ∧ pushCb s r = .ok (.overflow, s)) ∨
    (s.fcbReg.len < nftpFiles ∧ ∃ reg s', pushCb s r = .ok (.ok, s') ∧ RegOk s' ∧
      s' = { s with fcbReg := reg, heap := Function.update s.heap s.brk (some r), brk := s.brk + 1 } ∧
      reg.len = s.fcbReg.len + 1 ∧ s'.regs = s.regs ++ [s.brk]) := by
  have hle := h.wf.len_le
  have hcap := h.cap
  by_cases hl : s.fcbReg.len = s.fcbReg.cap
  · exact .inl ⟨hl.trans hcap, pushCb_full hl r⟩
  · right
    obtain ⟨reg, hrun, hlen, hrec, hregs⟩ := pushCb_ok h.toRecords (by omega) r
    exact ⟨by omega, reg, _, hrun, h.push rfl hrec hregs hnew, rfl, hlen, hregs⟩

/-- Searching behind the first record finds any name but the default one. -/
theorem RegOk.findName_tail (h : RegOk s) {fname : Bytes} (hs : fname ≠ star) :
    ∃ o, findName s fname 1 (s.fcbReg.len - 1) = .ok (.ok, o) ∧ (∀ j, o = some j → j ≠ 0 ∧ s.Named j fname) ∧
      (o = none → ∀ i, ¬ s.Named i fname) := by
  have hpos := h.pos
  have hlen := h.length
  obtain ⟨o, hrun, hsome, hnone⟩ := findName_spec h.toRecords fname (s.fcbReg.len - 1) 1 (by omega)
  refine ⟨o, hrun, fun j hj => ⟨by have := (hsome j hj).1; omega, (hsome j hj).2⟩, ?_⟩
  rintro ho i ⟨a, r, ha, hr, hn⟩
  have hi := (List.getElem?_eq_some_iff.1 ha).1
  by_cases h0 : i = 0
  · exact hs (hn.symm.trans ((h.star_iff ha hr).2 h0))
  · exact hnone ho i (by omega) (by omega) ⟨a, r, ha, hr, hn⟩

theorem protoRegister_new (h : RegOk s) {fname : Bytes} (hs : fname ≠ star) (hnew : ∀ i, ¬ s.Named i fname)
    (hc : cstr fname = fname) (cb : Option Nat) (arg : Nat) :
    protoRegister s (some fname) cb arg = pushCb s ⟨fname, cb, arg⟩ := by
  obtain ⟨o, hrun, hsome, -⟩ := h.findName_tail hs
  have ho : o = none := by
    cases o with
    | none => rfl
    | some j => exact absurd (hsome j rfl).2 (hnew j)
  simp only [protoRegister, hc, if_neg hs, hrun, ho, bind_ok, ne_eq, not_true_eq_false, if_false, Option.isSome_none,
    Bool.false_eq_true]

theorem protoRegister_dup (h : RegOk s) {fname : Bytes} (hs : fname ≠ star) (hnamed : ∃ i, s.Named i fname)
    (hc : cstr fname = fname) (cb : Option Nat) (arg : Nat) : protoRegister s (some fname) cb arg = .ok (.ht, s) := by
  obtain ⟨o, hrun, -, hnone⟩ := h.findName_tail hs
  cases o with
  | none =>
    obtain ⟨i, hi⟩ := hnamed
    exact absurd hi (hnone rfl i)
  | some j =>
    simp only [protoRegister, hc, if_neg hs, hrun, bind_ok, ne_eq, not_true_eq_false, if_false, Option.isSome_some,
      if_true]

/-- **A name can be registered** exactly when there is no record of it and room for one. -/
theorem RegOk.register_iff (h : RegOk s) {fname : Bytes} (hs : fname ≠ star) (hc : cstr fname = fname) :
    (∀ cb arg, ∃ s', protoRegister s (some fname) cb arg = .ok (.ok, s')) ↔
      (¬ ∃ i, s.Named i fname) ∧ s.fcbReg.len < nftpFiles := by
  constructor
  · intro hok
    obtain ⟨s', hrun⟩ := hok none 0
    have hnew : ¬ ∃ i, s.Named i fname := by
      intro hnamed
      rw [protoRegister_dup h hs hnamed hc] at hrun
      cases hrun
    rw [protoRegister_new h hs (not_exists.1 hnew) hc] at hrun
    rcases h.pushCb_spec (r := ⟨fname, none, 0⟩) (not_exists.1 hnew) with ⟨-, hp⟩ | ⟨hl, -⟩
    · rw [hp] at hrun
      cases hrun
    · exact ⟨hnew, hl⟩
  · rintro ⟨hnew, hl⟩ cb arg
    rw [protoRegister_new h hs (not_exists.1 hnew) hc]
    rcases h.pushCb_spec (r := ⟨fname, cb, arg⟩) (not_exists.1 hnew) with ⟨hl', -⟩ | ⟨-, reg, s', hp, -⟩
    · exact absurd hl' (Nat.ne_of_lt hl)
    · exact ⟨s', hp⟩

/-- Registering keeps the records there are under their names, and adds none under another name than the one given. -/
structure Registers (s : State) (fname : Option Bytes) (s' : State) : Prop where
  old : ∀ a r, s.heap a = some r → ∃ r', s'.heap a = some r' ∧ r'.fname = r.fname
  new : ∀ a r', s'.heap a = some r' → (∃ r, s.heap a = some r ∧ r.fname = r'.fname) ∨ fname.map cstr = some r'.fname

theorem Registers.refl (s : State) (fname : Option Bytes) : Registers s fname s :=
  ⟨fun _ r hr => ⟨r, hr, rfl⟩, fun _ r hr => .inl ⟨r, hr, rfl⟩⟩

/-- A record that takes another callback keeps its name. -/
theorem RegOk.recall (h : RegOk s) {a : Addr} {r : FileCb} (hr : s.heap a = some r) (cb : Option Nat) (arg : Nat)
    (fname : Option Bytes) {s' : State}
    (hs' : s' = { s with heap := Function.update s.heap a (some { r with cb := cb, arg := arg }) }) :
    RegOk s' ∧ Keeps s s' ∧ Registers s fname s' := by
  have hold : ∀ b rb, s.heap b = some rb → ∃ rb', s'.heap b = some rb' ∧ rb'.fname = rb.fname := by
    intro b rb hb
    by_cases hba : b = a
    · rw [hba, hr] at hb
      cases hb
      exact ⟨{ r with cb := cb, arg := arg }, by rw [hs', hba]; exact Function.update_self .., rfl⟩
    · exact ⟨rb, by rw [hs', ← hb]; exact Function.update_of_ne hba _ _, rfl⟩
  have hnew : ∀ b rb', s'.heap b = some rb' → ∃ rb, s.heap b = some rb ∧ rb.fname = rb'.fname := by
    intro b rb' hb
    rw [hs'] at hb
    replace hb : Function.update s.heap a (some { r with cb := cb, arg := arg }) b = some rb' := hb
    by_cases hba : b = a
    · rw [hba, Function.update_self] at hb
      cases hb
      exact ⟨r, by rw [hba]; exact hr, rfl⟩
    · rw [Function.update_of_ne hba] at hb
      exact ⟨rb', hb, rfl⟩
  have hmem : ∀ b, b ∈ s'.regs ↔ (s'.heap b).isSome := by
    intro b
    rw [show s'.regs = s.regs by rw [hs']; rfl, h.mem_iff, Option.isSome_iff_exists, Option.isSome_iff_exists]
    constructor
    · rintro ⟨rb, hb⟩
      obtain ⟨rb', hb', -⟩ := hold b rb hb
      exact ⟨rb', hb'⟩
    · rintro ⟨rb', hb'⟩
      obtain ⟨rb, hb, -⟩ := hnew b rb' hb'
      exact ⟨rb, hb⟩
  obtain ⟨a₀, r₀, ha₀, hr₀, hstar⟩ := h.head
  obtain ⟨r₀', hr₀', hn₀⟩ := hold a₀ r₀ hr₀
  refine ⟨⟨⟨?_, ?_, ?_, ?_, hmem, ?_⟩, fun b c rb rc hb hc hn => ?_, a₀, r₀', ?_, hr₀', hn₀.trans hstar⟩, ⟨?_, ?_⟩,
    hold, fun b rb' hb => .inl (hnew b rb' hb)⟩
  · rw [hs']; exact h.wf
  · rw [hs']; exact h.cap
  · rw [hs']; exact h.view
  · rw [hs']; exact h.nodup
  · rw [hs']; exact h.lt_brk
  · obtain ⟨r₁, h₁, e₁⟩ := hnew b rb hb
    obtain ⟨r₂, h₂, e₂⟩ := hnew c rc hc
    exact h.names b c r₁ r₂ h₁ h₂ (e₁.trans (hn.trans e₂.symm))
  · rw [hs']; exact ha₀
  · rw [hs']
  · intro b rb' _ hb
    obtain ⟨rb, hb', hn⟩ := hnew b rb' hb
    exact ⟨rb, hb', hn.symm⟩

theorem RegOk.registers_push (h : RegOk s) {fname : Bytes} {cb : Option Nat} {arg : Nat} {reg : Vec Addr} :
    Registers s (some fname) { s with
      fcbReg := reg, heap := Function.update s.heap s.brk (some ⟨cstr fname, cb, arg⟩), brk := s.brk + 1 } := by
  refine ⟨fun b rb hb => ⟨rb, ?_, rfl⟩, fun b rb hb => ?_⟩
  · have hlt : b < s.brk := h.lt_brk b ((h.mem_iff b).2 (by rw [hb]; rfl))
    rw [← hb]
    exact Function.update_of_ne (Nat.ne_of_lt hlt) _ _
  · replace hb : Function.update s.heap s.brk (some ⟨cstr fname, cb, arg⟩) b = some rb := hb
    by_cases hbrk : b = s.brk
    · rw [hbrk, Function.update_self] at hb
      cases hb
      exact .inr rfl
    · rw [Function.update_of_ne hbrk] at hb
      exact .inl ⟨rb, hb, rfl⟩

/-- **`nftp_proto_register` on a well-formed registry** leaves one, and a refused call leaves the state as it was. -/
theorem protoRegister_spec (h : RegOk s) (fname : Option Bytes) (cb : Option Nat) (arg : Nat) :
    ∃ rv s', protoRegister s fname cb arg = .ok (rv, s') ∧ RegOk s' ∧ Keeps s s' ∧ s' = s.withReg s' ∧
      (rv ≠ .ok → s' = s) ∧ Registers s fname s' := by
  have hrefuse : ∀ rv : Rv, ∃ rv' s', (.ok (rv, s) : Except Fault (Rv × State)) = .ok (rv', s') ∧ RegOk s' ∧ Keeps s s' ∧
      s' = s.withReg s' ∧ (rv' ≠ .ok → s' = s) ∧ Registers s fname s' :=
    fun rv => ⟨rv, s, rfl, h, .refl s, rfl, fun _ => rfl, .refl s fname⟩
  cases fname with
  | none => exact hrefuse .filename
  | some fname =>
    by_cases hs : cstr fname = star
    · -- the record at the front takes the callback
      obtain ⟨a, r, ha, hr, hstar⟩ := h.head
      have hget := h.toRecords.get h.pos
      obtain ⟨hpos, hae⟩ := List.getElem?_eq_some_iff.1 ha
      rw [hae] at hget
      have hlen : s.fcbReg.len ≠ 0 := by rw [← h.length]; omega
      have hrun : protoRegister s (some fname) cb arg =
          .ok (.ok, { s with heap := Function.update s.heap a (some { r with cb := cb, arg := arg }) }) := by
        have hd : s.deref (some a) = .ok (a, r) := deref_eq_ok.2 ⟨rfl, hr⟩
        have hget0 : vecGet s.fcbReg 0 = .ok (.ok, some a) := hget
        have hne : ¬ r.fname ≠ cstr fname := fun hne => hne (hstar.trans hs.symm)
        simp only [protoRegister, if_pos hs, if_neg hlen, hget0, bind_ok, hd, ne_eq, not_true_eq_false, if_false, if_neg hne]
      obtain ⟨hok, hk, hrecs⟩ := h.recall hr cb arg (some fname) rfl
      exact ⟨.ok, _, hrun, hok, hk, rfl, fun hne => absurd rfl hne, hrecs⟩
    · obtain ⟨o, hrun, -, hnone⟩ := h.findName_tail hs
      cases o with
      | some j =>
        have : protoRegister s (some fname) cb arg = .ok (.ht, s) := by
          simp only [protoRegister, if_neg hs, hrun, bind_ok, ne_eq, not_true_eq_false, if_false, Option.isSome_some,
            if_true]
        rw [this]
        exact hrefuse .ht
      | none =>
        have : protoRegister s (some fname) cb arg = pushCb s ⟨cstr fname, cb, arg⟩ := by
          simp only [protoRegister, if_neg hs, hrun, bind_ok, ne_eq, not_true_eq_false, if_false, Option.isSome_none,
            Bool.false_eq_true]
        rw [this]
        rcases h.pushCb_spec (r := ⟨cstr fname, cb, arg⟩) (hnone rfl) with ⟨-, hp⟩ | ⟨-, reg, s', hp, hok, rfl, -, -⟩
        · rw [hp]
          exact hrefuse .overflow
        · exact ⟨.ok, _, hp, hok, keeps_push, rfl, fun hne => absurd rfl hne, h.registers_push⟩

/-- The record is the one `nftp_proto_unregister` releases for a name. -/
def State.Releases (s : State) (fname : Option Bytes) (a : Addr) : Prop :=
  ∃ r, s.heap a = some r ∧ r.fname ≠ star ∧ fname.map cstr = some r.fname

instance (s : State) (fname : Option Bytes) (a : Addr) : Decidable (s.Releases fname a) :=
  inferInstanceAs (Decidable (∃ r, s.heap a = some r ∧ r.fname ≠ star ∧ fname.map cstr = some r.fname))

/-- **`nftp_proto_unregister` on a well-formed registry.** -/
theorem protoUnregister_spec (h : RegOk s) (fname : Option Bytes) :
    ∃ rv s', protoUnregister s fname = .ok (rv, s') ∧ RegOk s' ∧ Keeps s s' ∧ s' = s.withReg s' ∧
      (rv ≠ .ok → s' = s) ∧ ∀ b, s'.heap b = if s.Releases fname b then none else s.heap b := by
  have hrefuse : ∀ rv : Rv, (∀ b, ¬ s.Releases fname b) → ∃ rv' s', (.ok (rv, s) : Except Fault (Rv × State)) = .ok (rv', s') ∧
      RegOk s' ∧ Keeps s s' ∧ s' = s.withReg s' ∧ (rv' ≠ .ok → s' = s) ∧
      ∀ b, s'.heap b = if s.Releases fname b then none else s.heap b :=
    fun rv hno => ⟨rv, s, rfl, h, .refl s, rfl, fun _ => rfl, fun b => by rw [if_neg (hno b)]⟩
  cases fname with
  | none => exact hrefuse .filename fun b ⟨r, _, _, hn⟩ => by cases hn
  | some fname =>
    by_cases hs : cstr fname = star
    · have : protoUnregister s (some fname) = .ok (.filename, s) := by simp only [protoUnregister, if_pos hs]
      rw [this]
      exact hrefuse .filename fun b ⟨r, _, hne, hn⟩ => hne ((Option.some.inj hn).symm.trans hs)
    · obtain ⟨o, hrun, hsome, hnone⟩ := h.findName_tail hs
      cases o with
      | none =>
        have : protoUnregister s (some fname) = .ok (.ht, s) := by
          simp only [protoUnregister, if_neg hs, hrun, bind_ok, ne_eq, not_true_eq_false, if_false]
        rw [this]
        refine hrefuse .ht fun b ⟨r, hr, _, hn⟩ => ?_
        obtain ⟨i, hi⟩ := h.index hr
        exact hnone rfl i ⟨b, r, hi, hr, (Option.some.inj hn).symm⟩
      | some j =>
        obtain ⟨h0, a, r, ha, hr, hn⟩ := hsome j rfl
        obtain ⟨reg, hdel, hfree, hok⟩ := h.delete ha h0
        refine ⟨.ok, _, ?_, hok, keeps_release, rfl, fun hne => absurd rfl hne, fun b => ?_⟩
        · simp only [protoUnregister, if_neg hs, hrun, bind_ok, ne_eq, not_true_eq_false, if_false, hdel, hfree, pure_ok]
        · show Function.update s.heap a none b = _
          by_cases hb : b = a
          · rw [if_pos ⟨r, by rw [hb]; exact hr, by rw [hn]; exact hs, by rw [hn]; rfl⟩, hb, Function.update_self]
          · rw [Function.update_of_ne hb, if_neg]
            rintro ⟨rb, hrb, -, hnb⟩
            exact hb (h.names b a rb r hrb hr ((Option.some.inj hnb).symm.trans hn.symm))

/-- **What a HELLO binds**: the record named as the file; or else the default one, and then the file is registered under
the default callback if there is room. -/
theorem bindFcb_spec (h : RegOk s) {fname : Bytes} (hc : cstr fname = fname) :
    ∃ a r s', bindFcb s fname = .ok (some a, s') ∧ s.heap a = some r ∧ a ∈ s.regs ∧
      ((r.fname = fname ∧ s' = s) ∨
       (r.fname = star ∧ (∀ i, ¬ s.Named i fname) ∧
         ((s.fcbReg.len = nftpFiles ∧ s' = s) ∨
          (s.fcbReg.len < nftpFiles ∧ ∃ reg, RegOk s' ∧
            s' = { s with fcbReg := reg, heap := Function.update s.heap s.brk (some ⟨fname, r.cb, r.arg⟩),
                          brk := s.brk + 1 })))) := by
  have hlen := h.length
  obtain ⟨o, hrun, hrec, hat, hnone⟩ := iterName_spec h.toRecords fname s.fcbReg.len 0 none (by omega)
  cases o with
  | some a =>
    obtain ⟨a', r, ha', hr, hn⟩ : ∃ a' r, some a = some a' ∧ s.heap a' = some r ∧ r.fname = fname := by
      rcases hrec with h' | h'
      · cases h'
      · exact h'
    cases ha'
    refine ⟨a, r, s, ?_, hr, (h.mem_iff a).2 (by rw [hr]; rfl), .inl ⟨hn, rfl⟩⟩
    rw [bindFcb, hrun]
    rfl
  | none =>
    have hnew : ∀ i, ¬ s.Named i fname := fun i => hnone rfl i (Nat.zero_le i)
    obtain ⟨a, r, ha, hr, hstar⟩ := h.head
    have hs : fname ≠ star := by
      rintro rfl
      exact hnew 0 ⟨a, r, ha, hr, hstar⟩
    have hget : vecGet s.fcbReg 0 = .ok (.ok, some a) := by
      have := h.toRecords.get h.pos
      rwa [(List.getElem?_eq_some_iff.1 ha).2] at this
    have hd : s.deref (some a) = .ok (a, r) := deref_eq_ok.2 ⟨rfl, hr⟩
    have hbind : bindFcb s fname = (pushCb s ⟨fname, r.cb, r.arg⟩ >>= fun x => .ok (some a, x.2)) := by
      simp only [bindFcb, hrun, bind_ok, hget, hd, protoRegister_new h hs hnew hc, pure_ok]
    have hmem := List.mem_of_getElem? ha
    rcases h.pushCb_spec (r := ⟨fname, r.cb, r.arg⟩) hnew with ⟨hl, hp⟩ | ⟨hl, reg, s', hp, hok, hs', -, -⟩
    · exact ⟨a, r, s, by rw [hbind, hp]; rfl, hr, hmem, .inr ⟨hstar, hnew, .inl ⟨hl, rfl⟩⟩⟩
    · exact ⟨a, r, s', by rw [hbind, hp]; rfl, hr, hmem, .inr ⟨hstar, hnew, .inr ⟨hl, reg, hok, hs'⟩⟩⟩

/-- **The end of a transfer** runs the callback of the record it is bound to and releases that record, unless it is the
default one; a record released before is read all the same. -/
theorem runCb_spec (h : RegOk s) {ctx : Nctx} {a : Addr} (hf : ctx.fcb = some a) :
    (s.heap a = none ∧ runCb s ctx = .error .freed) ∨
    ∃ r s', s.heap a = some r ∧ runCb s ctx = .ok s' ∧ RegOk s' ∧ Keeps s s' ∧
      s' = { s.withReg s' with calls := s.calls ++ callOf ctx.fileid r } ∧
      ∀ b, s'.heap b = if b = a ∧ r.fname ≠ star then none else s.heap b := by
  cases hr : s.heap a with
  | none => left; exact ⟨rfl, by simp [runCb, hf, State.deref, hr]⟩
  | some r =>
    right
    let t : State := { s with calls := s.calls ++ callOf ctx.fileid r }
    have ht : RegOk t :=
      ⟨⟨h.wf, h.cap, h.view, h.nodup, h.mem_iff, h.lt_brk⟩, h.names, h.head⟩
    have hmem : a ∈ t.regs := (h.mem_iff a).2 (by rw [hr]; rfl)
    obtain ⟨o, hfind, hsome, hnone⟩ := findCb_spec ht.toRecords a t.fcbReg.len 0 (by rw [Nat.zero_add]; exact ht.length.symm)
    have hderef : s.deref (some a) = .ok (a, r) := deref_eq_ok.2 ⟨rfl, hr⟩
    cases o with
    | none => exact absurd (by rwa [List.drop_zero]) (hnone rfl)
    | some i =>
      have hi := hsome i rfl
      cases i with
      | zero =>
        have hstar : r.fname = star := (h.star_iff hi hr).2 rfl
        have hrun : runCb s ctx = .ok t := by
          simp only [runCb, hf, hderef, bind_ok]
          exact bind_eq_ok.2 ⟨some 0, hfind, rfl⟩
        refine ⟨r, t, rfl, hrun, ht, ⟨Nat.le_refl _, fun b r' _ hb => ⟨r', hb, rfl⟩⟩, rfl, fun b => ?_⟩
        rw [if_neg (fun hb => hb.2 hstar)]
      | succ i =>
        have hstar : r.fname ≠ star := fun hs => Nat.succ_ne_zero i ((h.star_iff hi hr).1 hs)
        obtain ⟨reg, hdel, hfree, hok⟩ := ht.delete hi (Nat.succ_ne_zero i)
        have hrun : runCb s ctx = .ok { t with fcbReg := reg, heap := Function.update t.heap a none } := by
          simp only [runCb, hf, hderef, bind_ok]
          exact bind_eq_ok.2 ⟨some (i + 1), hfind, bind_eq_ok.2 ⟨_, hdel, hfree⟩⟩
        refine ⟨r, _, rfl, hrun, hok, ⟨(keeps_release (s := t)).brk_le, (keeps_release (s := t)).fname⟩, rfl, fun b => ?_⟩
        show Function.update s.heap a none b = _
        by_cases hb : b = a
        · rw [if_pos ⟨hb, hstar⟩, hb, Function.update_self]
        · rw [if_neg (fun h' => hb h'.1), Function.update_of_ne hb]

/-- **The end of a stopped transfer** releases its record, unless it is the default one or was released before. -/
theorem dropCb_spec (h : RegOk s) (ctx : Nctx) :
    ∃ s', dropCb s ctx = .ok s' ∧ RegOk s' ∧ Keeps s s' ∧ s' = s.withReg s' ∧
      ∀ b, s'.heap b = if ctx.fcb = some b ∧ (∃ r, s.heap b = some r ∧ r.fname ≠ star) then none else s.heap b := by
  cases hf : ctx.fcb with
  | none =>
    refine ⟨s, by simp only [dropCb, hf], h, .refl s, rfl, fun b => ?_⟩
    rw [if_neg (fun h' => by cases h'.1)]
  | some a =>
    obtain ⟨o, hfind, hsome, hnone⟩ := findCb_spec h.toRecords a s.fcbReg.len 0 (by rw [Nat.zero_add]; exact h.length.symm)
    match o, hsome, hnone, hfind with
    | none, _, hnone, hfind =>
      refine ⟨s, by simp only [dropCb, hf, hfind, bind_ok], h, .refl s, rfl, fun b => ?_⟩
      have ha : a ∉ s.regs := by have := hnone rfl; rwa [List.drop_zero] at this
      rw [if_neg]
      rintro ⟨hb, r, hr, -⟩
      cases hb
      exact ha ((h.mem_iff a).2 (by rw [hr]; rfl))
    | some 0, hsome, _, hfind =>
      refine ⟨s, by simp only [dropCb, hf, hfind, bind_ok], h, .refl s, rfl, fun b => ?_⟩
      rw [if_neg]
      rintro ⟨hb, r, hr, hn⟩
      cases hb
      exact hn ((h.star_iff (hsome 0 rfl) hr).2 rfl)
    | some (i + 1), hsome, _, hfind =>
      have hi := hsome (i + 1) rfl
      obtain ⟨r, hr, -⟩ := h.deref (List.mem_of_getElem? hi)
      have hstar : r.fname ≠ star := fun hs => Nat.succ_ne_zero i ((h.star_iff hi hr).1 hs)
      obtain ⟨reg, hdel, hfree, hok⟩ := h.delete hi (Nat.succ_ne_zero i)
      have hdel' : vecDelete s.fcbReg ((i + 1 : Nat) : Int) = .ok (.ok, some a, reg) := hdel
      refine ⟨_, by simp only [dropCb, hf, hfind, bind_ok, hdel']; exact hfree, hok, keeps_release, rfl, fun b => ?_⟩
      show Function.update s.heap a none b = _
      by_cases hb : b = a
      · rw [if_pos ⟨by rw [hb], r, by rw [hb]; exact hr, hstar⟩, hb, Function.update_self]
      · rw [if_neg (fun h' => hb (Option.some.inj h'.1).symm), Function.update_of_ne hb]

end Nftp
