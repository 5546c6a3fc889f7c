import Nftp.Lifecycle
/-!
# Teardown — `nftp_proto_fini`, and the program over any number of starts

`nftp_proto_fini` stands for no fault in any state the calls lead to: it pops and releases every record, and releases the
context of every pointer in `files`.  What it leaves allocated is what the calls have lost, one context for each call that
leaks; `nftp_proto_init` then sets the program up as before.
-/
namespace Nftp

open Lib
open Function (update update_self update_of_ne)

variable {m m' : Machine} {a : Addr}

/-! ## `nftp_proto_fini` -/

/-- Popping the first record and releasing it. -/
theorem Records.pop {s : State} (hs : Records s) (hl : 0 < s.fcbReg.len) : ∃ a reg,
    vecPop s.fcbReg .head = .ok (.ok, some a, reg) ∧
    State.freeCb { s with fcbReg := reg } (some a) = .ok { s with fcbReg := reg, heap := update s.heap a none } ∧
    Records { s with fcbReg := reg, heap := update s.heap a none } ∧ reg.len + 1 = s.fcbReg.len := by
  obtain ⟨reg, hpop, hwf, hview, hcap, hlen⟩ := vecPop_head hs.wf hl
  cases hregs : s.regs with
  | nil =>
    have hlen := hs.length
    rw [hregs] at hlen
    exact absurd hlen (Nat.ne_of_lt hl)
  | cons a l =>
    have hat : s.fcbReg.at 0 = some a := by
      have hv := Vec.view_getElem? s.fcbReg hl
      rw [hs.view, hregs] at hv
      exact (Option.some.inj hv).symm
    have hmem : a ∈ s.regs := by rw [hregs]; exact List.mem_cons_self
    obtain ⟨r, hr, -⟩ := hs.deref hmem
    have hnodup := hs.nodup
    rw [hregs, List.nodup_cons] at hnodup
    have hrest : State.regs { s with fcbReg := reg, heap := update s.heap a none } = l :=
      regs_of_view (by rw [hview, hs.view, hregs]; rfl)
    refine ⟨a, reg, by rw [hpop, hat], ?_, ⟨hwf, hcap.trans hs.cap, ?_, ?_, fun b => ?_, fun b hb => ?_⟩, hlen⟩
    · simp only [State.freeCb, State.deref, hr, bind_ok, pure_ok]
    · rw [hrest, hview, hs.view, hregs]
      rfl
    · rw [hrest]
      exact hnodup.2
    · rw [hrest]
      show b ∈ l ↔ (update s.heap a none b).isSome
      by_cases hb : b = a
      · rw [hb, update_self]
        exact iff_of_false hnodup.1 Bool.false_ne_true
      · rw [update_of_ne hb, ← hs.mem_iff, hregs, List.mem_cons, or_iff_right hb]
    · rw [hrest] at hb
      exact hs.lt_brk b (by rw [hregs]; exact List.mem_cons_of_mem a hb)

/-- **The loop over the registry** releases every record. -/
theorem popRecords_spec : ∀ (n : Nat) {s : State}, Records s → s.fcbReg.len = n →
    ∃ reg, Machine.popRecords s n = .ok { s with fcbReg := reg, heap := fun _ => none }
  | 0, s, hs, hn => by
    have hempty : s.heap = fun _ => none := by
      funext a
      have hregs : s.regs = [] := List.eq_nil_of_length_eq_zero (hs.length.trans hn)
      have hmem := hs.mem_iff a
      rw [hregs] at hmem
      simpa using hmem
    refine ⟨s.fcbReg, ?_⟩
    rw [Machine.popRecords, if_pos hn, ← hempty]
  | n + 1, s, hs, hn => by
    obtain ⟨a, reg, hpop, hfree, hs', hlen⟩ := hs.pop (by omega)
    obtain ⟨reg', hrun⟩ := popRecords_spec n hs' (show reg.len = n by omega)
    refine ⟨reg', ?_⟩
    rw [Machine.popRecords, if_neg (by omega), hpop, bind_ok]
    simp only [hfree, bind_ok]
    exact hrun

/-- **The walk over `files`** releases the contexts of distinct entries. -/
theorem freeAll_spec : ∀ (l : List (Entry UInt32 Addr)) (m : Machine), (l.map (·.2)).Nodup →
    (∀ x ∈ l, (m.ctxs x.2).isSome) →
    l.foldlM (fun m x => m.ctxFree x.2) m =
      .ok { m with ctxs := fun b => if b ∈ l.map (·.2) then none else m.ctxs b }
  | [], m, _, _ => by simp only [List.map_nil, List.not_mem_nil, if_false]; rfl
  | x :: l, m, hnodup, hall => by
    obtain ⟨hx, hnodup⟩ := List.nodup_cons.1 hnodup
    obtain ⟨c, hc⟩ := Option.isSome_iff_exists.1 (hall x List.mem_cons_self)
    have hfree : m.ctxFree x.2 = .ok { m with ctxs := update m.ctxs x.2 none } := by rw [Machine.ctxFree, hc]
    rw [List.foldlM_cons, hfree, ok_bind, freeAll_spec l _ hnodup fun y hy => ?_]
    · congr 2
      funext b
      simp only [List.map_cons, List.mem_cons]
      by_cases hb : b = x.2
      · simp only [hb, true_or, if_true, update_self, ite_self]
      · simp only [or_iff_right hb, update_of_ne hb]
    · have hne : y.2 ≠ x.2 := fun he => hx (List.mem_map.2 ⟨y, hy, he⟩)
      show (update m.ctxs x.2 none y.2).isSome
      rw [update_of_ne hne]
      exact hall y (List.mem_cons_of_mem x hy)

/-- **`nftp_proto_fini` stands for no fault**: it releases every record and every context but those lost. -/
theorem protoFini_spec (hm : m.Ok) (hi : Inv m.abs) : ∃ rest files senderfiles ctxs,
    m.protoFini = .ok (.ok, ⟨rest, files, senderfiles, ctxs, m.ctxBrk⟩) ∧
    rest = { m.rest with fcbReg := rest.fcbReg, heap := fun _ => none, recvdir := none } ∧
    ∀ a, (ctxs a).isSome ↔ m.Lost a := by
  have hreg : RegOk m.rest := hi.reg.of_eq rfl rfl rfl
  obtain ⟨reg, hpop⟩ := popRecords_spec _ hreg.toRecords rfl
  obtain ⟨l, hwalk, hnodup, hmem⟩ := hm.files.iterate_eq
  have hkey : ∀ a, a ∈ l.map (·.2) ↔ ∃ k, m.files.get k = some a := fun a => by
    rw [List.mem_map]
    constructor
    · rintro ⟨⟨k, b⟩, hx, rfl⟩
      exact ⟨k, (hmem k b).1 hx⟩
    · rintro ⟨k, hk⟩
      exact ⟨⟨k, a⟩, (hmem k a).2 hk, rfl⟩
  have hdistinct : (l.map (·.2)).Nodup := hnodup.map_on fun x hx y hy hxy => by
    obtain ⟨k, b⟩ := x
    obtain ⟨k', b'⟩ := y
    cases hxy
    rw [hm.inj ((hmem k b).1 hx) ((hmem k' b).1 hy)]
  have hall : ∀ x ∈ l, (m.ctxs x.2).isSome := fun x hx => by
    obtain ⟨c, hc, -⟩ := hm.owned x.1 x.2 ((hmem x.1 x.2).1 hx)
    rw [hc]
    rfl
  obtain ⟨files₁, files₂, hclear, hdestroy⟩ := hm.files.clear_destroy
  obtain ⟨senders₁, senders₂, hclear', hdestroy'⟩ := hm.senderfiles.clear_destroy
  obtain ⟨l', hwalk', -⟩ := hm.senderfiles.iterate_eq
  have hfree := freeAll_spec l { m with rest := { m.rest with fcbReg := reg, heap := fun _ => none } } hdistinct hall
  refine ⟨{ m.rest with fcbReg := reg, heap := fun _ => none, recvdir := none }, files₂, senders₂,
    fun b => if b ∈ l.map (·.2) then none else m.ctxs b, ?_, rfl, fun a => ?_⟩
  · unfold Machine.protoFini
    simp only [hpop, onBase, Except.mapError, ok_bind, hwalk, onTable_ok, hfree, hclear, hdestroy, hwalk', hclear',
      hdestroy']
    rfl
  · rw [Machine.Lost]
    show (if a ∈ l.map (·.2) then none else m.ctxs a).isSome ↔ _
    by_cases ha : a ∈ l.map (·.2)
    · rw [if_pos ha]
      obtain ⟨k, hk⟩ := (hkey a).1 ha
      exact iff_of_false Bool.false_ne_true fun hl => hl.2 k hk
    · rw [if_neg ha, and_iff_left]
      exact fun k hk => ha ((hkey a).2 ⟨k, hk⟩)

/-! ## Starting over -/

/-- `nftp_proto_init` where no record is allocated. -/
theorem protoInit_spec {s : State} (hheap : s.heap = fun _ => none) : ∃ s', protoInit s = .ok (.ok, s') ∧ RegOk s' ∧
    s' = { s with fcbReg := s'.fcbReg, heap := s'.heap, brk := s'.brk, files := fun _ => none, senderfiles := fun _ => none } := by
  let s₀ : State := { s with fcbReg := vecAlloc nftpFiles }
  have hrec : Records s₀ := ⟨vecAlloc_wf _, rfl, rfl, List.nodup_nil, fun a => by simp [s₀, State.regs, hheap],
    fun a ha => by cases ha⟩
  obtain ⟨reg, hpush, -, hrec', hregs⟩ := pushCb_ok hrec (show 0 < nftpFiles by decide) ⟨star, none, 0⟩
  have hrun : protoInit s = (pushCb s₀ ⟨star, none, 0⟩ >>= fun x =>
      if x.1 ≠ .ok then .ok (x.1, x.2)
      else .ok (.ok, { x.2 with files := fun _ => none, senderfiles := fun _ => none })) := rfl
  rw [hrun, hpush]
  refine ⟨_, rfl, RegOk.of_eq (s := { s₀ with fcbReg := reg, heap := update s₀.heap s₀.brk (some ⟨star, none, 0⟩), brk := s₀.brk + 1 })
    ⟨hrec', fun a b ra rb ha hb _ => ?_, ?_⟩ rfl rfl rfl, rfl⟩
  · have h0 : ∀ x rx, update s₀.heap s₀.brk (some (⟨star, none, 0⟩ : FileCb)) x = some rx → x = s₀.brk := by
      intro x rx hx
      by_contra hne
      rw [update_of_ne hne, show s₀.heap = fun _ => none from hheap] at hx
      cases hx
    rw [h0 a ra ha, h0 b rb hb]
  · exact ⟨s₀.brk, ⟨star, none, 0⟩, by rw [hregs]; rfl, by simp only [update_self], rfl⟩

/-- The program restarted: what the disk and the log of callbacks hold stays, the directory is gone. -/
def State.restart (s : State) : Except Fault (Rv × State) := protoInit { s with heap := fun _ => none, recvdir := none }

/-- **A restart stands for no fault** and leaves a program as `nftp_proto_init` does, with the contexts lost before. -/
theorem restart_spec (hm : m.Ok) (hi : Inv m.abs) : ∃ m', m.restart = .ok (.ok, m') ∧ m'.Ok ∧ Inv m'.abs ∧
    m.abs.restart = .ok (.ok, m'.abs) ∧ ∀ a, m'.Lost a ↔ m.Lost a := by
  obtain ⟨bare, files, senderfiles, ctxs, hfini, hbare, hlost⟩ := protoFini_spec hm hi
  obtain ⟨rest, hinit, hreg, hrest⟩ := protoInit_spec (show bare.heap = fun _ => none by rw [hbare])
  obtain ⟨hup, hget⟩ := HashTable.setup_up (ν := Addr) (show nftpFiles < 2 ^ 61 by decide)
  obtain ⟨hup', hget'⟩ := HashTable.setup_up (ν := Bytes) (show nftpFiles < 2 ^ 61 by decide)
  let m' : Machine := { Machine.started rest with ctxs := ctxs, ctxBrk := m.ctxBrk }
  have hctx : m'.contexts = fun _ => none := by
    funext k
    rw [Machine.contexts, show m'.files.get k = none from hget k]
    rfl
  have hsender : m'.senderfiles.get = fun _ => none := funext hget'
  have habs : m'.abs = rest := by
    show rest.withTables m'.contexts m'.senderfiles.get = rest
    rw [hctx, hsender, hrest]
    rfl
  refine ⟨m', ?_, ⟨hup, hup', fun k a hk => ?_, fun a ha => ?_⟩, ?_, ?_, fun a => ?_⟩
  · unfold Machine.restart Machine.protoInit
    simp only [hfini, ok_bind, hinit]
    rfl
  · rw [show m'.files.get k = none from hget k] at hk
    cases hk
  · have hnot : ¬ (ctxs a).isSome := fun hs => by
      have hl := ((hlost a).1 hs).1
      rw [hm.fresh a ha] at hl
      cases hl
    simpa using hnot
  · rw [habs]
    exact ⟨hreg, fun k c hc => by rw [hrest] at hc; cases hc⟩
  · rw [habs, ← hinit, hbare]
    rfl
  · rw [← hlost]
    exact and_iff_left fun k hk => by rw [show m'.files.get k = none from hget k] at hk; cases hk

/-! ## Runs -/

/-- A call with its answer, or a restart, and the number of calls that leaked before it and after it. -/
def LifeStep (x : Machine × Nat) (e : Option (Event × Answer)) (y : Machine × Nat) : Prop :=
  match e with
  | none => x.1.restart = .ok (.ok, y.1) ∧ y.2 = x.2
  | some (e, ans) => MachineStep x.1 (e, ans) y.1 ∧ y.2 = x.2 + if e.Leaks x.1.abs ans.rv then 1 else 0

/-- What holds over any number of starts, with as many contexts lost as calls leaked. -/
structure Alive (m : Machine) (n : Nat) : Prop where
  ok : m.Ok
  inv : Inv m.abs
  lost : m.lost.card = n

theorem call_inv {s : State} {e : Event} {r : Ret} (hi : Inv s) (hr : s.call e = .ok r) : Inv r.st :=
  step_inv hi (step_iff_call.2 ⟨⟨r.rv, r.rmsg, r.rlen⟩, hr⟩)

theorem life_step {x y : Machine × Nat} {e : Option (Event × Answer)} (hx : Alive x.1 x.2) (hs : LifeStep x e y) :
    Alive y.1 y.2 := by
  cases e with
  | none =>
    obtain ⟨hrun, hn⟩ := hs
    obtain ⟨m', hrun', hm', hi', -, hlost⟩ := restart_spec hx.ok hx.inv
    rw [hrun'] at hrun
    cases hrun
    refine ⟨hm', hi', ?_⟩
    have hset : y.1.lost = x.1.lost := by
      ext a
      rw [mem_lost hm', hlost, mem_lost hx.ok]
    rw [hset, hx.lost, hn]
  | some e =>
    obtain ⟨hcall, hn⟩ := hs
    obtain ⟨hm', hcall'⟩ := machineStep_simulates hx.ok hcall
    refine ⟨hm', call_inv hx.inv hcall', ?_⟩
    rw [(call_loses hx.ok hcall).card hx.ok hm', hx.lost, hn]

/-- **The life of the program**, over any calls and any restarts: no call fails for a table or a context misused,
`nftp_proto_fini` and `nftp_proto_init` succeed whenever they are called, and what `nftp_proto_fini` leaves allocated is one
context for each call that leaked. -/
theorem life_accounted {m₀ : Machine} {n : Nat} {es : List (Option (Event × Answer))} (hb : m₀.Booted)
    (hrun : Run LifeStep (m₀, 0) es (m, n)) :
    Inv m.abs ∧ (∀ e x, m.call e = .error x → ∃ f, x = .base f ∧ m.abs.call e = .error f) ∧
    (∃ m', m.protoFini = .ok (.ok, m') ∧ (∀ a, m'.rest.heap a = none) ∧ (∀ a, (m'.ctxs a).isSome ↔ a ∈ m.lost)) ∧
    (∃ m', m.restart = .ok (.ok, m') ∧ m.abs.restart = .ok (.ok, m'.abs)) ∧ m.lost.card = n := by
  obtain ⟨hm₀, hb₀⟩ := hb.ok
  have hstart : Alive m₀ 0 := by
    refine ⟨hm₀, booted_inv hb₀, ?_⟩
    rw [Finset.card_eq_zero, Finset.eq_empty_iff_forall_notMem]
    intro a ha
    have hsome := ((mem_lost hm₀).1 ha).1
    rw [(booted_iff.1 hb).2] at hsome
    cases hsome
  have halive : Alive m n := hrun.invariant (I := fun x => Alive x.1 x.2) (fun _ _ _ => life_step) hstart
  refine ⟨halive.inv, fun e x hx => ?_, ?_, ?_, halive.lost⟩
  · obtain ⟨f, hf, hbase⟩ := (call_simulates halive.ok e).of_error hx
    exact ⟨f, hbase, hf⟩
  · obtain ⟨rest, files, senderfiles, ctxs, hfini, hrest, hlost⟩ := protoFini_spec halive.ok halive.inv
    exact ⟨_, hfini, fun a => congrFun (congrArg State.heap hrest) a, fun a => (hlost a).trans (mem_lost halive.ok).symm⟩
  · obtain ⟨m', hrestart, -, -, habs, -⟩ := restart_spec halive.ok halive.inv
    exact ⟨m', hrestart, habs⟩

/-- Take the calls and restarts in order, as long as each answers as it says. -/
def Machine.live (x : Machine × Nat) : List (Option (Event × Answer)) → Option (Machine × Nat)
  | [] => some x
  | none :: es =>
    match x.1.restart with
    | .ok (.ok, m) => Machine.live (m, x.2) es
    | _ => none
  | some e :: es =>
    match x.1.play [e] with
    | some m => Machine.live (m, x.2 + if e.1.Leaks x.1.abs e.2.rv then 1 else 0) es
    | none => none

theorem live_sound : ∀ {es : List (Option (Event × Answer))} {x y : Machine × Nat}, Machine.live x es = some y →
    Run LifeStep x es y
  | [], x, y, h => by cases h; exact .refl
  | none :: es, x, y, h => by
    unfold Machine.live at h
    split at h
    · rename_i m hm
      have hs : LifeStep x none (m, x.2) := ⟨hm, rfl⟩
      exact (Run.single hs).append (live_sound h)
    · cases h
  | some e :: es, x, y, h => by
    unfold Machine.live at h
    split at h
    · rename_i m hm
      have hs : LifeStep x (some e) (m, x.2 + if e.1.Leaks x.1.abs e.2.rv then 1 else 0) :=
        ⟨run_single_iff.1 (machine_play_sound hm), rfl⟩
      exact (Run.single hs).append (live_sound h)
    · cases h

/-- A HELLO, a second one of the same name, which loses the first one's context, and a restart. -/
theorem life_accounted_twice : ∃ (m₀ : Machine) (x : Machine × Nat), m₀.Booted ∧ x.1.lost.card = 1 ∧ Run LifeStep (m₀, 0)
    [some (.msg .good (helloBytes 0 1 [0x66] 0), ⟨.ok, some (ackOf 0 [0x66]), 10⟩),
      some (.msg .good (helloBytes 0 1 [0x66] 0), ⟨.ht, none, 0⟩), none] x := by
  obtain ⟨x, hx, hn⟩ : ∃ x, ((Machine.bootWith none 4 Fs.empty).bind fun m => Machine.live (m, 0)
      [some (.msg .good (helloBytes 0 1 [0x66] 0), ⟨.ok, some (ackOf 0 [0x66]), 10⟩),
        some (.msg .good (helloBytes 0 1 [0x66] 0), ⟨.ht, none, 0⟩), none]) = some x ∧ x.2 = 1 :=
    Option.map_eq_some_iff.1 (show Option.map Prod.snd _ = some 1 by decide +kernel)
  obtain ⟨m₀, hm₀, hlive⟩ := Option.bind_eq_some_iff.1 hx
  have hb := bootWith_booted hm₀
  have hrun := live_sound hlive
  exact ⟨m₀, x, hb, (life_accounted hb hrun).2.2.2.2.trans hn, hrun⟩

end Nftp
