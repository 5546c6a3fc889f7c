import Mathlib.Data.FinEnum
import Nftp.Memory
import Nftp.Frame
import Nftp.Table
import Nftp.Trace
/-!
# Simulation — the endpoint on its tables and heap does what the endpoint on maps does

`Machine.abs` reads a machine as a state of `Proto`: under a key is the context the pointer under that key leads to.  The
calls keep every pointer of `files` leading to a context of its key, so that each call of a machine answers what the call
of its state answers, and fails where it fails: no table and no context is ever misused.
-/
namespace Nftp

open Lib
open Function (update update_self update_of_ne)

/-! ## A table as a function -/

namespace HashTable

variable {ν : Type} {t : HashTable UInt32 ν} {k : UInt32} {v : ν}

/-- What `ht_lookup` finds. -/
def get (t : HashTable UInt32 ν) (k : UInt32) : Option ν :=
  match t.lookup k with
  | .ok v => v
  | .error _ => none

/-- The table is set up. -/
def Up (t : HashTable UInt32 ν) : Prop := ∃ m, t.Is m

theorem Holds.get_eq {hash : Bytes → UInt64} {chains : List (List (Entry UInt32 ν))} {m : Finmap fun _ : UInt32 => ν}
    (h : t.Holds hash chains m) (k : UInt32) : t.get k = m.lookup k := by
  rw [HashTable.get, HashTable.lookup, h.search]

/-- There are no more file ids than a `uint32_t` has values, so that the array never grows beyond what can be allocated. -/
theorem Holds.grown_lt {hash : Bytes → UInt64} {chains : List (List (Entry UInt32 ν))} {m : Finmap fun _ : UInt32 => ν}
    (h : t.Holds hash chains m) : t.grown < 2 ^ 61 := by
  have hcard : t.size ≤ 2 ^ 32 :=
    calc t.size = m.keys.card := h.size.trans (Multiset.card_map _ _).symm
      _ ≤ Fintype.card UInt32 := Finset.card_le_univ _
      _ = 2 ^ 32 := FinEnum.card_eq_fintypeCard.symm.trans FinEnum.card_UInt32
  rw [grown]
  split
  · rw [htGrowthFactor]
    omega
  · exact h.counted

theorem setup_up {n : Nat} (hn : n < 2 ^ 61) : (setup n : Int × HashTable UInt32 ν).2.Up ∧
    ∀ k, (setup n : Int × HashTable UInt32 ν).2.get k = none := by
  obtain ⟨-, hash, chains, h⟩ := setup_is (κ := UInt32) (ν := ν) hn
  exact ⟨⟨∅, hash, chains, h⟩, fun k => by rw [h.get_eq]; rfl⟩

theorem Up.contains_eq (h : t.Up) (k : UInt32) : t.contains k = .ok (if (t.get k).isSome then htFound else htNotFound) := by
  obtain ⟨m, hash, chains, h⟩ := h
  rw [h.contains, h.get_eq]
  simp only [Finmap.lookup_isSome]

theorem Up.lookup_eq (h : t.Up) (k : UInt32) : t.lookup k = .ok (t.get k) := by
  obtain ⟨m, hash, chains, h⟩ := h
  rw [h.get_eq, lookup, h.search]

/-- `ht_insert` is `htInsert` on what the table finds. -/
theorem Up.insert_eq (h : t.Up) (k : UInt32) (v : ν) :
    ∃ t', t.insert k v = .ok ((htInsert t.get k v).1, t') ∧ t'.Up ∧ t'.get = (htInsert t.get k v).2 := by
  obtain ⟨m, hash, chains, h⟩ := h
  obtain ⟨chains', t', hrun, h', -⟩ := h.insert h.grown_lt k v
  refine ⟨t', ?_, ⟨_, hash, chains', h'⟩, funext fun k' => ?_⟩
  · rw [hrun, htInsert, h.get_eq]
    simp only [Finmap.lookup_isSome, htUpdated, htInserted]
  · rw [h'.get_eq]
    show _ = update t.get k (some v) k'
    by_cases hk : k' = k
    · rw [hk, Finmap.lookup_insert, update_self]
    · rw [Finmap.lookup_insert_of_ne _ hk, update_of_ne hk, h.get_eq]

theorem Up.erase_eq (h : t.Up) (k : UInt32) :
    ∃ t', t.erase k = .ok (htSuccess, t') ∧ t'.Up ∧ t'.get = htErase t.get k := by
  obtain ⟨m, hash, chains, h⟩ := h
  obtain ⟨chains', t', hrun, h', -⟩ := h.erase k
  refine ⟨t', hrun, ⟨_, hash, chains', h'⟩, funext fun k' => ?_⟩
  rw [h'.get_eq, htErase]
  by_cases hk : k' = k
  · rw [hk, Finmap.lookup_erase, update_self]
  · rw [Finmap.lookup_erase_ne hk, update_of_ne hk, h.get_eq]

/-- `ht_iterate` visits each entry of the table once. -/
theorem Up.iterate_eq (h : t.Up) : ∃ l : List (Entry UInt32 ν), t.iterate = .ok l ∧ l.Nodup ∧
    ∀ k v, ⟨k, v⟩ ∈ l ↔ t.get k = some v := by
  obtain ⟨m, hash, chains, h⟩ := h
  have hkeys := nodupKeys_of_entries h.stands.entries
  refine ⟨chains.flatten, h.iterate, hkeys.nodup, fun k v => ?_⟩
  rw [h.get_eq, lookup_of_entries h.stands.entries, ← List.mem_dlookup_iff hkeys, Option.mem_def]

theorem Up.clear_destroy (h : t.Up) : ∃ t₁ t₂, t.clear = .ok (htSuccess, t₁) ∧ t₁.destroy = .ok (htSuccess, t₂) := by
  obtain ⟨m, hash, chains, h⟩ := h
  obtain ⟨chains', t₁, hclear, h₁, -⟩ := h.clear
  exact ⟨t₁, _, hclear, h₁.destroy⟩

end HashTable

/-! ## A machine as a state -/

/-- The context under each key. -/
def Machine.contexts (m : Machine) (k : UInt32) : Option Nctx := (m.files.get k).bind m.ctxs

def Machine.abs (m : Machine) : State := m.rest.withTables m.contexts m.senderfiles.get

/-- Both tables are set up, every pointer of `files` leads to a context of its key, and the addresses not yet handed out
are free. -/
structure Machine.Ok (m : Machine) : Prop where
  files : m.files.Up
  senderfiles : m.senderfiles.Up
  owned : ∀ k a, m.files.get k = some a → ∃ c, m.ctxs a = some c ∧ c.fileid = k
  fresh : ∀ a, m.ctxBrk ≤ a → m.ctxs a = none

/-- The same answer, of a machine and of its state. -/
def MachineRet.Answers (x : MachineRet) (y : Ret) : Prop := x.st.Ok ∧ y = ⟨x.rv, x.rmsg, x.rlen, x.st.abs⟩

/-- A fault of the machine is one of its state. -/
def IsBase (e' : MemFault) (e : Fault) : Prop := e' = .base e

abbrev Simulates {α β : Type} (R : α → β → Prop) (x : Except MemFault α) (y : Except Fault β) : Prop := Alike IsBase R x y

variable {m : Machine} {h : Host} {n : Packet} {k : UInt32} {a : Addr} {c : Nctx} {α β : Type}

theorem simulates_base {R : α → β → Prop} {x : Except Fault α} {y : Except Fault β} (h : Alike Eq R x y) :
    Simulates R (onBase x) y := h.wrap MemFault.base

theorem simulates_same (x : Except Fault α) : Simulates Eq (onBase x) x := simulates_base (Alike.refl (fun _ => rfl) x)

theorem onTable_ok (x : α) : onTable (.ok x) = .ok x := rfl

theorem Machine.Ok.answers (hm : m.Ok) (rv : Rv) (rmsg : Option Bytes) (rlen : Int) :
    MachineRet.Answers ⟨rv, rmsg, rlen, m⟩ ⟨rv, rmsg, rlen, m.abs⟩ := ⟨hm, rfl⟩

theorem simulates_ret (hm : m.Ok) (rv : Rv) : Simulates MachineRet.Answers (m.ret rv) (m.abs.ret rv) := .ok ⟨hm, rfl⟩

namespace Machine.Ok

/-- Two keys do not share a context. -/
theorem inj (hm : m.Ok) {k k' : UInt32} (hk : m.files.get k = some a) (hk' : m.files.get k' = some a) : k = k' := by
  obtain ⟨c, hc, hid⟩ := hm.owned k a hk
  obtain ⟨c', hc', hid'⟩ := hm.owned k' a hk'
  rw [hc] at hc'
  cases hc'
  exact hid.symm.trans hid'

theorem contexts_none (hk : m.files.get k = none) : m.contexts k = none := by rw [Machine.contexts, hk]; rfl

theorem contexts_some (hk : m.files.get k = some a) (hc : m.ctxs a = some c) : m.contexts k = some c := by
  rw [Machine.contexts, hk, Option.bind_some, hc]

/-- A key has a pointer exactly when it has a context. -/
theorem isSome (hm : m.Ok) (k : UInt32) : (m.files.get k).isSome = (m.contexts k).isSome := by
  cases hk : m.files.get k with
  | none =>
    rw [contexts_none hk]
    rfl
  | some a =>
    obtain ⟨c, hc, -⟩ := hm.owned k a hk
    rw [contexts_some hk hc]
    rfl

/-- A context no pointer of the table leads to may be changed. -/
theorem contexts_update (hk : ∀ k, m.files.get k ≠ some a) (o : Option Nctx) :
    (fun k => (m.files.get k).bind (update m.ctxs a o)) = m.contexts := by
  funext k
  rw [Machine.contexts]
  cases hat : m.files.get k with
  | none => rfl
  | some b =>
    have hb : b ≠ a := fun hb => hk k (by rw [hat, hb])
    rw [Option.bind_some, Option.bind_some, update_of_ne hb]

/-- An address not handed out is in no table. -/
theorem fresh_notin (hm : m.Ok) (k : UInt32) : m.files.get k ≠ some m.ctxBrk := by
  intro hk
  obtain ⟨c, hc, -⟩ := hm.owned k _ hk
  rw [hm.fresh _ (Nat.le_refl _)] at hc
  cases hc

/-- Changing the state beside the tables. -/
theorem withRest (hm : m.Ok) (rest : State) : ({ m with rest := rest } : Machine).Ok :=
  ⟨hm.files, hm.senderfiles, hm.owned, hm.fresh⟩

/-- Writing to the context of a key. -/
theorem ctxStore (hm : m.Ok) (hk : m.files.get k = some a) (hid : c.fileid = k) : (m.ctxStore a c).Ok ∧
    (m.ctxStore a c).abs = { m.abs with files := update m.abs.files k (some c) } := by
  constructor
  · refine ⟨hm.files, hm.senderfiles, fun k' b hk' => ?_, fun b hb => ?_⟩
    · by_cases hb : b = a
      · rw [hb] at hk'
        refine ⟨c, ?_, hid.trans (hm.inj hk hk')⟩
        show update m.ctxs a (some c) b = some c
        rw [hb, update_self]
      · obtain ⟨c', hc', hid'⟩ := hm.owned k' b hk'
        refine ⟨c', ?_, hid'⟩
        show update m.ctxs a (some c) b = some c'
        rw [update_of_ne hb, hc']
    · have hne : b ≠ a := by
        rintro rfl
        obtain ⟨c', hc', -⟩ := hm.owned k b hk
        rw [hm.fresh b hb] at hc'
        cases hc'
      show update m.ctxs a (some c) b = none
      rw [update_of_ne hne, hm.fresh b hb]
  · have hfiles : (m.ctxStore a c).contexts = update m.contexts k (some c) := by
      funext k'
      show (m.files.get k').bind (update m.ctxs a (some c)) = _
      by_cases hk' : k' = k
      · rw [hk', hk, Option.bind_some, update_self, update_self]
      · rw [update_of_ne hk', Machine.contexts]
        cases hat : m.files.get k' with
        | none => rfl
        | some b =>
          have hb : b ≠ a := fun hb => hk' (hm.inj (by rw [hat, hb]) hk)
          rw [Option.bind_some, Option.bind_some, update_of_ne hb]
    show m.rest.withTables (m.ctxStore a c).contexts m.senderfiles.get = _
    rw [hfiles]
    rfl

/-- Taking a key out of the table. -/
theorem erased (hm : m.Ok) {files : HashTable UInt32 Addr} (hup : files.Up) (hget : files.get = htErase m.files.get k) :
    ({ m with files := files } : Machine).Ok ∧
      ({ m with files := files } : Machine).abs = { m.abs with files := htErase m.abs.files k } := by
  have hle : ∀ k' a, files.get k' = some a → m.files.get k' = some a := fun k' a hk' => by
    rw [hget, htErase] at hk'
    by_cases hkk : k' = k
    · rw [hkk, update_self] at hk'
      cases hk'
    · rwa [update_of_ne hkk] at hk'
  have hctx : ({ m with files := files } : Machine).contexts = htErase m.contexts k := by
    funext k'
    show (files.get k').bind m.ctxs = update m.contexts k none k'
    rw [hget, htErase]
    by_cases hkk : k' = k
    · rw [hkk, update_self, update_self]
      rfl
    · rw [update_of_ne hkk, update_of_ne hkk]
      rfl
  refine ⟨⟨hup, hm.senderfiles, fun k' a hk' => hm.owned k' a (hle k' a hk'), hm.fresh⟩, ?_⟩
  show m.rest.withTables ({ m with files := files } : Machine).contexts m.senderfiles.get = _
  rw [hctx]
  rfl

/-- Changing a context no pointer leads to. -/
theorem apart (hm : m.Ok) (hk : ∀ k, m.files.get k ≠ some a) {o : Option Nctx} (ho : o = none ∨ a < m.ctxBrk) :
    ({ m with ctxs := update m.ctxs a o } : Machine).Ok ∧ ({ m with ctxs := update m.ctxs a o } : Machine).abs = m.abs := by
  refine ⟨⟨hm.files, hm.senderfiles, fun k b hb => ?_, fun b hb => ?_⟩, ?_⟩
  · have hba : b ≠ a := fun hba => hk k (by rw [← hba]; exact hb)
    obtain ⟨c, hc, hid⟩ := hm.owned k b hb
    exact ⟨c, (update_of_ne hba ..).trans hc, hid⟩
  · by_cases hba : b = a
    · show update m.ctxs a o b = none
      rw [hba, update_self]
      exact ho.resolve_right (by rw [← hba]; exact Nat.not_lt.2 hb)
    · exact (update_of_ne hba ..).trans (hm.fresh b hb)
  · show m.rest.withTables (fun k => (m.files.get k).bind (update m.ctxs a o)) m.senderfiles.get = _
    rw [contexts_update hk]
    rfl

/-- Allocating a context: no pointer leads to it yet. -/
theorem ctxAlloc (hm : m.Ok) (c : Nctx) : ∃ m', m.ctxAlloc c = (m.ctxBrk, m') ∧ m'.Ok ∧ m'.abs = m.abs ∧
    m'.rest = m.rest ∧ m'.files = m.files ∧ (∀ k, m'.files.get k ≠ some m.ctxBrk) ∧ m'.ctxs m.ctxBrk = some c ∧
    m'.ctxBrk = m.ctxBrk + 1 := by
  refine ⟨_, rfl, ⟨hm.files, hm.senderfiles, fun k b hb => ?_, fun b hb => ?_⟩, ?_, rfl, rfl, hm.fresh_notin,
    update_self .., rfl⟩
  · have hba : b ≠ m.ctxBrk := fun hba => hm.fresh_notin k (by rw [← hba]; exact hb)
    obtain ⟨c', hc', hid⟩ := hm.owned k b hb
    exact ⟨c', (update_of_ne hba ..).trans hc', hid⟩
  · have hlt : m.ctxBrk < b := hb
    exact (update_of_ne (Nat.ne_of_gt hlt) ..).trans (hm.fresh b (Nat.le_of_lt hlt))
  · show m.rest.withTables (fun k => (m.files.get k).bind (update m.ctxs m.ctxBrk (some c))) m.senderfiles.get = _
    rw [contexts_update hm.fresh_notin]
    rfl

/-- Releasing a context no pointer leads to. -/
theorem ctxFree (hm : m.Ok) (hk : ∀ k, m.files.get k ≠ some a) (hc : m.ctxs a = some c) :
    ∃ m', m.ctxFree a = .ok m' ∧ m'.Ok ∧ m'.abs = m.abs := by
  obtain ⟨hm', habs⟩ := hm.apart hk (o := none) (.inl rfl)
  exact ⟨_, by rw [Machine.ctxFree, hc], hm', habs⟩

/-- A pointer put into the table. -/
theorem inserted (hm : m.Ok) (hc : m.ctxs a = some c) (hid : c.fileid = k)
    {files : HashTable UInt32 Addr} (hup : files.Up) (hget : files.get = update m.files.get k (some a)) :
    ({ m with files := files } : Machine).Ok ∧
      ({ m with files := files } : Machine).abs = { m.abs with files := update m.abs.files k (some c) } := by
  refine ⟨⟨hup, hm.senderfiles, fun k' b hb => ?_, hm.fresh⟩, ?_⟩
  · replace hb : files.get k' = some b := hb
    rw [hget] at hb
    by_cases hkk : k' = k
    · rw [hkk, update_self] at hb
      cases hb
      exact ⟨c, hc, hid.trans hkk.symm⟩
    · rw [update_of_ne hkk] at hb
      exact hm.owned k' b hb
  · have hctx : ({ m with files := files } : Machine).contexts = update m.contexts k (some c) := by
      funext k'
      show (files.get k').bind m.ctxs = _
      rw [hget]
      by_cases hkk : k' = k
      · rw [hkk, update_self, update_self, Option.bind_some, hc]
      · rw [update_of_ne hkk, update_of_ne hkk]
        rfl
    show m.rest.withTables ({ m with files := files } : Machine).contexts m.senderfiles.get = _
    rw [hctx]
    rfl

end Machine.Ok

/-! ## Handling a message -/

theorem drain_fileid {path : Path} : ∀ (fuel k : Nat) {c c' : Nctx} {fs fs' : Fs} {rv : Rv},
    drain h path c fs k fuel = .ok (rv, c', fs') → c'.fileid = c.fileid
  | 0, _, _, _, _, _, _, hr => by cases hr
  | fuel + 1, k, c, c', fs, fs', rv, hr => by
    rw [drain] at hr
    dsimp only at hr
    split at hr
    · cases hr; rfl
    split at hr
    · cases hr
    · cases hr; rfl
    split at hr
    · cases hr; rfl
    · have hid := drain_fileid fuel (k + 1) hr
      exact hid

/-- Storing a block leaves a context under its key. -/
theorem storeBlock_fileid {path : Path} {c' : Nctx} {fs fs' : Fs} {rv : Rv}
    (hr : storeBlock h path c fs n = .ok (rv, c', fs')) : c'.fileid = c.fileid := by
  unfold storeBlock at hr
  split at hr
  · dsimp only at hr
    split at hr
    · cases hr; rfl
    · obtain ⟨⟨rv₁, c₁, fs₁⟩, hd, hr⟩ := bind_eq_ok.1 hr
      have hid := drain_fileid _ _ hd
      dsimp only at hr
      split at hr
      · cases hr; exact hid
      · cases hr; exact hid
  · split at hr
    · cases hr
    · cases hr; rfl

theorem withFs_simulates (hm : m.Ok) (fs : Fs) : (m.withFs fs).Ok ∧ (m.withFs fs).abs = { m.abs with fs := fs } :=
  ⟨hm.withRest _, rfl⟩

/-- Any message but a HELLO is made alike, and leaves the state as it is. -/
theorem maker_still (m : Machine) (h : Host) {fpath : Option Bytes} {t : Option MsgType}
    (ht : fpath = none ∨ t ≠ some .hello) (key n : Int) :
    Simulates (fun x y : Ret => y = { x with st := m.abs }) (onBase (protoMaker h m.rest fpath t key n))
      (protoMaker h m.abs fpath t key n) := by
  have hmake := protoMaker_framed (s := m.rest) (f := m.contexts) (g := m.senderfiles.get) h ht key n
  refine (simulates_base hmake.returned).mono fun x y ⟨hx, _, hxy⟩ => ?_
  have hst : x.st = m.rest := by
    cases fpath with
    | none => cases hx; rfl
    | some fpath => exact protoMaker_still (ht.resolve_left (by simp)) hx
  rw [Ret.Tabled, hst] at hxy
  exact hxy

/-- The handlers answer `ok` with the message made. -/
theorem reply_simulates (hm : m.Ok) (fpath : Bytes) {t : MsgType} (ht : t ≠ .hello) (key n : Int) :
    Simulates MachineRet.Answers
      (do let r ← onBase (protoMaker h m.rest (some fpath) (some t) key n)
          return ⟨.ok, r.rmsg, r.rlen, m⟩)
      (do let r ← protoMaker h m.abs (some fpath) (some t) key n
          return { r with rv := .ok }) := by
  refine Alike.bind (maker_still m h (.inr (by simpa using ht)) key n) fun x _ hxy => ?_
  rw [hxy]
  exact .ok (hm.answers _ _ _)

theorem accept_simulates (hm : m.Ok) (hc : m.ctxs a = some c) (n : Packet) :
    Simulates MachineRet.Answers (m.accept h a c n) (do
      let fullpath ← partPath m.abs.recvdir c.wfname
      let (rv, fs) := fileWrite h.write m.abs.fs fullpath [] 0
      if rv ≠ .ok then State.ret { m.abs with fs := fs } rv
      else
        let (code, files) := htInsert m.abs.files c.fileid c
        if code ≠ 0 then State.ret { m.abs with fs := fs, files := files } .ht
        else do
          let r ← protoMaker h { m.abs with fs := fs, files := files } (some (cstr (n.fname.getD []))) (some .ack) n.id.toNat 0
          return { r with rv := .ok }) := by
  refine Alike.bind (R := Eq) (simulates_same (partPath m.rest.recvdir c.wfname)) fun path _ hpath => ?_
  cases hpath
  obtain ⟨hm₁, habs₁⟩ := withFs_simulates hm (fileWrite h.write m.rest.fs path [] 0).2
  obtain ⟨files, hins, hup, hget⟩ := hm.files.insert_eq c.fileid a
  obtain ⟨hm₂, habs₂⟩ := hm₁.inserted hc rfl hup hget
  have hcode : (htInsert m.abs.files c.fileid c).1 = (htInsert m.files.get c.fileid a).1 := by
    rw [htInsert, htInsert, hm.isSome]
    rfl
  refine Alike.ite (fun _ => simulates_ret hm₁ _) fun _ => ?_
  rw [hins]
  show Simulates MachineRet.Answers (if (htInsert m.files.get c.fileid a).1 ≠ 0 then _ else _)
    (if (htInsert m.abs.files c.fileid c).1 ≠ 0 then _ else _)
  rw [hcode]
  refine Alike.ite (fun _ => ?_) fun _ => ?_
  · have hret := simulates_ret hm₂ .ht
    rw [habs₂, habs₁] at hret
    exact hret
  · have hack := reply_simulates (h := h) hm₂ (cstr (n.fname.getD [])) (t := .ack) (by decide) n.id.toNat 0
    rw [habs₂, habs₁] at hack
    exact hack

theorem handleHello_simulates (hm : m.Ok) (n : Packet) :
    Simulates MachineRet.Answers (m.handleHello h n) (handleHello h m.abs n) := by
  obtain ⟨m₁, halloc, hm₁, habs₁, hrest₁, hfiles₁, hnew₁, hat₁, hbrk₁⟩ :=
    hm.ctxAlloc (nctxAlloc n.blocks.toNat (nftpHash (cstr (n.fname.getD []))) n.hashcode)
  have hfound : m₁.files.contains n.fileid = .ok (if (m₁.abs.files n.fileid).isSome then htFound else htNotFound) := by
    rw [hm₁.files.contains_eq, hm₁.isSome]
    rfl
  rw [← habs₁]
  unfold Machine.handleHello handleHello
  simp only [halloc, hfound, onTable_ok, ok_bind]
  by_cases h0 : (m₁.abs.files n.fileid).isSome
  · obtain ⟨m', hfree, hm', habs'⟩ := hm₁.ctxFree hnew₁ hat₁
    simp only [if_pos h0, hfree, ok_bind, htFound, htNotFound, ne_eq, one_ne_zero, not_false_eq_true, if_true]
    rw [← habs']
    exact simulates_ret hm' .ht
  · simp only [if_neg h0, ne_eq, not_true_eq_false, if_false]
    refine Alike.bind (simulates_base (bindFcb_framed _)) fun x _ hx => ?_
    cases hx
    refine Alike.bind (R := Eq) (simulates_same (pickName x.2 _)) fun wfname _ hw => ?_
    cases hw
    cases wfname with
    | none => exact .error rfl
    | some w =>
      obtain ⟨hm₂, habs₂⟩ := (hm₁.withRest x.2).apart hnew₁ (.inr (by rw [hbrk₁]; exact Nat.lt_succ_self _))
        (o := some { nctxAlloc n.blocks.toNat (nftpHash (cstr (n.fname.getD []))) n.hashcode with fcb := x.1, wfname := w })
      have haccept := accept_simulates (h := h) hm₂ (update_self ..) n
      rw [habs₂] at haccept
      exact haccept

/-- The context of a key, as the handlers reach it. -/
theorem Machine.Ok.reach (hm : m.Ok) (k : UInt32) :
    (m.contexts k = none ∧ m.files.contains k = .ok htNotFound) ∨
    ∃ a c, m.contexts k = some c ∧ m.files.contains k = .ok htFound ∧ m.files.lookup k = .ok (some a) ∧
      m.ctxAt (some a) = .ok (a, c) ∧ m.files.get k = some a ∧ m.ctxs a = some c ∧ c.fileid = k := by
  rw [hm.files.contains_eq, hm.files.lookup_eq]
  cases hk : m.files.get k with
  | none => exact .inl ⟨contexts_none hk, rfl⟩
  | some a =>
    obtain ⟨c, hc, hid⟩ := hm.owned k a hk
    exact .inr ⟨a, c, contexts_some hk hc, rfl, rfl, by rw [ctxAt, hc], rfl, hc, hid⟩

/-- Taking a key out of the table leaves no pointer to its context. -/
theorem Machine.Ok.erased_apart (hm : m.Ok) (hk : m.files.get k = some a) {files : HashTable UInt32 Addr}
    (hget : files.get = htErase m.files.get k) (k' : UInt32) : files.get k' ≠ some a := by
  intro hk'
  rw [hget, htErase] at hk'
  by_cases hkk : k' = k
  · rw [hkk, update_self] at hk'
    cases hk'
  · rw [update_of_ne hkk] at hk'
    exact hkk (hm.inj hk' hk)

theorem close_simulates (hm : m.Ok) (hk : m.files.get c.fileid = some a) (hc : m.ctxs a = some c) :
    Simulates MachineRet.Answers (m.close a c) (do
      let s ← runCb m.abs c
      return ⟨.ok, some c.wfname, cInt c.wfname.length, { s with files := htErase s.files c.fileid }⟩) := by
  refine Alike.bind (simulates_base (runCb_framed c)) fun rest _ hrest => ?_
  cases hrest
  obtain ⟨files, herase, hup, hget⟩ := hm.files.erase_eq c.fileid
  obtain ⟨hm₂, habs₂⟩ := (hm.withRest rest).erased (k := c.fileid) hup hget
  obtain ⟨m₃, hfree, hm₃, habs₃⟩ := hm₂.ctxFree (hm.erased_apart hk hget) hc
  have hans := hm₃.answers .ok (some c.wfname) (cInt c.wfname.length)
  rw [habs₃, habs₂] at hans
  simp only [herase, onTable_ok, ok_bind, htSuccess, ne_eq, not_true_eq_false, if_false, hfree]
  exact .ok hans

theorem finish_simulates (hm : m.Ok) (hk : m.files.get c.fileid = some a) (hc : m.ctxs a = some c) (path : Path) :
    Simulates MachineRet.Answers (m.finish h a c path) (finish h m.abs c path) := by
  refine Alike.bind (R := Eq) (simulates_same (fileFullpath m.rest.recvdir c.wfname)) fun path2 _ hpath => ?_
  cases hpath
  obtain ⟨hm₁, habs₁⟩ := withFs_simulates hm (fileRename h.rename m.rest.fs path path2).2
  refine Alike.ite (fun _ => simulates_ret hm₁ _) fun _ => ?_
  refine Alike.ite (fun _ => .ok (hm₁.answers _ _ _)) fun _ => ?_
  refine Alike.ite (fun _ => .ok (hm₁.answers _ _ _)) fun _ => ?_
  exact close_simulates hm₁ hk hc

theorem handleFile_simulates (hm : m.Ok) (n : Packet) :
    Simulates MachineRet.Answers (m.handleFile h n) (handleFile h m.abs n) := by
  unfold Machine.handleFile handleFile
  rcases hm.reach n.fileid with ⟨hnone, hfound⟩ | ⟨a, c, hsome, hfound, hlook, hat, hk, hc, hid⟩
  · have habs : m.abs.files n.fileid = none := hnone
    simp only [hfound, habs, onTable_ok, ok_bind, if_true]
    exact simulates_ret hm .ht
  · have habs : m.abs.files n.fileid = some c := hsome
    simp only [hfound, habs, onTable_ok, ok_bind, htFound, htNotFound, one_ne_zero, if_false, hlook, hat]
    refine Alike.bind (R := Eq) (simulates_same (partPath m.rest.recvdir c.wfname)) fun path _ hpath => ?_
    cases hpath
    refine Alike.bind (simulates_base (Alike.refl (R := Eq) (fun _ => rfl) (storeBlock h path c m.rest.fs n)).returned)
      fun x _ ⟨hx, _, hxy⟩ => ?_
    cases hxy
    obtain ⟨rv, c', fs⟩ := x
    have hid' : c'.fileid = n.fileid := (storeBlock_fileid hx).trans hid
    obtain ⟨hm₁, habs₁⟩ := hm.ctxStore hk hid'
    obtain ⟨hm₂, habs₂⟩ := withFs_simulates hm₁ fs
    rw [habs₁] at habs₂
    refine Alike.ite (fun _ => ?_) fun _ => Alike.ite (fun _ => ?_) fun _ => ?_
    · have hret := simulates_ret hm₂ rv
      rw [habs₂] at hret
      exact hret
    · have hfin := finish_simulates (h := h) hm₂ (c := c') (a := a) (by rw [hid']; exact hk) (update_self ..) path
      rw [habs₂] at hfin
      exact hfin
    · have hret := simulates_ret hm₂ .ok
      rw [habs₂] at hret
      exact hret

/-! ## Making a message, and the other calls -/

theorem handleGiveme_simulates (hm : m.Ok) (n : Packet) :
    Simulates MachineRet.Answers (m.handleGiveme h n) (handleGiveme h m.abs n) := by
  unfold Machine.handleGiveme handleGiveme
  simp only [hm.senderfiles.contains_eq, hm.senderfiles.lookup_eq, onTable_ok, ok_bind]
  have hget : m.abs.senderfiles n.fileid = m.senderfiles.get n.fileid := rfl
  rw [hget]
  cases m.senderfiles.get n.fileid with
  | none => exact simulates_ret hm .ht
  | some fullpath =>
    simp only [Option.isSome_some, if_true, htFound, htNotFound, one_ne_zero, if_false]
    refine Alike.bind (R := Eq) (simulates_same (strcpyAt fullpathSize 0 fullpath)) fun _ _ _ => ?_
    refine Alike.bind (R := Eq) (simulates_same (fileBlocks h.size m.rest.fs.disk m.rest.blocksz fullpath)) fun x _ hx => ?_
    cases hx
    refine Alike.ite (fun _ => simulates_ret hm _) fun _ => ?_
    refine reply_simulates hm fullpath ?_ _ _
    split <;> decide

theorem receive_simulates (hm : m.Ok) (msg : Bytes) :
    Simulates MachineRet.Answers (m.receive h msg) (receive h m.abs msg) := by
  refine Alike.bind (R := Eq) (simulates_same (decode Packet.alloc msg (sizeT (cInt msg.length)))) fun x _ hx => ?_
  cases hx
  refine Alike.ite (fun _ => simulates_ret hm _) fun _ => ?_
  unfold Machine.dispatch dispatch
  cases MsgType.ofCode x.2.type with
  | none => exact simulates_ret hm .ok
  | some t =>
    cases t with
    | hello => exact handleHello_simulates hm x.2
    | ack => exact simulates_ret hm .ok
    | file => exact handleFile_simulates hm x.2
    | fin => exact handleFile_simulates hm x.2
    | giveme => exact handleGiveme_simulates hm x.2

/-! ## Making a message, and the other calls -/

theorem dropSender_eq (hm : m.Ok) (key : UInt32) :
    ∃ t, m.dropSender key = .ok t ∧ t.Up ∧ t.get = htErase m.senderfiles.get key := by
  unfold Machine.dropSender
  obtain ⟨t, herase, hup, hget⟩ := hm.senderfiles.erase_eq key
  rw [hm.senderfiles.contains_eq]
  cases hk : m.senderfiles.get key with
  | none =>
    refine ⟨m.senderfiles, rfl, hm.senderfiles, ?_⟩
    rw [htErase, ← hk, Function.update_eq_self]
  | some v =>
    refine ⟨t, ?_, hup, hget⟩
    rw [herase]
    rfl

theorem makeHello_simulates (hm : m.Ok) (fpath fname : Bytes) (key : Int) :
    Simulates MachineRet.Answers (m.makeHello h fpath fname key) (makeHello h m.abs fpath fname key) := by
  refine Alike.ite (fun _ => simulates_ret hm _) fun _ => ?_
  refine Alike.ite (fun _ => .error rfl) fun _ => ?_
  refine Alike.ite (fun _ => simulates_ret hm _) fun _ => ?_
  refine Alike.ite (fun _ => simulates_ret hm _) fun _ => ?_
  refine Alike.bind (R := Eq) (simulates_same (strcpyAt fullpathSize 0 fpath)) fun _ _ _ => ?_
  obtain ⟨t, hdrop, hup, hget⟩ := dropSender_eq hm (nftpHash fname)
  obtain ⟨t', hins, hup', hget'⟩ := hup.insert_eq (nftpHash fname) fpath
  rw [hget] at hins hget'
  have hm' : ({ m with senderfiles := t' } : Machine).Ok := ⟨hm.files, hup', hm.owned, hm.fresh⟩
  have habs' : ({ m with senderfiles := t' } : Machine).abs =
      { m.abs with senderfiles := (htInsert (htErase m.abs.senderfiles (nftpHash fname)) (nftpHash fname) fpath).2 } := by
    show m.rest.withTables m.contexts t'.get = _
    rw [hget']
    rfl
  -- the key was erased, so the insert finds none
  have hcode : (htInsert (htErase m.senderfiles.get (nftpHash fname)) (nftpHash fname) fpath).1 = 0 := by
    rw [htInsert, htErase, update_self]
    rfl
  rw [hdrop, ok_bind, hins]
  refine Alike.ite (fun hne => absurd hcode hne) fun _ => ?_
  refine Alike.bind_left (simulates_base (encodeReply_framed (s := m.rest) (f := m.contexts)
    (g := (htInsert (htErase m.senderfiles.get (nftpHash fname)) (nftpHash fname) fpath).2) _).returned)
    fun x y hxy => ⟨_, rfl, ?_⟩
  obtain ⟨hx, -, hxy⟩ := hxy
  rw [Ret.Tabled, encodeReply_state hx] at hxy
  rw [hxy]
  have hans := hm'.answers x.rv x.rmsg x.rlen
  rw [habs'] at hans
  exact hans

theorem protoMaker_simulates (hm : m.Ok) (fpath : Option Bytes) (t : Option MsgType) (key n : Int) :
    Simulates MachineRet.Answers (m.protoMaker h fpath t key n) (protoMaker h m.abs fpath t key n) := by
  have hother : fpath = none ∨ t ≠ some .hello → Simulates MachineRet.Answers
      (do let r ← onBase (protoMaker h m.rest fpath t key n)
          return ⟨r.rv, r.rmsg, r.rlen, m⟩) (protoMaker h m.abs fpath t key n) := fun ht =>
    Alike.bind_left (maker_still m h ht key n) fun x _ hxy => ⟨_, rfl, hm, hxy⟩
  cases fpath with
  | none => exact hother (.inl rfl)
  | some fpath =>
    cases t with
    | none => exact hother (.inr (by simp))
    | some t =>
      cases t with
      | hello => exact makeHello_simulates hm _ _ key
      | ack => exact hother (.inr (by simp))
      | file => exact hother (.inr (by simp))
      | fin => exact hother (.inr (by simp))
      | giveme => exact hother (.inr (by simp))

theorem protoRecvStatus_eq (hm : m.Ok) (fname : Bytes) : m.protoRecvStatus fname = .ok (protoRecvStatus m.abs fname) := by
  unfold Machine.protoRecvStatus protoRecvStatus
  rcases hm.reach (nftpHash (fileBname fname)) with ⟨hnone, hfound⟩ | ⟨a, c, hsome, hfound, hlook, hat, -⟩
  · have habs : m.abs.files (nftpHash (fileBname fname)) = none := hnone
    simp only [hfound, habs, onTable_ok, ok_bind, if_true]
    rfl
  · have habs : m.abs.files (nftpHash (fileBname fname)) = some c := hsome
    simp only [hfound, habs, onTable_ok, ok_bind, htFound, htNotFound, one_ne_zero, if_false, hlook, hat]
    rfl

/-- A code alone, with the machine and the state it comes with. -/
def Coded (x : Rv × Machine) (y : Rv × State) : Prop := x.2.Ok ∧ y = (x.1, x.2.abs)

theorem protoRecvStop_simulates (hm : m.Ok) (fname : Bytes) :
    Simulates Coded (m.protoRecvStop h fname) (protoRecvStop h m.abs fname) := by
  unfold Machine.protoRecvStop protoRecvStop
  rcases hm.reach (nftpHash (fileBname fname)) with ⟨hnone, hfound⟩ | ⟨a, c, hsome, hfound, hlook, hat, hk, hc, -⟩
  · have habs : m.abs.files (nftpHash (fileBname fname)) = none := hnone
    simp only [hfound, habs, onTable_ok, ok_bind, if_true]
    exact .ok ⟨hm, rfl⟩
  · have habs : m.abs.files (nftpHash (fileBname fname)) = some c := hsome
    simp only [hfound, habs, onTable_ok, ok_bind, htFound, htNotFound, one_ne_zero, if_false, hlook, hat]
    refine Alike.bind (R := Eq) (simulates_same (partPath m.rest.recvdir c.wfname)) fun path _ hpath => ?_
    cases hpath
    obtain ⟨files, herase, hup, hget⟩ := hm.files.erase_eq (nftpHash (fileBname fname))
    obtain ⟨hm₁, habs₁⟩ := hm.erased hup hget
    obtain ⟨hm₂, habs₂⟩ := withFs_simulates hm₁ (fileRemove h.remove m.rest.fs path).2
    rw [habs₁] at habs₂
    simp only [herase, onTable_ok, ok_bind, htSuccess, ne_eq, not_true_eq_false, if_false]
    refine Alike.ite (fun _ => ?_) fun _ => ?_
    · exact .ok ⟨hm₂, Prod.ext rfl habs₂.symm⟩
    · refine Alike.bind (simulates_base (dropCb_framed (s := { m.rest with fs := (fileRemove h.remove m.rest.fs path).2 })
        (f := htErase m.contexts (nftpHash (fileBname fname))) (g := m.senderfiles.get) c)) fun rest _ hrest => ?_
      cases hrest
      obtain ⟨m₃, hfree, hm₃, habs₃⟩ := (hm₂.withRest rest).ctxFree (hm.erased_apart hk hget) hc
      have hctx : ({ m with files := files } : Machine).contexts = htErase m.contexts (nftpHash (fileBname fname)) :=
        congrArg State.files habs₁
      have habs : m₃.abs = rest.withTables (htErase m.contexts (nftpHash (fileBname fname))) m.senderfiles.get := by
        rw [habs₃, ← hctx]
        rfl
      simp only [hfree, ok_bind]
      exact .ok ⟨hm₃, Prod.ext rfl habs.symm⟩

/-- A call that has to do with the registry only. -/
theorem onRest_simulates (hm : m.Ok) {x y : Except Fault (Rv × State)}
    (hxy : Framed m.contexts m.senderfiles.get x y) : Simulates Coded (m.onRest x) y :=
  Alike.bind_left (simulates_base hxy) fun z _ hz => ⟨_, rfl, hm.withRest z.2, hz⟩

/-! ## All calls -/

/-- A call of the API, with the code and the message it answers. -/
def State.call (s : State) : Event → Except Fault Ret
  | .msg h msg => receive h s msg
  | .register fname cb arg => do
    let (rv, s') ← protoRegister s fname cb arg
    return ⟨rv, none, 0, s'⟩
  | .unregister fname => do
    let (rv, s') ← protoUnregister s fname
    return ⟨rv, none, 0, s'⟩
  | .recvStop h fname => do
    let (rv, s') ← protoRecvStop h s fname
    return ⟨rv, none, 0, s'⟩
  | .maker h fpath type key n => protoMaker h s fpath type key n
  | .setRecvdir dir => .ok ⟨.ok, none, 0, Nftp.setRecvdir s dir⟩
  | .setBlocksz blksz => .ok ⟨.ok, none, 0, Nftp.setBlocksz s blksz⟩
  | .disk disk => .ok ⟨.ok, none, 0, { s with fs := { s.fs with disk := disk } }⟩

theorem coded_simulates {x : Except MemFault (Rv × Machine)} {y : Except Fault (Rv × State)} (hxy : Simulates Coded x y) :
    Simulates MachineRet.Answers (Machine.coded x) (do
      let (rv, s) ← y
      return ⟨rv, none, 0, s⟩) :=
  Alike.bind hxy fun z _ hz => by
    obtain ⟨hm, rfl⟩ := hz
    exact .ok ⟨hm, rfl⟩

/-- **One call**: the machine answers as its state does, and the machine left has the state left. -/
theorem call_simulates (hm : m.Ok) (e : Event) : Simulates MachineRet.Answers (m.call e) (m.abs.call e) := by
  cases e with
  | msg h msg => exact receive_simulates hm msg
  | register fname cb arg => exact coded_simulates (onRest_simulates hm (protoRegister_framed fname cb arg))
  | unregister fname => exact coded_simulates (onRest_simulates hm (protoUnregister_framed fname))
  | recvStop h fname => exact coded_simulates (protoRecvStop_simulates hm fname)
  | maker h fpath t key n => exact protoMaker_simulates hm fpath t key n
  | setRecvdir dir => exact .ok ⟨hm.withRest _, rfl⟩
  | setBlocksz blksz => exact .ok ⟨hm.withRest _, rfl⟩
  | disk disk => exact .ok ⟨hm.withRest _, rfl⟩

/-- What a call is answered with. -/
structure Answer where
  rv : Rv
  rmsg : Option Bytes
  rlen : Int
  deriving DecidableEq, Repr

/-- A call with its answer. -/
def CallStep (s : State) (e : Event × Answer) (s' : State) : Prop := s.call e.1 = .ok ⟨e.2.rv, e.2.rmsg, e.2.rlen, s'⟩

def MachineStep (m : Machine) (e : Event × Answer) (m' : Machine) : Prop :=
  m.call e.1 = .ok ⟨e.2.rv, e.2.rmsg, e.2.rlen, m'⟩

/-- The machine `nftp_proto_init` leaves. -/
def Machine.Booted (m : Machine) : Prop :=
  ∃ dir blksz fs, (Machine.boot (Option.map cstr dir) blksz fs).protoInit = .ok (.ok, m)

/-- `State.call` is `State.after` with its answer. -/
theorem step_iff_call {s s' : State} {e : Event} : Step s e s' ↔ ∃ ans, CallStep s (e, ans) s' := by
  have hafter : s.after e = (do let r ← s.call e; return r.st) := by
    cases e with
    | msg h msg => rfl
    | register fname cb arg => cases hx : protoRegister s fname cb arg <;> simp only [State.after, State.call, hx] <;> rfl
    | unregister fname => cases hx : protoUnregister s fname <;> simp only [State.after, State.call, hx] <;> rfl
    | recvStop h fname => cases hx : protoRecvStop h s fname <;> simp only [State.after, State.call, hx] <;> rfl
    | maker h fpath t key n => rfl
    | setRecvdir dir => rfl
    | setBlocksz blksz => rfl
    | disk disk => rfl
  rw [Step, hafter, bind_eq_ok]
  constructor
  · rintro ⟨r, hr, hs⟩
    cases hs
    exact ⟨⟨r.rv, r.rmsg, r.rlen⟩, hr⟩
  · rintro ⟨ans, hr⟩
    exact ⟨_, hr, rfl⟩

variable {m₀ m' : Machine} {s s' : State}

/-! ## Runs -/

/-- The machine with both tables set up and no context. -/
def Machine.started (rest : State) : Machine :=
  { rest := rest, files := (HashTable.setup nftpFiles).2, senderfiles := (HashTable.setup nftpFiles).2,
    ctxs := fun _ => none, ctxBrk := 0 }

theorem started_ok {rest : State} (hb : Nftp.Booted rest) :
    (Machine.started rest).Ok ∧ (Machine.started rest).abs = rest := by
  obtain ⟨hup, hget⟩ := HashTable.setup_up (ν := Addr) (show nftpFiles < 2 ^ 61 by decide)
  obtain ⟨hup', hget'⟩ := HashTable.setup_up (ν := Bytes) (show nftpFiles < 2 ^ 61 by decide)
  refine ⟨⟨hup, hup', fun k a hk => ?_, fun _ _ => rfl⟩, ?_⟩
  · rw [show (Machine.started rest).files.get k = none from hget k] at hk
    cases hk
  · have hctx : (Machine.started rest).contexts = rest.files := by
      funext k
      rw [booted_files hb k, Machine.contexts, show (Machine.started rest).files.get k = none from hget k]
      rfl
    have hsender : (Machine.started rest).senderfiles.get = rest.senderfiles := by
      funext k
      rw [(booted_tables hb k).2]
      exact hget' k
    show rest.withTables (Machine.started rest).contexts (Machine.started rest).senderfiles.get = rest
    rw [hctx, hsender]
    rfl

/-- `nftp_proto_init` sets the tables up. -/
theorem booted_iff : m.Booted ↔ Nftp.Booted m.rest ∧ m = Machine.started m.rest := by
  constructor
  · rintro ⟨dir, blksz, fs, hinit⟩
    unfold Machine.protoInit at hinit
    cases hx : protoInit (State.boot (Option.map cstr dir) blksz fs) with
    | error e =>
      rw [show (Machine.boot (Option.map cstr dir) blksz fs).rest = State.boot (Option.map cstr dir) blksz fs from rfl, hx]
        at hinit
      cases hinit
    | ok x =>
      obtain ⟨rv, rest⟩ := x
      rw [show (Machine.boot (Option.map cstr dir) blksz fs).rest = State.boot (Option.map cstr dir) blksz fs from rfl, hx]
        at hinit
      by_cases hrv : rv = .ok
      · subst hrv
        cases hinit
        exact ⟨⟨dir, blksz, fs, hx⟩, rfl⟩
      · simp only [onBase, Except.mapError, ok_bind, ne_eq, hrv, not_false_eq_true, if_true] at hinit
        cases hinit
        exact absurd rfl hrv
  · rintro ⟨⟨dir, blksz, fs, hx⟩, hm⟩
    refine ⟨dir, blksz, fs, ?_⟩
    unfold Machine.protoInit
    rw [show (Machine.boot (Option.map cstr dir) blksz fs).rest = State.boot (Option.map cstr dir) blksz fs from rfl, hx, hm]
    rfl

theorem machineStep_simulates {e : Event × Answer} (hm : m.Ok) (hs : MachineStep m e m') :
    m'.Ok ∧ CallStep m.abs e m'.abs := by
  obtain ⟨r, hr, hm', hans⟩ := (call_simulates hm e.1).of_ok hs
  exact ⟨hm', hr.trans (congrArg Except.ok hans)⟩

theorem callStep_simulated {e : Event × Answer} (hm : m.Ok) (hs : CallStep m.abs e s) :
    ∃ m', MachineStep m e m' ∧ m'.Ok ∧ m'.abs = s := by
  obtain ⟨ev, ⟨rv, rmsg, rlen⟩⟩ := e
  obtain ⟨x, hx, hm', hans⟩ := (call_simulates hm ev).ok_of hs
  cases hans
  exact ⟨x.st, hx, hm', rfl⟩

theorem Machine.Booted.ok (hb : m.Booted) : m.Ok ∧ Nftp.Booted m.abs := by
  obtain ⟨hrest, hm⟩ := booted_iff.1 hb
  obtain ⟨hok, habs⟩ := started_ok hrest
  rw [hm]
  exact ⟨hok, by rw [habs]; exact hrest⟩

theorem run_ok {es : List (Event × Answer)} (hm : m₀.Ok) (hrun : Run MachineStep m₀ es m) :
    m.Ok ∧ Run CallStep m₀.abs es m.abs := by
  have hstep : ∀ m e m' s, m.Ok ∧ m.abs = s → MachineStep m e m' → ∃ s', CallStep s e s' ∧ m'.Ok ∧ m'.abs = s' := by
    rintro m e m' s ⟨hm, rfl⟩ hs
    obtain ⟨hm', hcall⟩ := machineStep_simulates hm hs
    exact ⟨m'.abs, hcall, hm', rfl⟩
  obtain ⟨s, hs, hm', habs⟩ := hrun.simulate hstep ⟨hm, rfl⟩
  rw [habs]
  exact ⟨hm', hs⟩

/-- **The endpoint on its tables and heap is the endpoint on maps.**  From what `nftp_proto_init` leaves, the runs of the
two are the same, call by call and answer by answer; and in every state of one a call that fails fails for a fault of the
endpoint on maps, no table and no context being misused. -/
theorem machine_runs (hb : m₀.Booted) : Nftp.Booted m₀.abs ∧
    (∀ es s, Run CallStep m₀.abs es s ↔ ∃ m, Run MachineStep m₀ es m ∧ m.abs = s) ∧
    ∀ es m, Run MachineStep m₀ es m →
      (∀ e x, m.call e = .error x → ∃ f, x = .base f ∧ m.abs.call e = .error f) ∧
      ∀ fname, m.protoRecvStatus fname = .ok (protoRecvStatus m.abs fname) := by
  obtain ⟨hm₀, hbooted⟩ := hb.ok
  have hstep : ∀ s e s' m, m.Ok ∧ m.abs = s → CallStep s e s' → ∃ m', MachineStep m e m' ∧ m'.Ok ∧ m'.abs = s' := by
    rintro s e s' m ⟨hm, rfl⟩ hs
    exact callStep_simulated hm hs
  refine ⟨hbooted, fun es s => ⟨fun hrun => ?_, ?_⟩, fun es m hrun => ?_⟩
  · obtain ⟨m, hm, -, habs⟩ := hrun.simulate hstep ⟨hm₀, rfl⟩
    exact ⟨m, hm, habs⟩
  · rintro ⟨m, hrun, rfl⟩
    exact (run_ok hm₀ hrun).2
  · have hm := (run_ok hm₀ hrun).1
    refine ⟨fun e x hx => ?_, protoRecvStatus_eq hm⟩
    obtain ⟨f, hf, hbase⟩ := (call_simulates hm e).of_error hx
    exact ⟨f, hbase, hf⟩

/-! ## Machines that compute -/

def Machine.bootWith (dir : Option Bytes) (blksz : UInt32) (fs : Fs) : Option Machine :=
  match (Machine.boot (Option.map cstr dir) blksz fs).protoInit with
  | .ok (.ok, m) => some m
  | _ => none

/-- Take the calls in order, as long as each answers as it says. -/
def Machine.play (m : Machine) : List (Event × Answer) → Option Machine
  | [] => some m
  | (e, ans) :: es =>
    match m.call e with
    | .ok r => if (⟨r.rv, r.rmsg, r.rlen⟩ : Answer) = ans then r.st.play es else none
    | .error _ => none

theorem bootWith_booted {dir : Option Bytes} {blksz : UInt32} {fs : Fs} (h : Machine.bootWith dir blksz fs = some m) :
    m.Booted := by
  refine ⟨dir, blksz, fs, ?_⟩
  unfold Machine.bootWith at h
  split at h
  · rename_i m' hm'
    cases h
    exact hm'
  · cases h

theorem machine_play_sound : ∀ {es : List (Event × Answer)} {m : Machine}, m.play es = some m' → Run MachineStep m es m'
  | [], m, h => by cases h; exact .refl
  | (e, ans) :: es, m, h => by
    unfold Machine.play at h
    cases hc : m.call e with
    | error f => rw [hc] at h; cases h
    | ok r =>
      simp only [hc] at h
      split at h
      · rename_i hans
        have hs : MachineStep m (e, ans) r.st := by rw [← hans]; exact hc
        exact (Run.single hs).append (machine_play_sound h)
      · cases h

theorem machine_trace (dir : Option Bytes) (blksz : UInt32) (fs : Fs) (es : List (Event × Answer))
    (h : ((Machine.bootWith dir blksz fs).bind (·.play es)).isSome = true) :
    ∃ m₀ m : Machine, m₀.Booted ∧ Run MachineStep m₀ es m := by
  obtain ⟨m, hm⟩ := Option.isSome_iff_exists.1 h
  obtain ⟨m₀, hm₀, hplay⟩ := Option.bind_eq_some_iff.1 hm
  exact ⟨m₀, m, bootWith_booted hm₀, machine_play_sound hplay⟩

/-- A HELLO, acknowledged on the tables and on the maps. -/
theorem machine_runs_hello : ∃ m₀ m : Machine, m₀.Booted ∧
    Run CallStep m₀.abs [(.msg .good (helloBytes 0 1 [0x66] 0), ⟨.ok, some (ackOf 0 [0x66]), 10⟩)] m.abs ∧
    Run MachineStep m₀ [(.msg .good (helloBytes 0 1 [0x66] 0), ⟨.ok, some (ackOf 0 [0x66]), 10⟩)] m := by
  obtain ⟨m₀, m, hb, hrun⟩ := machine_trace none 4 .empty
    [(.msg .good (helloBytes 0 1 [0x66] 0), ⟨.ok, some (ackOf 0 [0x66]), 10⟩)] (by decide +kernel)
  exact ⟨m₀, m, hb, ((machine_runs hb).2.1 _ _).2 ⟨m, hrun, rfl⟩, hrun⟩

end Nftp
