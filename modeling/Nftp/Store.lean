import Nftp.Proto
/-!
# Store — the part file and the block cache

What `storeBlock` does to a context and to the disk, without its loop: the block that is next is appended with the run
of cached blocks behind it (`Nctx.run`), one append each, up to the first append that fails; any other block of the
table is cached.  An append that returns 0 may still lose bytes when the file is closed (`Host.landed`).
-/
namespace Nftp

/-! ## One append -/

/-- The call returns 0. -/
def WriteAns.Took (ans : WriteAns) (sz : Nat) : Prop := ans ≠ .noOpen ∧ ans.counted sz = sz

/-- Moreover all its bytes reach the file. -/
def WriteAns.Full (ans : WriteAns) (sz : Nat) : Prop := ans.Took sz ∧ ans.written sz = sz

instance (ans : WriteAns) (sz : Nat) : Decidable (ans.Took sz) := inferInstanceAs (Decidable (_ ∧ _))

instance (ans : WriteAns) (sz : Nat) : Decidable (ans.Full sz) := inferInstanceAs (Decidable (_ ∧ _))

@[simp] theorem full_done (sz : Nat) : WriteAns.done.Full sz := ⟨⟨nofun, rfl⟩, rfl⟩

def WriteAns.AddsNone (ans : WriteAns) (sz : Nat) : Prop := ans = .noOpen ∨ ans.written sz = 0

instance (ans : WriteAns) (sz : Nat) : Decidable (ans.AddsNone sz) := inferInstanceAs (Decidable (_ ∨ _))

/-- What reaches the file of a block. -/
def WriteAns.landed (ans : WriteAns) (b : Bytes) : Bytes := b.take (ans.written b.length)

theorem WriteAns.Full.landed {ans : WriteAns} {b : Bytes} (hf : ans.Full b.length) : ans.landed b = b := by
  rw [WriteAns.landed, hf.2, List.take_length]

theorem fileAppend_took {ans : WriteAns} {fs : Fs} {path : Path} {old str : Bytes} (hd : fs.disk path = some old)
    (ht : ans.Took str.length) : fileAppend ans fs path str str.length =
      (.ok, { disk := Function.update fs.disk path (some (old ++ ans.landed str)), ops := fs.ops ++ [.append path] }) := by
  unfold fileAppend
  rw [hd]
  simp only [if_neg ht.1, ht.2, ne_eq, not_true_eq_false, if_false]
  rfl

/-- A failed append leaves a prefix of the block behind the old contents. -/
theorem fileAppend_fail {ans : WriteAns} {fs : Fs} {path : Path} {old str : Bytes} (hd : fs.disk path = some old)
    (ht : ¬ ans.Took str.length) : ∃ rv fs', fileAppend ans fs path str str.length = (rv, fs') ∧ rv ≠ .ok ∧
      (∀ q, q ≠ path → fs'.disk q = fs.disk q) ∧
      (∃ rest, fs'.disk path = some (old ++ rest) ∧ (ans.AddsNone str.length → rest = [])) ∧
      ∃ m, fs'.ops = fs.ops ++ List.replicate m (.append path) := by
  by_cases ho : ans = .noOpen
  · exact ⟨.file, fs, by simp only [fileAppend, hd, if_pos ho], nofun, fun _ _ => rfl,
      ⟨[], by rw [hd, List.append_nil], fun _ => rfl⟩, 0, by simp⟩
  · have hn : ans.counted str.length ≠ str.length := fun h => ht ⟨ho, h⟩
    refine ⟨.filewr, { disk := Function.update fs.disk path (some (old ++ str.take (ans.written str.length))),
                       ops := fs.ops ++ [.append path] }, by simp only [fileAppend, hd, if_neg ho, if_pos hn], nofun,
      fun q hq => Function.update_of_ne hq _ _, ⟨_, Function.update_self .., fun hnone => ?_⟩, 1, rfl⟩
    rw [hnone.resolve_left ho, List.take_zero]

theorem fileAppend_missing {ans : WriteAns} {fs : Fs} {path : Path} (hd : fs.disk path = none) (str : Bytes) (sz : Nat) :
    fileAppend ans fs path str sz = (.filepath, fs) := by
  simp only [fileAppend, hd]

/-! ## The cached run -/

structure Nctx.Wf (c : Nctx) : Prop where
  length : c.entries.length = c.cap
  len : ∀ e ∈ c.entries, ∀ b, e.body = some b → e.len = b.length

/-- The bodies cached from index `i` on, up to the first entry without one. -/
def cachedRun (es : List Buf) (i : Nat) : List Bytes :=
  ((es.drop i).takeWhile (·.body.isSome)).map (·.body.getD [])

def Nctx.run (c : Nctx) : List Bytes := cachedRun c.entries (c.nextid + 1)

theorem cachedRun_end {es : List Buf} {i : Nat} (h : es.length ≤ i) : cachedRun es i = [] := by
  rw [cachedRun, List.drop_eq_nil_of_le h]
  rfl

theorem cachedRun_none {es : List Buf} {i l : Nat} (h : es[i]? = some ⟨none, l⟩) : cachedRun es i = [] := by
  obtain ⟨hi, he⟩ := List.getElem?_eq_some_iff.1 h
  rw [cachedRun, List.drop_eq_getElem_cons hi, he]
  rfl

theorem cachedRun_some {es : List Buf} {i l : Nat} {b : Bytes} (h : es[i]? = some ⟨some b, l⟩) :
    cachedRun es i = b :: cachedRun es (i + 1) := by
  obtain ⟨hi, he⟩ := List.getElem?_eq_some_iff.1 h
  rw [cachedRun, List.drop_eq_getElem_cons hi, he]
  rfl

theorem cachedRun_set {es : List Buf} {i j : Nat} (h : i < j) (x : Buf) : cachedRun (es.set i x) j = cachedRun es j := by
  rw [cachedRun, List.drop_set_of_lt h, cachedRun]

theorem cachedRun_length (es : List Buf) (i : Nat) : (cachedRun es i).length ≤ es.length - i := by
  rw [cachedRun, List.length_map, ← List.length_drop]
  exact (List.takeWhile_sublist _).length_le

/-- **What a run is**: the bodies at its places, and no body behind it. -/
theorem cachedRun_spec (es : List Buf) : ∀ n i, es.length ≤ i + n →
    (∀ j b, (cachedRun es i)[j]? = some b → ∃ l, es[i + j]? = some ⟨some b, l⟩) ∧
    ∀ b l, es[i + (cachedRun es i).length]? ≠ some ⟨some b, l⟩
  | 0, i, hn => by
    rw [cachedRun_end (by omega)]
    refine ⟨nofun, fun b l h => ?_⟩
    have := (List.getElem?_eq_some_iff.1 h).1
    simp only [List.length_nil] at this
    omega
  | n + 1, i, hn => by
    cases he : es[i]? with
    | none =>
      rw [cachedRun_end (List.getElem?_eq_none_iff.1 he)]
      exact ⟨nofun, fun b l h => by rw [List.length_nil, Nat.add_zero, he] at h; cases h⟩
    | some e =>
      obtain ⟨body, l⟩ := e
      cases body with
      | none =>
        rw [cachedRun_none he]
        exact ⟨nofun, fun b l h => by rw [List.length_nil, Nat.add_zero, he] at h; cases h⟩
      | some b =>
        obtain ⟨hat, hend⟩ := cachedRun_spec es n (i + 1) (by omega)
        rw [cachedRun_some he]
        constructor
        · intro j b' hj
          cases j with
          | zero => cases hj; exact ⟨l, he⟩
          | succ j =>
            rw [show i + (j + 1) = i + 1 + j by omega]
            exact hat j b' hj
        · rw [List.length_cons, show i + ((cachedRun es (i + 1)).length + 1) = i + 1 + (cachedRun es (i + 1)).length by omega]
          exact hend

/-- A run of blocks of a file is the blocks at its places. -/
theorem cachedRun_of_blocks {es : List Buf} {blocks : List Bytes} {i : Nat}
    (hcache : ∀ k e b, i ≤ k → es[k]? = some e → e.body = some b → blocks[k]? = some b) :
    cachedRun es i = (blocks.drop i).take (cachedRun es i).length := by
  obtain ⟨hat, -⟩ := cachedRun_spec es es.length i (by omega)
  apply List.ext_getElem?
  intro j
  rw [List.getElem?_take]
  by_cases hj : j < (cachedRun es i).length
  · obtain ⟨l, he⟩ := hat j _ (List.getElem?_eq_getElem hj)
    rw [if_pos hj, List.getElem?_drop, hcache (i + j) _ _ (Nat.le_add_right i j) he rfl, List.getElem?_eq_getElem hj]
  · rw [if_neg hj, List.getElem?_eq_none (Nat.le_of_not_lt hj)]

/-! ## The drain -/

/-- Entries with `n` of them, from `i` on, emptied. -/
def emptied (es : List Buf) (i n : Nat) : List Buf :=
  es.mapIdx fun j e => if i ≤ j ∧ j < i + n then ⟨none, 0⟩ else e

@[simp] theorem emptied_length (es : List Buf) (i n : Nat) : (emptied es i n).length = es.length := List.length_mapIdx

theorem emptied_getElem? (es : List Buf) (i n j : Nat) :
    (emptied es i n)[j]? = if i ≤ j ∧ j < i + n then es[j]?.map fun _ => ⟨none, 0⟩ else es[j]? := by
  rw [emptied, List.getElem?_mapIdx]
  split <;> cases es[j]? <;> rfl

@[simp] theorem emptied_zero (es : List Buf) (i : Nat) : emptied es i 0 = es := by
  apply List.ext_getElem?
  intro j
  rw [emptied_getElem?, if_neg (by omega)]

theorem emptied_set (es : List Buf) (i n : Nat) :
    emptied (es.set i ⟨none, 0⟩) (i + 1) n = emptied es i (n + 1) := by
  apply List.ext_getElem?
  intro j
  rw [emptied_getElem?, emptied_getElem?, List.getElem?_set]
  by_cases hj : i = j
  · subst hj
    have h1 : ¬ (i + 1 ≤ i ∧ i < i + 1 + n) := by omega
    have h2 : i ≤ i ∧ i < i + (n + 1) := by omega
    rw [if_neg h1, if_pos rfl, if_pos h2]
    by_cases hl : i < es.length
    · rw [if_pos hl, List.getElem?_eq_getElem hl]; rfl
    · rw [if_neg hl, List.getElem?_eq_none (Nat.le_of_not_lt hl)]; rfl
  · rw [if_neg hj]
    by_cases hr : i + 1 ≤ j ∧ j < i + 1 + n
    · rw [if_pos hr, if_pos (by omega)]
    · rw [if_neg hr, if_neg (by omega)]

/-- The context after `j` cached blocks were appended behind the one that was next. -/
def Nctx.drained (c : Nctx) (j : Nat) : Nctx :=
  { c with nextid := c.nextid + 1 + j, entries := emptied c.entries (c.nextid + 1) j }

/-- What reaches the file of blocks appended one by one, the first of them by the `k`-th append of the call. -/
def Host.landed (h : Host) : Nat → List Bytes → Bytes
  | _, [] => []
  | k, b :: bs => (h.append k).landed b ++ Host.landed h (k + 1) bs

theorem Host.landed_full {h : Host} : ∀ {k : Nat} {bs : List Bytes},
    (∀ i b, bs[i]? = some b → (h.append (k + i)).Full b.length) → h.landed k bs = bs.flatten
  | _, [], _ => rfl
  | k, b :: bs, hf => by
    have hb : (h.append k).Full b.length := hf 0 b rfl
    have hbs : ∀ i b, bs[i]? = some b → (h.append (k + 1 + i)).Full b.length := fun i b' hi => by
      rw [show k + 1 + i = k + (i + 1) by omega]
      exact hf (i + 1) b' hi
    rw [Host.landed, hb.landed, Host.landed_full hbs, List.flatten_cons]

/-- Appends of the blocks `bs` to the file `path`, the first of them the `k`-th append of the call: `j` of them return 0,
and then all are made or the next one fails. -/
structure Appended (h : Host) (path : Path) (fs : Fs) (k : Nat) (bs : List Bytes) (j : Nat) (rv : Rv) (fs' : Fs) :
    Prop where
  le : j ≤ bs.length
  ok_iff : rv = .ok ↔ j = bs.length
  took : ∀ i b, i < j → bs[i]? = some b → (h.append (k + i)).Took b.length
  stop : ∀ b, bs[j]? = some b → ¬ (h.append (k + j)).Took b.length
  frame : ∀ q, q ≠ path → fs'.disk q = fs.disk q
  disk : ∀ old, fs.disk path = some old →
    ∃ rest, fs'.disk path = some (old ++ h.landed k (bs.take j) ++ rest) ∧ (rv = .ok → rest = []) ∧
      ∀ b, bs[j]? = some b → (h.append (k + j)).AddsNone b.length → rest = []
  ops : ∃ m, fs'.ops = fs.ops ++ List.replicate m (.append path)

theorem Appended.nil (h : Host) (path : Path) (fs : Fs) (k : Nat) : Appended h path fs k [] 0 .ok fs where
  le := Nat.le_refl _
  ok_iff := by simp
  took := nofun
  stop := nofun
  frame _ _ := rfl
  disk old hd := ⟨[], by simp [hd, Host.landed], fun _ => rfl, fun _ _ _ => rfl⟩
  ops := ⟨0, by simp⟩

theorem Appended.cons {h : Host} {path : Path} {fs fs' : Fs} {k j : Nat} {b old : Bytes} {bs : List Bytes} {rv : Rv}
    (hd : fs.disk path = some old) (ht : (h.append k).Took b.length)
    (ha : Appended h path
      { disk := Function.update fs.disk path (some (old ++ (h.append k).landed b)), ops := fs.ops ++ [.append path] }
      (k + 1) bs j rv fs') : Appended h path fs k (b :: bs) (j + 1) rv fs' where
  le := Nat.succ_le_succ ha.le
  ok_iff := by rw [ha.ok_iff, List.length_cons, Nat.add_right_cancel_iff]
  took i b' hi hb := by
    cases i with
    | zero => cases hb; exact ht
    | succ i =>
      rw [show k + (i + 1) = k + 1 + i by omega]
      exact ha.took i b' (by omega) hb
  stop b' hb := by
    rw [show k + (j + 1) = k + 1 + j by omega]
    exact ha.stop b' hb
  frame q hq := by rw [ha.frame q hq]; exact Function.update_of_ne hq _ _
  disk old' hd' := by
    obtain ⟨rest, hr, hrest, hnone⟩ := ha.disk (old ++ (h.append k).landed b) (Function.update_self ..)
    rw [hd] at hd'
    cases hd'
    refine ⟨rest, by rw [hr, List.take_succ_cons, Host.landed]; simp only [List.append_assoc], hrest, fun b' hb' => ?_⟩
    rw [show k + (j + 1) = k + 1 + j by omega]
    exact hnone b' hb'
  ops := by
    obtain ⟨m, hm⟩ := ha.ops
    exact ⟨m + 1, by rw [hm, List.append_assoc, List.replicate_succ]; rfl⟩

theorem Appended.fail {h : Host} {path : Path} {fs fs' : Fs} {k : Nat} {b old : Bytes} {bs : List Bytes} {rv : Rv}
    (hd : fs.disk path = some old) (ht : ¬ (h.append k).Took b.length) (hrv : rv ≠ .ok)
    (hframe : ∀ q, q ≠ path → fs'.disk q = fs.disk q)
    (hdisk : ∃ rest, fs'.disk path = some (old ++ rest) ∧ ((h.append k).AddsNone b.length → rest = []))
    (hops : ∃ m, fs'.ops = fs.ops ++ List.replicate m (.append path)) : Appended h path fs k (b :: bs) 0 rv fs' where
  le := Nat.zero_le _
  ok_iff := ⟨fun h' => absurd h' hrv, fun h' => by rw [List.length_cons] at h'; omega⟩
  took := nofun
  stop b' hb := by cases hb; exact ht
  frame := hframe
  disk old' hd' := by
    obtain ⟨rest, hr, hnone⟩ := hdisk
    rw [hd] at hd'
    cases hd'
    refine ⟨rest, by rw [hr, List.take_zero, Host.landed, List.append_nil], fun h' => absurd h' hrv, fun b' hb' => ?_⟩
    cases hb'
    exact hnone
  ops := hops

/-- **The drain** appends the cached run, each append taking one block out of the cache. -/
theorem drain_spec (h : Host) (path : Path) : ∀ (fuel k : Nat) (c : Nctx) (fs : Fs), c.Wf → (fs.disk path).isSome →
    0 < fuel → c.cap < c.nextid + fuel → ∃ j rv fs', drain h path c fs k fuel = .ok (rv, c.drained j, fs') ∧
      Appended h path fs k c.run j rv fs'
  | 0, _, _, _, _, _, h0, _ => absurd h0 (Nat.lt_irrefl 0)
  | fuel + 1, k, c, fs, hw, hex, _, hfuel => by
    have hl := hw.length
    by_cases hend : ((c.nextid + 1 : Nat) : Int) > (c.cap : Int) - 1
    · have hrun : c.run = [] := cachedRun_end (by omega)
      refine ⟨0, .ok, fs, ?_, by rw [hrun]; exact .nil h path fs k⟩
      unfold drain
      rw [if_pos hend, Nctx.drained, emptied_zero]
    · have hi : c.nextid + 1 < c.entries.length := by omega
      obtain ⟨body, l, he⟩ : ∃ body l, c.entries[c.nextid + 1]? = some ⟨body, l⟩ :=
        ⟨_, _, List.getElem?_eq_getElem hi⟩
      cases body with
      | none =>
        have hrun : c.run = [] := cachedRun_none he
        refine ⟨0, .ok, fs, ?_, by rw [hrun]; exact .nil h path fs k⟩
        unfold drain
        rw [if_neg hend]
        simp only [he]
        rw [Nctx.drained, emptied_zero]
      | some b =>
        have hlen : l = b.length := hw.len _ (List.mem_of_getElem? he) b rfl
        subst hlen
        have hrun : c.run = b :: cachedRun c.entries (c.nextid + 1 + 1) := cachedRun_some he
        obtain ⟨old, hd⟩ := Option.isSome_iff_exists.1 hex
        rw [hrun]
        by_cases ht : (h.append k).Took b.length
        · -- the append is made: go on with the entry emptied
          let c' : Nctx := { c with nextid := c.nextid + 1, entries := c.entries.set (c.nextid + 1) ⟨none, 0⟩ }
          have hw' : c'.Wf := by
            refine ⟨by simp [c', hl], fun e he' b' hb' => ?_⟩
            rcases List.mem_or_eq_of_mem_set he' with hm | rfl
            · exact hw.len e hm b' hb'
            · cases hb'
          obtain ⟨j, rv, fs', hdrain, happ⟩ := drain_spec h path fuel (k + 1) c'
            { disk := Function.update fs.disk path (some (old ++ (h.append k).landed b)), ops := fs.ops ++ [.append path] } hw'
            (by simp) (by omega) (by simp only [c']; omega)
          have hrun' : c'.run = cachedRun c.entries (c.nextid + 1 + 1) := cachedRun_set (Nat.lt_succ_self _) _
          rw [hrun'] at happ
          refine ⟨j + 1, rv, fs', ?_, happ.cons hd ht⟩
          unfold drain
          rw [if_neg hend]
          simp only [he, fileAppend_took hd ht, ne_eq, not_true_eq_false, if_false]
          show drain h path c' _ (k + 1) fuel = _
          rw [hdrain]
          simp only [Nctx.drained, c', emptied_set]
          rw [show c.nextid + 1 + 1 + j = c.nextid + 1 + (j + 1) by omega]
        · obtain ⟨rv, fs', happ, hrv, hframe, hdisk, hops⟩ := fileAppend_fail hd ht
          refine ⟨0, rv, fs', ?_, .fail hd ht hrv hframe hdisk hops⟩
          unfold drain
          rw [if_neg hend]
          simp only [he, happ, if_pos hrv]
          rw [Nctx.drained, emptied_zero]

/-! ## Storing a block -/

/-- The context after the block that was next and `j - 1` cached blocks behind it were appended. -/
def Nctx.appended (c : Nctx) (j : Nat) (rv : Rv) : Nctx :=
  match j with
  | 0 => c
  | j + 1 => { c.drained j with len := if rv = .ok then c.len + 1 else c.len }

def Nctx.cached (c : Nctx) (n : Packet) (e : Buf) : Nctx :=
  { c with
    entries := c.entries.set n.blockseq.toNat ⟨n.content, n.ctlen⟩
    len := (if e.len ≠ 0 ∧ e.body.isSome then c.len - 1 else c.len) + 1 }

theorem appended_nextid (c : Nctx) (j : Nat) (rv : Rv) : (c.appended j rv).nextid = c.nextid + j := by
  cases j with
  | zero => rfl
  | succ j => exact Nat.add_right_comm c.nextid 1 j

/-- Behind the blocks appended the cache is as it was. -/
theorem appended_entries {c : Nctx} {j k : Nat} (rv : Rv) (hk : c.nextid + j ≤ k) :
    (c.appended j rv).entries[k]? = c.entries[k]? := by
  cases j with
  | zero => rfl
  | succ j =>
    show (emptied c.entries (c.nextid + 1) j)[k]? = _
    rw [emptied_getElem?, if_neg (by omega)]

theorem storeBlock_next (h : Host) (path : Path) {c : Nctx} {fs : Fs} {n : Packet} {b : Bytes} (hw : c.Wf)
    (hseq : n.blockseq.toNat = c.nextid) (hb : n.content = some b) (hn : b.length = n.ctlen)
    (hex : (fs.disk path).isSome) :
    ∃ j rv fs', storeBlock h path c fs n = .ok (rv, c.appended j rv, fs') ∧ Appended h path fs 0 (b :: c.run) j rv fs' := by
  obtain ⟨old, hd⟩ := Option.isSome_iff_exists.1 hex
  have hb' : n.content.getD [] = b := by rw [hb]; rfl
  by_cases ht : (h.append 0).Took b.length
  · obtain ⟨j, rv, fs', hdrain, happ⟩ := drain_spec h path (c.cap - c.nextid + 1) 1 c
      { disk := Function.update fs.disk path (some (old ++ (h.append 0).landed b)), ops := fs.ops ++ [.append path] } hw
      (by simp) (by omega) (by omega)
    refine ⟨j + 1, rv, fs', ?_, happ.cons hd ht⟩
    unfold storeBlock
    rw [if_pos hseq, ← hn, hb', fileAppend_took hd ht]
    simp only [ne_eq, not_true_eq_false, if_false, hdrain, bind_ok]
    by_cases hrv : rv = .ok
    · rw [if_neg (by simpa using hrv)]
      simp only [Nctx.appended, hrv]
      rfl
    · rw [if_pos hrv]
      simp only [Nctx.appended, if_neg hrv]
      rfl
  · obtain ⟨rv, fs', happ, hrv, hframe, hdisk, hops⟩ := fileAppend_fail hd ht
    refine ⟨0, rv, fs', ?_, .fail hd ht hrv hframe hdisk hops⟩
    unfold storeBlock
    rw [if_pos hseq, ← hn, hb', happ]
    simp only [if_pos hrv]
    rfl

theorem storeBlock_missing (h : Host) {path : Path} {c : Nctx} {fs : Fs} {n : Packet}
    (hseq : n.blockseq.toNat = c.nextid) (hex : fs.disk path = none) :
    storeBlock h path c fs n = .ok (.filepath, c, fs) := by
  unfold storeBlock
  rw [if_pos hseq, fileAppend_missing hex]
  rfl

theorem cached_entries {c : Nctx} {n : Packet} (hlt : n.blockseq.toNat < c.entries.length) (e : Buf) (k : Nat) :
    (c.cached n e).entries[k]? = if n.blockseq.toNat = k then some ⟨n.content, n.ctlen⟩ else c.entries[k]? := by
  show (c.entries.set n.blockseq.toNat ⟨n.content, n.ctlen⟩)[k]? = _
  rw [List.getElem?_set]
  by_cases hk : n.blockseq.toNat = k
  · rw [if_pos hk, if_pos hk, if_pos hlt]
  · rw [if_neg hk, if_neg hk]

theorem storeBlock_cache (h : Host) (path : Path) {c : Nctx} (fs : Fs) {n : Packet} {e : Buf}
    (hseq : n.blockseq.toNat ≠ c.nextid) (he : c.entries[n.blockseq.toNat]? = some e) :
    storeBlock h path c fs n = .ok (.ok, c.cached n e, fs) := by
  unfold storeBlock
  rw [if_neg hseq, he]
  rfl

theorem storeBlock_outside (h : Host) (path : Path) {c : Nctx} (fs : Fs) {n : Packet} (hw : c.Wf)
    (hseq : n.blockseq.toNat ≠ c.nextid) (hcap : c.cap ≤ n.blockseq.toNat) :
    storeBlock h path c fs n = .error .tableIndex := by
  unfold storeBlock
  rw [if_neg hseq, List.getElem?_eq_none (by rw [hw.length]; exact hcap)]

/-! ## What storing a block keeps -/

/-- Two contexts of one transfer: they differ in the blocks received only. -/
structure Nctx.Same (c c' : Nctx) : Prop where
  cap : c'.cap = c.cap
  fileid : c'.fileid = c.fileid
  hashcode : c'.hashcode = c.hashcode
  fcb : c'.fcb = c.fcb
  wfname : c'.wfname = c.wfname

theorem Nctx.Same.refl (c : Nctx) : c.Same c := ⟨rfl, rfl, rfl, rfl, rfl⟩

theorem drained_wf {c : Nctx} (hw : c.Wf) (j : Nat) : (c.drained j).Wf := by
  refine ⟨by simp [Nctx.drained, hw.length], fun e he b hb => ?_⟩
  obtain ⟨i, hi⟩ := List.getElem?_of_mem he
  rw [show (c.drained j).entries = emptied c.entries (c.nextid + 1) j from rfl, emptied_getElem?] at hi
  split at hi
  · obtain ⟨e', -, rfl⟩ := Option.map_eq_some_iff.1 hi
    cases hb
  · exact hw.len e (List.mem_of_getElem? hi) b hb

theorem appended_wf {c : Nctx} (hw : c.Wf) (j : Nat) (rv : Rv) : (c.appended j rv).Wf := by
  cases j with
  | zero => exact hw
  | succ j => exact ⟨(drained_wf hw j).length, (drained_wf hw j).len⟩

theorem appended_same (c : Nctx) (j : Nat) (rv : Rv) : c.Same (c.appended j rv) := by
  cases j <;> exact ⟨rfl, rfl, rfl, rfl, rfl⟩

theorem cached_wf {c : Nctx} (hw : c.Wf) {n : Packet} {b : Bytes} (hb : n.content = some b) (hn : b.length = n.ctlen)
    (e : Buf) : (c.cached n e).Wf := by
  refine ⟨by simp [Nctx.cached, hw.length], fun e' he' b' hb' => ?_⟩
  rcases List.mem_or_eq_of_mem_set he' with hm | rfl
  · exact hw.len e' hm b' hb'
  · simp only [hb, Option.some.injEq] at hb'
    exact hn ▸ hb' ▸ rfl

structure AppendedTo (path : Path) (fs fs' : Fs) : Prop where
  frame : ∀ q, q ≠ path → fs'.disk q = fs.disk q
  isSome : (fs'.disk path).isSome = (fs.disk path).isSome
  ops : ∃ m, fs'.ops = fs.ops ++ List.replicate m (.append path)

theorem AppendedTo.refl (path : Path) (fs : Fs) : AppendedTo path fs fs := ⟨fun _ _ => rfl, rfl, 0, by simp⟩

/-- **Storing a block** keeps the context well formed, the transfer's constants, and every other file. -/
theorem storeBlock_keeps {h : Host} {path : Path} {c c' : Nctx} {fs fs' : Fs} {n : Packet} {b : Bytes} {rv : Rv}
    (hw : c.Wf) (hb : n.content = some b) (hn : b.length = n.ctlen)
    (hr : storeBlock h path c fs n = .ok (rv, c', fs')) : c'.Wf ∧ c.Same c' ∧ AppendedTo path fs fs' := by
  by_cases hseq : n.blockseq.toNat = c.nextid
  · cases hd : fs.disk path with
    | none =>
      rw [storeBlock_missing h hseq hd] at hr
      cases hr
      exact ⟨hw, .refl c, .refl path fs⟩
    | some old =>
      obtain ⟨j, rv', fs'', hrun, happ⟩ := storeBlock_next h path hw hseq hb hn (by rw [hd]; rfl)
      rw [hrun] at hr
      cases hr
      obtain ⟨rest, hrest, -⟩ := happ.disk old hd
      exact ⟨appended_wf hw j rv, appended_same c j rv, happ.frame, by rw [hrest, hd]; rfl, happ.ops⟩
  · by_cases hcap : c.cap ≤ n.blockseq.toNat
    · rw [storeBlock_outside h path fs hw hseq hcap] at hr
      cases hr
    · obtain ⟨e, he⟩ : ∃ e, c.entries[n.blockseq.toNat]? = some e :=
        ⟨_, List.getElem?_eq_getElem (by rw [hw.length]; omega)⟩
      rw [storeBlock_cache h path fs hseq he] at hr
      cases hr
      exact ⟨cached_wf hw hb hn e, ⟨rfl, rfl, rfl, rfl, rfl⟩, .refl path fs⟩

/-! ## Completing a transfer -/

/-- What a block adds to the part file, its appends returning 0: of itself and of the cached run what reaches the file when
it is next, nothing when it is cached. -/
def Nctx.stored (c : Nctx) (h : Host) (n : Packet) : Bytes :=
  if n.blockseq.toNat = c.nextid then h.landed 0 (n.content.getD [] :: c.run) else []

/-- The append of every block returns 0, the first block's being the call's first. -/
def AllTook (h : Host) (bs : List Bytes) : Prop := ∀ i, i < bs.length → (h.append i).Took (bs.getD i []).length

/-- Moreover every block reaches the file in full. -/
def AllFull (h : Host) (bs : List Bytes) : Prop := ∀ i, i < bs.length → (h.append i).Full (bs.getD i []).length

theorem AllFull.took {h : Host} {bs : List Bytes} (ha : AllFull h bs) : AllTook h bs := fun i hi => (ha i hi).1

/-- The block is the last one missing, and its appends succeed; or it is another one, and the context is one left behind
with no block missing. -/
def Completes (h : Host) (d : Disk) (path : Path) (c : Nctx) (n : Packet) : Prop :=
  if n.blockseq.toNat = c.nextid then
    c.nextid + 1 + c.run.length = c.cap ∧ (d path).isSome ∧ AllTook h (n.content.getD [] :: c.run)
  else c.nextid = c.cap

instance (h : Host) (bs : List Bytes) : Decidable (AllTook h bs) := inferInstanceAs (Decidable (∀ i, i < bs.length → _))

instance (h : Host) (d : Disk) (path : Path) (c : Nctx) (n : Packet) : Decidable (Completes h d path c n) :=
  inferInstanceAs (Decidable (ite _ _ _))

/-- An append of the blocks that returns an error adds no byte. -/
def FailsClean (h : Host) (bs : List Bytes) : Prop :=
  ∀ i b, bs[i]? = some b → ¬ (h.append i).Took b.length → (h.append i).AddsNone b.length

/-- No append of the blocks that returns 0 loses a byte when the file is closed. -/
def Lossless (h : Host) (bs : List Bytes) : Prop :=
  ∀ i b, bs[i]? = some b → (h.append i).Took b.length → (h.append i).Full b.length

/-- Each append the call would make of the blocks is made in full, or fails and adds no byte. -/
structure Clean (h : Host) (bs : List Bytes) : Prop where
  fails : FailsClean h bs
  lossless : Lossless h bs

theorem AllFull.clean {h : Host} {bs : List Bytes} (ha : AllFull h bs) : Clean h bs := by
  have hfull : ∀ i b, bs[i]? = some b → (h.append i).Full b.length := by
    intro i b hb
    obtain ⟨hi, rfl⟩ := List.getElem?_eq_some_iff.1 hb
    have hf := ha i hi
    rwa [show bs.getD i [] = bs[i] by simp [hi]] at hf
  exact ⟨fun i b hb hno => absurd (hfull i b hb).1 hno, fun i b hb _ => hfull i b hb⟩

/-- Appends that are clean leave whole blocks. -/
theorem Appended.clean {h : Host} {path : Path} {fs fs' : Fs} {bs : List Bytes} {j : Nat} {rv : Rv} {old : Bytes}
    (ha : Appended h path fs 0 bs j rv fs') (hclean : Clean h bs) (hd : fs.disk path = some old) :
    fs'.disk path = some (old ++ (bs.take j).flatten) := by
  obtain ⟨rest, hrest, hok, hnone⟩ := ha.disk old hd
  have hnil : rest = [] := by
    by_cases hj : j = bs.length
    · exact hok (ha.ok_iff.2 hj)
    · have hb := List.getElem?_eq_getElem (Nat.lt_of_le_of_ne ha.le hj)
      refine hnone _ hb ?_
      have hstop := ha.stop _ hb
      rw [Nat.zero_add] at hstop ⊢
      exact hclean.fails j _ hb hstop
  have hall : h.landed 0 (bs.take j) = (bs.take j).flatten := by
    refine Host.landed_full fun i b hb => ?_
    have hi : i < j := by
      have := (List.getElem?_eq_some_iff.1 hb).1
      rw [List.length_take] at this
      omega
    rw [List.getElem?_take_of_lt hi] at hb
    have htook := ha.took i b hi hb
    rw [Nat.zero_add] at htook ⊢
    exact hclean.lossless i b hb htook
  rw [hrest, hall, hnil, List.append_nil]

theorem Appended.ok_iff_took {h : Host} {path : Path} {fs fs' : Fs} {bs : List Bytes} {j : Nat} {rv : Rv}
    (ha : Appended h path fs 0 bs j rv fs') : rv = .ok ↔ AllTook h bs := by
  rw [ha.ok_iff]
  constructor
  · rintro rfl i hi
    have ht := ha.took i bs[i] hi (List.getElem?_eq_getElem hi)
    rwa [Nat.zero_add, show bs[i] = bs.getD i [] by simp [hi]] at ht
  · intro hall
    by_contra hne
    have hj : j < bs.length := Nat.lt_of_le_of_ne ha.le hne
    have hs := ha.stop bs[j] (List.getElem?_eq_getElem hj)
    rw [Nat.zero_add, show bs[j] = bs.getD j [] by simp [hj]] at hs
    exact hs (hall j hj)

/-- **When a block completes its transfer**, in terms of the context and the disk before. -/
theorem storeBlock_completes {h : Host} {path : Path} {c c' : Nctx} {fs fs' : Fs} {n : Packet} {b : Bytes} {rv : Rv}
    (hw : c.Wf) (hb : n.content = some b) (hn : b.length = n.ctlen) (hr : storeBlock h path c fs n = .ok (rv, c', fs')) :
    (rv = .ok ∧ c'.nextid = c'.cap ↔ Completes h fs.disk path c n) ∧
    (rv = .ok → ∀ old, fs.disk path = some old → fs'.disk path = some (old ++ c.stored h n)) := by
  unfold Completes Nctx.stored
  have hb' : n.content.getD [] = b := by rw [hb]; rfl
  by_cases hseq : n.blockseq.toNat = c.nextid
  · rw [if_pos hseq, if_pos hseq, hb']
    cases hd : fs.disk path with
    | none =>
      rw [storeBlock_missing h hseq hd] at hr
      cases hr
      exact ⟨⟨nofun, fun h' => absurd h'.2.1 (by simp)⟩, nofun⟩
    | some old =>
      obtain ⟨j, rv', fs'', hrun, happ⟩ := storeBlock_next h path hw hseq hb hn (by rw [hd]; rfl)
      rw [hrun] at hr
      cases hr
      have hlen : rv = .ok → (c.appended j rv).nextid = c.nextid + 1 + c.run.length ∧ (c.appended j rv).cap = c.cap := by
        intro hrv
        have hj := happ.ok_iff.1 hrv
        rw [List.length_cons] at hj
        subst hj
        exact ⟨rfl, rfl⟩
      rw [← happ.ok_iff_took]
      refine ⟨⟨fun ⟨hrv, hcap⟩ => ?_, fun ⟨hcap, _, hrv⟩ => ⟨hrv, ?_⟩⟩, fun hrv old' hold => ?_⟩
      · obtain ⟨h1, h2⟩ := hlen hrv
        exact ⟨by rw [← h1, hcap, h2], rfl, hrv⟩
      · obtain ⟨h1, h2⟩ := hlen hrv
        rw [h1, h2, hcap]
      · cases hold
        obtain ⟨rest, hrest, hnil, -⟩ := happ.disk old hd
        have hj := happ.ok_iff.1 hrv
        rw [hrest, hnil hrv, List.append_nil, hj, List.take_length]
  · rw [if_neg hseq, if_neg hseq]
    by_cases hcap : c.cap ≤ n.blockseq.toNat
    · rw [storeBlock_outside h path fs hw hseq hcap] at hr
      cases hr
    · obtain ⟨e, he⟩ : ∃ e, c.entries[n.blockseq.toNat]? = some e :=
        ⟨_, List.getElem?_eq_getElem (by rw [hw.length]; omega)⟩
      rw [storeBlock_cache h path fs hseq he] at hr
      cases hr
      exact ⟨⟨fun h' => h'.2, fun h' => ⟨rfl, h'⟩⟩, fun _ old hold => by rw [List.append_nil]; exact hold⟩

end Nftp
