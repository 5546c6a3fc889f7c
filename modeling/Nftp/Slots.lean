import Nftp.Flatten
/-!
# Slots — the slots of an iovs

The calls on a family of iovs with `nftp_iovs_insert` among them, and which of them stay in the array: all but a tail
push when the window ends where the array ends, whose test lets it through.
-/
namespace Nftp

open Lib
open Function (update update_self)

variable {ι β : Type}

/-- The calls of the API. -/
inductive IovsUse (ι β : Type)
  | op (op : IovsOp ι β)
  | insert (i : ι) (ptr : Option β) (len pos : Nat)

def iovsUse [DecidableEq ι] (f : ι → Iovs β) : IovsUse ι β → Except Fault (IovsAns β × (ι → Iovs β))
  | .op op => iovsCall f op
  | .insert i ptr len pos => do
    let (rv, v) ← iovsInsert (f i) ptr len pos
    return (⟨rv, none⟩, update f i v)

/-- A call with its answer. -/
def UseStep [DecidableEq ι] (f : ι → Iovs β) (c : IovsUse ι β × IovsAns β) (f' : ι → Iovs β) : Prop :=
  iovsUse f c.1 = .ok (c.2, f')

/-- The array has no slot next to the window at that end. -/
def Iovs.AtEnd (v : Iovs β) : End → Prop
  | .head => v.low = 0
  | .tail => v.cap ≤ v.low + v.len
  | .other => False

/-- The call needs a slot the array does not have. -/
def IovsUse.Beyond (f : ι → Iovs β) : IovsUse ι β → Prop
  | .op (.push i _ _ flag) => (f i).AtEnd flag
  | .op (.append i _ _) => (f i).AtEnd .tail
  | .op (.pop _ _) => False
  | .op (.cat dest src) => (f dest).cap < (f dest).low + (f dest).len + (f src).len
  | .insert i _ _ _ => (f i).AtEnd .tail

/-- The call stays in the array, and every window too; it is refused, with nothing changed, when it needs a slot more. -/
def IovsUse.Safe [DecidableEq ι] (f : ι → Iovs β) (u : IovsUse ι β) : Prop :=
  ∃ ans f', iovsUse f u = .ok (ans, f') ∧ (∀ i, (f' i).low + (f' i).len ≤ (f' i).cap) ∧
    (u.Beyond f → ans.rv = .overflow ∧ f' = f)

/-- The call is no tail push onto a window that ends where the array ends. -/
def IovsUse.Careful (f : ι → Iovs β) : IovsUse ι β → Prop
  | .op (.push i _ _ .tail) => (f i).low + (f i).len ≠ (f i).cap
  | .op (.append i _ _) => (f i).low + (f i).len ≠ (f i).cap
  | _ => True

/-! ## One iovs -/

/-- What a call leaves of an iovs: a window in the same array, and nothing changed when it needed a slot more. -/
structure Iovs.Left (v : Iovs β) (beyond : Prop) (rv : Rv) (v' : Iovs β) : Prop extends v'.Wf where
  cap_eq : v'.cap = v.cap
  refused : beyond → rv = .overflow ∧ v' = v

variable {v : Iovs β}

theorem Iovs.Wf.left (h : v.Wf) {beyond : Prop} {rv : Rv} (hrv : beyond → rv = .overflow) : v.Left beyond rv v :=
  ⟨h, rfl, fun hb => ⟨hrv hb, rfl⟩⟩

theorem iovsPush_left (h : v.Wf) (ptr : Option β) (len : Nat) {flag : End} (hc : flag = .tail → v.low + v.len ≠ v.cap) :
    ∃ rv v', iovsPush v ptr len flag = .ok (rv, v') ∧ v.Left (v.AtEnd flag) rv v' := by
  have hw := h.room
  cases flag with
  | head =>
    by_cases hlow : v.low = 0
    · exact ⟨.overflow, v, iovsPush_refused hlow ptr len, h.left fun _ => rfl⟩
    · obtain ⟨v', hrun, hw', -, -, -, hcap, -⟩ := iovsPush_head h (Nat.pos_of_ne_zero hlow) ptr len
      exact ⟨.ok, v', hrun, hw', hcap, fun hb => absurd hb hlow⟩
  | tail =>
    have hr : v.low + v.len < v.cap := Nat.lt_of_le_of_ne hw (hc rfl)
    obtain ⟨v', hrun, hw', -, -, -, hcap, -⟩ := iovsPush_tail h hr ptr len
    exact ⟨.ok, v', hrun, hw', hcap, fun hb => absurd hb (Nat.not_le.2 hr)⟩
  | other => exact ⟨.flag, v, rfl, h.left fun hb => hb.elim⟩

theorem iovsPop_left (h : v.Wf) (flag : End) : ∃ rv seg v', iovsPop v flag = .ok (rv, seg, v') ∧ v.Left False rv v' := by
  by_cases hempty : v.len = 0
  · exact ⟨.empty, none, v, iovsPop_empty hempty flag, h.left False.elim⟩
  have hpos : 0 < v.len := Nat.pos_of_ne_zero hempty
  cases flag with
  | head =>
    obtain ⟨x, v', hrun, hw', -, -, hcap, -⟩ := iovsPop_head h hpos
    exact ⟨.ok, some x, v', hrun, hw', hcap, False.elim⟩
  | tail =>
    obtain ⟨x, v', hrun, hw', -, -, hcap, -⟩ := iovsPop_tail h hpos
    exact ⟨.ok, some x, v', hrun, hw', hcap, False.elim⟩
  | other => exact ⟨.flag, none, v, iovsPop_flag hempty, h.left False.elim⟩

/-- An insert asks for the slot behind the window first, wherever the segment goes. -/
theorem iovsInsert_left (h : v.Wf) (ptr : Option β) (len pos : Nat) :
    ∃ rv v', iovsInsert v ptr len pos = .ok (rv, v') ∧ v.Left (v.AtEnd .tail) rv v' := by
  by_cases hfull : v.low + v.len + 1 > v.cap
  · exact ⟨.overflow, v, iovsInsert_full hfull ptr len pos, h.left fun _ => rfl⟩
  have hr : v.low + v.len < v.cap := by omega
  by_cases hbehind : pos > v.len
  · rw [iovsInsert_behind hfull ptr len hbehind]
    exact iovsPush_left h ptr len fun _ => Nat.ne_of_lt hr
  · obtain ⟨old, v', -, hrun, hw', -, -, -, hcap, -⟩ := iovsInsert_ok h hr ptr len (Nat.not_lt.1 hbehind)
    exact ⟨.ok, v', hrun, hw', hcap, fun hb => absurd hb (Nat.not_le.2 hr)⟩

theorem iovsCat_left {dest src : Iovs β} (hd : dest.Wf) (hs : src.Wf) :
    ∃ rv v', iovsCat dest src = .ok (rv, v') ∧ dest.Left (dest.cap < dest.low + dest.len + src.len) rv v' := by
  by_cases hfull : dest.low + dest.len + src.len > dest.cap
  · exact ⟨.overflow, dest, iovsCat_full hfull, hd.left fun _ => rfl⟩
  · obtain ⟨v', hrun, hw', -, -, hcap, -⟩ := iovsCat_ok hd hs (Nat.not_lt.1 hfull)
    exact ⟨.ok, v', hrun, hw', hcap, fun hb => absurd hb hfull⟩

/-! ## A family -/

/-- Every window lies in an array of `NFTP_SIZE` slots. -/
def InArrays (f : ι → Iovs β) : Prop := ∀ i, (f i).Wf ∧ (f i).cap = nftpSize

theorem iovsAlloc_inArrays (mem : ι → Nat → Iovec β) : InArrays fun i => iovsAlloc (mem i) :=
  fun i => ⟨iovsAlloc_wf (mem i), rfl⟩

variable [DecidableEq ι] {f f' : ι → Iovs β} {mem : ι → Nat → Iovec β}

theorem InArrays.update (h : InArrays f) {i : ι} {beyond : Prop} {rv : Rv} {v : Iovs β} (hv : (f i).Left beyond rv v) :
    InArrays (update f i v) ∧ (beyond → rv = .overflow ∧ update f i v = f) := by
  refine ⟨fun j => ?_, fun hb => ?_⟩
  · by_cases hj : j = i
    · rw [hj, update_self]
      exact ⟨hv.toWf, hv.cap_eq.trans (h i).2⟩
    · rw [Function.update_of_ne hj]
      exact h j
  · obtain ⟨hrv, hsame⟩ := hv.refused hb
    exact ⟨hrv, by rw [hsame]; exact Function.update_eq_self i f⟩

/-- **A careful call stays in the array.** -/
theorem iovsUse_careful (h : InArrays f) {u : IovsUse ι β} (hc : u.Careful f) :
    ∃ ans f', iovsUse f u = .ok (ans, f') ∧ InArrays f' ∧ (u.Beyond f → ans.rv = .overflow ∧ f' = f) := by
  cases u with
  | insert i ptr len pos =>
    obtain ⟨rv, v, hrun, hv⟩ := iovsInsert_left (h i).1 ptr len pos
    exact ⟨⟨rv, none⟩, _, by rw [iovsUse, hrun]; rfl, h.update hv⟩
  | op op =>
    cases op with
    | push i ptr len flag =>
      have hflag : flag = .tail → (f i).low + (f i).len ≠ (f i).cap := by
        rintro rfl
        exact hc
      obtain ⟨rv, v, hrun, hv⟩ := iovsPush_left (h i).1 ptr len hflag
      exact ⟨⟨rv, none⟩, _, by rw [iovsUse, iovsCall, hrun]; rfl, h.update hv⟩
    | append i ptr len =>
      obtain ⟨rv, v, hrun, hv⟩ := iovsPush_left (h i).1 ptr len fun _ => hc
      exact ⟨⟨rv, none⟩, _, by rw [iovsUse, iovsCall, iovsAppend, hrun]; rfl, h.update hv⟩
    | pop i flag =>
      obtain ⟨rv, seg, v, hrun, hv⟩ := iovsPop_left (h i).1 flag
      exact ⟨⟨rv, seg⟩, _, by rw [iovsUse, iovsCall, hrun]; rfl, h.update hv⟩
    | cat dest src =>
      obtain ⟨rv, v, hrun, hv⟩ := iovsCat_left (h dest).1 (h src).1
      exact ⟨⟨rv, none⟩, _, by rw [iovsUse, iovsCall, hrun]; rfl, h.update hv⟩

theorem iovsUse_past (h : InArrays f) {u : IovsUse ι β} (hc : ¬ u.Careful f) : iovsUse f u = .error .overflow := by
  cases u with
  | insert i ptr len pos => exact absurd trivial hc
  | op op =>
    cases op with
    | push i ptr len flag =>
      cases flag with
      | tail => rw [iovsUse, iovsCall, iovsPush_past (h i).1 (not_not.1 hc)]; rfl
      | head => exact absurd trivial hc
      | other => exact absurd trivial hc
    | append i ptr len => rw [iovsUse, iovsCall, iovsAppend, iovsPush_past (h i).1 (not_not.1 hc)]; rfl
    | pop i flag => exact absurd trivial hc
    | cat dest src => exact absurd trivial hc

/-- A call that returns was careful. -/
theorem useStep_careful {c : IovsUse ι β × IovsAns β} (h : InArrays f) (hs : UseStep f c f') : c.1.Careful f := by
  by_contra hc
  rw [UseStep, iovsUse_past h hc] at hs
  cases hs

/-- **One call keeps the windows in their arrays.** -/
theorem useStep_inArrays {c : IovsUse ι β × IovsAns β} (h : InArrays f) (hs : UseStep f c f') : InArrays f' := by
  obtain ⟨ans, f₁, hrun, hf, -⟩ := iovsUse_careful h (useStep_careful h hs)
  rw [UseStep, hrun] at hs
  cases hs
  exact hf

theorem run_inArrays {calls : List (IovsUse ι β × IovsAns β)} (hrun : Run UseStep (fun i => iovsAlloc (mem i)) calls f) :
    InArrays f :=
  hrun.invariant (fun _ _ _ h hs => useStep_inArrays h hs) (iovsAlloc_inArrays mem)

/-- Appends to a new iovs fill the slots from a third of the array on. -/
theorem appends_run (mem : ι → Nat → Iovec β) (i : ι) (ptr : Option β) (len : Nat) : ∀ n ≤ 22, ∃ f : ι → Iovs β,
    Run UseStep (fun i => iovsAlloc (mem i)) (List.replicate n (.op (.append i ptr len), ⟨.ok, none⟩)) f ∧
      (f i).low = 10 ∧ (f i).len = n
  | 0, _ => ⟨_, .refl, rfl, rfl⟩
  | n + 1, h => by
    obtain ⟨f, hrun, hlow, hlen⟩ := appends_run mem i ptr len n (Nat.le_of_succ_le h)
    have hf := run_inArrays hrun i
    have hr : (f i).low + (f i).len < (f i).cap := by
      rw [hf.2, hlow, hlen, nftpSize]
      omega
    obtain ⟨v, hpush, -, -, hlow', hlen', -, -⟩ := iovsPush_tail hf.1 hr ptr len
    refine ⟨update f i v, ?_, by rw [update_self, hlow', hlow], by rw [update_self, hlen', hlen]⟩
    rw [List.replicate_succ']
    exact hrun.snoc (by rw [UseStep, iovsUse, iovsCall, iovsAppend, hpush]; rfl)

theorem safe_iff (h : InArrays f) (u : IovsUse ι β) : u.Safe f ↔ u.Careful f := by
  constructor
  · rintro ⟨ans, f', hrun, -⟩
    by_contra hc
    rw [iovsUse_past h hc] at hrun
    cases hrun
  · intro hc
    obtain ⟨ans, f', hrun, hf, hbeyond⟩ := iovsUse_careful h hc
    exact ⟨ans, f', hrun, fun i => (hf i).1.room, hbeyond⟩

/-- **Calls that return were all careful, and leave every window in its array**; and in every state they lead to the next
call is safe exactly when it is careful. -/
theorem segments_safe {calls : List (IovsUse ι β × IovsAns β)} (hrun : Run UseStep (fun i => iovsAlloc (mem i)) calls f) :
    Run (fun f c f' => UseStep f c f' ∧ c.1.Careful f) (fun i => iovsAlloc (mem i)) calls f ∧
      (∀ i, (f i).iovs.length = (f i).cap ∧ (f i).low + (f i).len ≤ (f i).cap) ∧
      ∀ u : IovsUse ι β, u.Safe f ↔ u.Careful f := by
  have hf := run_inArrays hrun
  have hcareful : Run UseStep (fun i => iovsAlloc (mem i)) calls f ↔
      Run (fun f c f' => UseStep f c f' ∧ c.1.Careful f) (fun i => iovsAlloc (mem i)) calls f :=
    Run.congr (I := InArrays) (fun _ _ _ h hs => useStep_inArrays h hs)
      (fun _ _ _ h => ⟨fun hs => ⟨hs, useStep_careful h hs⟩, And.left⟩) (iovsAlloc_inArrays mem)
  exact ⟨hcareful.1 hrun, fun i => ⟨(hf i).1.slots, (hf i).1.room⟩, safe_iff hf⟩

/-- An iovs filled to the end of the array: an insert is then refused. -/
theorem segments_safe_full : ∃ f : Unit → Iovs Nat, (f ()).low + (f ()).len = (f ()).cap ∧
    (IovsUse.insert () (some 7) 1 0).Safe f := by
  obtain ⟨f, hrun, hlow, hlen⟩ := appends_run (fun _ k => ⟨some 238, k⟩) () (some 7) 1 22 (Nat.le_refl _)
  obtain ⟨-, -, hsafe⟩ := segments_safe hrun
  refine ⟨f, ?_, (hsafe (.insert () (some 7) 1 0)).2 trivial⟩
  rw [(run_inArrays hrun ()).2, hlow, hlen, nftpSize]

/-- Twenty-two appends fill the array to its end; the one after is not refused, and writes slot 32 of 32. -/
theorem append_past : ∃ f : Unit → Iovs Nat,
    Run UseStep (fun _ => iovsAlloc fun k => ⟨some 238, k⟩) (List.replicate 22 (.op (.append () (some 7) 1), ⟨.ok, none⟩)) f ∧
      iovsUse f (.op (.append () (some 7) 1)) = .error .overflow ∧ ¬ (IovsUse.op (.append () (some 7) 1)).Safe f := by
  obtain ⟨f, hrun, hlow, hlen⟩ := appends_run (fun _ k => ⟨some 238, k⟩) () (some 7) 1 22 (Nat.le_refl _)
  have hf := run_inArrays hrun
  have hend : ¬ (IovsUse.op (.append () (some 7) 1)).Careful f := by
    refine not_not.2 ?_
    rw [(hf ()).2, hlow, hlen, nftpSize]
  exact ⟨f, hrun, iovsUse_past hf hend, fun hsafe => hend ((safe_iff hf _).1 hsafe)⟩

end Nftp
