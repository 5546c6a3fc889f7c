import Nftp.Lib.Run
import Nftp.Store
/-!
# Readback — reading a file that was written

`nftp_file_read` takes the file line by line and puts the lines together with `strcat`, in a buffer of NULs: of each line
the bytes before its first NUL arrive, one line behind the other.
-/
namespace Nftp

open Lib

/-- What arrives of the first `n` lines. -/
def textOf : Nat → Bytes → Bytes
  | 0, _ => []
  | n + 1, rest => cstr (fgets 999 rest) ++ textOf n (rest.drop (fgets 999 rest).length)

/-- The bytes the first `n` lines take of the file. -/
def takenBy : Nat → Bytes → Nat
  | 0, _ => 0
  | n + 1, rest => (fgets 999 rest).length + takenBy n (rest.drop (fgets 999 rest).length)

/-- The file can be opened; behind the first NUL are NULs only; and a read error comes, if one does, behind what is before
the first NUL. -/
def ReadsBack (ans : GetsAns) (c : Bytes) : Prop :=
  ans ≠ .noOpen ∧ (∀ b ∈ c.drop (cstr c).length, b = 0) ∧ (cstr c).length ≤ takenBy (ans.lines c) c

/-! ## Strings in a buffer of NULs -/

theorem cstr_append_drop (b : Bytes) : cstr b ++ b.drop (cstr b).length = b :=
  List.prefix_iff_eq_append.1 (List.takeWhile_prefix _)

theorem cstr_padded {t : Bytes} (h : (0 : UInt8) ∉ t) (m : Nat) : cstr (t ++ List.replicate m 0) = t := by
  have hpos : ∀ a ∈ t, decide (a ≠ 0) = true := fun a ha => decide_eq_true fun h0 => h (h0 ▸ ha)
  rw [cstr, List.takeWhile_append_of_pos hpos, List.takeWhile_replicate]
  simp

/-- **`strcat` behind a string in a buffer of NULs with room.** -/
theorem strcat_padded {t : Bytes} (h : (0 : UInt8) ∉ t) {s : Bytes} {m : Nat} (hm : (cstr s).length < m) :
    strcat (t ++ List.replicate m 0) s = .ok (t ++ cstr s ++ List.replicate (m - (cstr s).length) 0) := by
  have hroom : t.length + (cstr s).length + 1 ≤ (t ++ List.replicate m (0 : UInt8)).length := by
    rw [List.length_append, List.length_replicate]
    omega
  have hdrop : (t ++ List.replicate m (0 : UInt8)).drop (t.length + (cstr s).length + 1) =
      List.replicate (m - (cstr s).length - 1) 0 := by
    rw [Nat.add_assoc, ← List.drop_drop, List.drop_left, List.drop_replicate, Nat.sub_sub]
  have hnuls : [(0 : UInt8)] ++ List.replicate (m - (cstr s).length - 1) 0 = List.replicate (m - (cstr s).length) 0 := by
    rw [List.singleton_append, ← List.replicate_succ]
    congr 1
    omega
  simp only [strcat, cstr_padded h, strcpyAt]
  rw [if_pos hroom, bind_ok, hdrop, List.take_left, List.append_assoc _ [0], hnuls]
  rfl

/-! ## Lines -/

theorem fgets_take : ∀ (n : Nat) (rest : Bytes), rest.take (fgets n rest).length = fgets n rest
  | 0, _ => rfl
  | _ + 1, [] => rfl
  | n + 1, b :: rest => by
    unfold fgets
    split
    · rfl
    · rw [List.length_cons, List.take_succ_cons, fgets_take n rest]

theorem fgets_length (n : Nat) (rest : Bytes) : (fgets n rest).length ≤ rest.length := by
  rw [← fgets_take n rest, List.length_take]
  exact Nat.min_le_right ..

theorem fgets_pos {n : Nat} {rest : Bytes} (hn : 0 < n) (h : rest ≠ []) : 0 < (fgets n rest).length := by
  obtain ⟨n, rfl⟩ := Nat.exists_eq_succ_of_ne_zero (Nat.pos_iff_ne_zero.1 hn)
  cases rest with
  | nil => exact absurd rfl h
  | cons b rest =>
    unfold fgets
    split
    · exact Nat.one_pos
    · exact Nat.succ_pos _

theorem cstr_length (b : Bytes) : (cstr b).length ≤ b.length := by
  have h := congrArg List.length (cstr_append_drop b)
  rw [List.length_append] at h
  omega

theorem textOf_nil : ∀ n, textOf n [] = []
  | 0 => rfl
  | n + 1 => by
    rw [textOf, fgets, List.drop_nil, textOf_nil n]
    rfl

theorem notMem_textOf : ∀ (n : Nat) (rest : Bytes), (0 : UInt8) ∉ textOf n rest
  | 0, _ => List.not_mem_nil
  | n + 1, rest => by
    rw [textOf, List.mem_append, not_or]
    exact ⟨notMem_cstr _, notMem_textOf n _⟩

theorem textOf_length : ∀ (n : Nat) (rest : Bytes), (textOf n rest).length ≤ takenBy n rest
  | 0, _ => Nat.le_refl 0
  | n + 1, rest => by
    rw [textOf, takenBy, List.length_append]
    exact Nat.add_le_add (cstr_length _) (textOf_length n _)

theorem takenBy_le : ∀ (n : Nat) (rest : Bytes), takenBy n rest ≤ rest.length
  | 0, _ => Nat.zero_le _
  | n + 1, rest => by
    have hline := fgets_length 999 rest
    have ih := takenBy_le n (rest.drop (fgets 999 rest).length)
    rw [List.length_drop] at ih
    rw [takenBy]
    omega

/-- As many lines as bytes take the whole file. -/
theorem takenBy_all : ∀ (n : Nat) (rest : Bytes), rest.length ≤ n → takenBy n rest = rest.length
  | 0, rest, h => (Nat.le_zero.1 h).symm
  | n + 1, rest, h => by
    have hline := fgets_length 999 rest
    rw [takenBy]
    by_cases hrest : rest = []
    · subst hrest
      rw [fgets, List.drop_nil, takenBy_all n [] (Nat.zero_le n)]
      rfl
    · have hpos := fgets_pos (n := 999) (by decide) hrest
      rw [takenBy_all n _ (by rw [List.length_drop]; omega), List.length_drop]
      omega

/-- **What arrives of a string followed by NULs**: the part of it that the lines take. -/
theorem textOf_padded : ∀ (n : Nat) {a : Bytes} (k : Nat), (0 : UInt8) ∉ a →
    textOf n (a ++ List.replicate k 0) = a.take (takenBy n (a ++ List.replicate k 0))
  | 0, _, _, _ => rfl
  | n + 1, a, k, h => by
    have hline := fgets_take 999 (a ++ List.replicate k 0)
    rw [textOf, takenBy]
    generalize (fgets 999 (a ++ List.replicate k 0)).length = len at hline ⊢
    have hcstr : cstr (fgets 999 (a ++ List.replicate k 0)) = a.take len := by
      rw [← hline, List.take_append, List.take_replicate]
      exact cstr_padded (fun hm => h (List.mem_of_mem_take hm)) _
    have hrest : (a ++ List.replicate k (0 : UInt8)).drop len = a.drop len ++ List.replicate (k - (len - a.length)) 0 := by
      rw [List.drop_append, List.drop_replicate]
    rw [hcstr, hrest, textOf_padded n _ fun hm => h (List.mem_of_mem_drop hm), List.take_add]

/-! ## The loop -/

/-- **The loop of `nftp_file_read`** never leaves the buffer, and ends with the text and NULs. -/
theorem readLines_ok : ∀ (n : Nat) {t rest : Bytes} {m : Nat}, (0 : UInt8) ∉ t → rest.length < m →
    readLines (t ++ List.replicate m 0) rest n =
      .ok (t ++ textOf n rest ++ List.replicate (m - (textOf n rest).length) 0)
  | 0, t, rest, m, _, _ => by simp [readLines, textOf]
  | n + 1, t, rest, m, h, hm => by
    unfold readLines
    by_cases hrest : rest = []
    · rw [if_pos hrest, hrest, textOf_nil, List.append_nil]
      rfl
    have hline := fgets_length 999 rest
    have hcstr := cstr_length (fgets 999 rest)
    have ht : (0 : UInt8) ∉ t ++ cstr (fgets 999 rest) := by
      rw [List.mem_append, not_or]
      exact ⟨h, notMem_cstr _⟩
    rw [if_neg hrest]
    simp only [strcat_padded h (show (cstr (fgets 999 rest)).length < m by omega), bind_ok]
    rw [readLines_ok n ht (by rw [List.length_drop]; have := fgets_pos (n := 999) (by decide) hrest; omega), textOf,
      List.length_append, Nat.sub_sub, List.append_assoc t]

/-- **The text is the file**, NULs added, exactly when behind the first NUL of the file are NULs only and the lines reach
as far. -/
theorem textOf_eq_iff (n : Nat) (c : Bytes) :
    textOf n c ++ List.replicate (c.length - (textOf n c).length) 0 = c ↔
      (∀ b ∈ c.drop (cstr c).length, b = 0) ∧ (cstr c).length ≤ takenBy n c := by
  constructor
  · intro heq
    have hcstr : cstr c = textOf n c := by
      conv_lhs => rw [← heq]
      exact cstr_padded (notMem_textOf n c) _
    have hrest := congrArg (List.drop (textOf n c).length) heq
    rw [List.drop_left] at hrest
    rw [hcstr]
    refine ⟨fun b hb => ?_, textOf_length n c⟩
    rw [← hrest] at hb
    exact List.eq_of_mem_replicate hb
  · rintro ⟨hnul, hlen⟩
    have hpad : c.drop (cstr c).length = List.replicate (c.length - (cstr c).length) 0 := by
      rw [List.eq_replicate_iff, List.length_drop]
      exact ⟨rfl, hnul⟩
    have hc : cstr c ++ List.replicate (c.length - (cstr c).length) 0 = c := by rw [← hpad, cstr_append_drop]
    have htext : textOf n c = cstr c := by
      have := textOf_padded n (c.length - (cstr c).length) (notMem_cstr c)
      rw [hc, List.take_of_length_le hlen] at this
      exact this
    rw [htext, hc]

/-! ## Writing, then reading -/

/-- A piece of the file: the answers to the call that writes it, and its bytes. -/
abbrev Piece := WriteAns × Bytes

/-- The bytes the calls were given, and those that reached the file. -/
def given (xs : List Piece) : Bytes := (xs.map Prod.snd).flatten
def landedOf (xs : List Piece) : Bytes := (xs.map fun x => x.1.landed x.2).flatten

/-- An append that returns 0. -/
def AppendStep (fpath : Path) (fs : Fs) (x : Piece) (fs' : Fs) : Prop :=
  fileAppend x.1 fs fpath x.2 x.2.length = (.ok, fs')

variable {fpath : Path} {fs fs₁ fs₂ : Fs} {str c : Bytes} {x : Piece} {xs : List Piece}

theorem landed_length (ans : WriteAns) (b : Bytes) : (ans.landed b).length ≤ b.length := List.length_take_le' ..

theorem full_iff {ans : WriteAns} {b : Bytes} (ht : ans.Took b.length) :
    ans.Full b.length ↔ (ans.landed b).length = b.length := by
  refine ⟨fun hf => by rw [hf.landed], fun hl => ⟨ht, ?_⟩⟩
  have hle : ans.written b.length ≤ b.length := by
    cases ans with
    | done => exact Nat.le_refl _
    | noOpen => exact Nat.le_refl _
    | short n => exact Nat.min_le_right ..
    | lost n => exact Nat.min_le_right ..
  rw [WriteAns.landed, List.length_take] at hl
  omega

theorem landedOf_length : ∀ xs : List Piece, (landedOf xs).length ≤ (given xs).length
  | [] => Nat.le_refl _
  | x :: xs => by
    have hx := landed_length x.1 x.2
    have hxs := landedOf_length xs
    simp only [landedOf, given, List.map_cons, List.flatten_cons, List.length_append] at hxs ⊢
    omega

/-- **Nothing is lost exactly when as many bytes reached the file as were given.** -/
theorem landedOf_full : ∀ {xs : List Piece}, (∀ x ∈ xs, x.1.Took x.2.length) →
    ((landedOf xs).length = (given xs).length ↔ ∀ x ∈ xs, x.1.Full x.2.length)
  | [], _ => by simp [landedOf, given]
  | x :: xs, ht => by
    have hx := landed_length x.1 x.2
    have hxs := landedOf_length xs
    rw [List.forall_mem_cons, full_iff (ht x List.mem_cons_self),
      ← landedOf_full fun y hy => ht y (List.mem_cons_of_mem _ hy)]
    simp only [landedOf, given, List.map_cons, List.flatten_cons, List.length_append] at hxs ⊢
    omega

theorem landedOf_eq (hf : ∀ x ∈ xs, x.1.Full x.2.length) : landedOf xs = given xs := by
  rw [landedOf, given, List.map_congr_left fun x hx => (hf x hx).landed]

theorem fileWrite_ok {ans : WriteAns} (h : fileWrite ans fs fpath str str.length = (.ok, fs₁)) :
    ans.Took str.length ∧ fs₁.disk fpath = some (ans.landed str) := by
  unfold fileWrite at h
  split at h
  · cases h
  · rename_i ho
    simp only [Prod.mk.injEq] at h
    obtain ⟨hrv, rfl⟩ := h
    refine ⟨⟨ho, ?_⟩, Function.update_self ..⟩
    by_contra hne
    rw [if_pos hne] at hrv
    cases hrv

theorem appendStep_disk (h : AppendStep fpath fs x fs₁) (hc : fs.disk fpath = some c) :
    x.1.Took x.2.length ∧ fs₁.disk fpath = some (c ++ x.1.landed x.2) := by
  unfold AppendStep at h
  by_cases htook : x.1.Took x.2.length
  · rw [fileAppend_took hc htook] at h
    cases h
    exact ⟨htook, Function.update_self ..⟩
  · obtain ⟨rv, fs', hrun, hrv, -⟩ := fileAppend_fail hc htook
    rw [hrun] at h
    cases h
    exact absurd rfl hrv

/-- **Appends add up**, as far as they reach the file. -/
theorem run_appended (hrun : Run (AppendStep fpath) fs xs fs₁) (hc : fs.disk fpath = some c) :
    (∀ x ∈ xs, x.1.Took x.2.length) ∧ fs₁.disk fpath = some (c ++ landedOf xs) := by
  refine Run.history (I := fun xs s => (∀ x ∈ xs, x.1.Took x.2.length) ∧ s.disk fpath = some (c ++ landedOf xs))
    ⟨nofun, by simp [hc, landedOf]⟩ (fun xs s₁ x s₂ h hs => ?_) hrun
  obtain ⟨htook, hd⟩ := h
  obtain ⟨hx, hd'⟩ := appendStep_disk hs hd
  refine ⟨fun y hy => ?_, ?_⟩
  · rcases List.mem_append.1 hy with hy | hy
    · exact htook y hy
    · cases List.mem_singleton.1 hy
      exact hx
  · rw [hd', landedOf, landedOf, List.map_append, List.flatten_append, List.append_assoc]
    simp

/-- What `nftp_file_read` returns of a file. -/
theorem fileRead_ok {d : Disk} {ans : GetsAns} (hd : d fpath = some c) (hopen : ans ≠ .noOpen) :
    fileRead ans d fpath = .ok (.ok, textOf (ans.lines c) c ++
      List.replicate (c.length + 1 - (textOf (ans.lines c) c).length) 0, c.length) := by
  have hrun := readLines_ok (ans.lines c) (t := []) List.not_mem_nil (Nat.lt_succ_self c.length)
  rw [List.nil_append, List.nil_append] at hrun
  simp only [fileRead, hd, if_neg hopen, hrun, bind_ok, pure_ok]

theorem take_text (n : Nat) (c : Bytes) :
    (textOf n c ++ List.replicate (c.length + 1 - (textOf n c).length) 0).take c.length =
      textOf n c ++ List.replicate (c.length - (textOf n c).length) 0 := by
  have hlen : (textOf n c).length ≤ c.length := (textOf_length n c).trans (takenBy_le n c)
  rw [List.take_append, List.take_of_length_le hlen, List.take_replicate]
  congr 2
  omega

/-- A file is read back, or not, as its bytes are. -/
theorem fileRead_back {d : Disk} (hd : d fpath = some c) (gets : GetsAns) :
    (∃ buf, fileRead gets d fpath = .ok (.ok, buf, c.length) ∧ buf.take c.length = c) ↔ ReadsBack gets c := by
  by_cases hopen : gets = .noOpen
  · refine iff_of_false ?_ fun h => h.1 hopen
    rintro ⟨buf, hrun, -⟩
    simp only [fileRead, hd, if_pos hopen] at hrun
    cases hrun
  · rw [fileRead_ok hd hopen, ReadsBack, ← textOf_eq_iff]
    constructor
    · rintro ⟨buf, hrun, hbuf⟩
      cases hrun
      rw [take_text] at hbuf
      exact ⟨hopen, hbuf⟩
    · rintro ⟨-, hbuf⟩
      exact ⟨_, rfl, by rw [take_text, hbuf]⟩

/-- **Reading a file returns what was written**, by a write and any appends after it, exactly when none of them lost a byte
at its close and `ReadsBack` holds: on a stream without errors, when behind the first NUL of the file are NULs only.  The
call returns in any case. -/
theorem read_back {ans : WriteAns} (hw : fileWrite ans fs fpath str str.length = (.ok, fs₁))
    (ha : Run (AppendStep fpath) fs₁ xs fs₂) (gets : GetsAns) :
    (∃ x, fileRead gets fs₂.disk fpath = .ok x) ∧
    ((∃ buf sz, fileRead gets fs₂.disk fpath = .ok (.ok, buf, sz) ∧ buf.take sz = str ++ given xs ∧
        sz = (str ++ given xs).length) ↔
      (ans.Full str.length ∧ ∀ x ∈ xs, x.1.Full x.2.length) ∧ ReadsBack gets (str ++ given xs)) ∧
    (gets = .done → (ReadsBack gets (str ++ given xs) ↔
      ∀ b ∈ (str ++ given xs).drop (cstr (str ++ given xs)).length, b = 0)) := by
  obtain ⟨htook, hd₁⟩ := fileWrite_ok hw
  obtain ⟨htooks, hd⟩ := run_appended ha hd₁
  have hall : (landedOf ((ans, str) :: xs)).length = (given ((ans, str) :: xs)).length ↔
      ans.Full str.length ∧ ∀ x ∈ xs, x.1.Full x.2.length := by
    rw [landedOf_full (List.forall_mem_cons.2 ⟨htook, htooks⟩), List.forall_mem_cons]
  have hlanded : landedOf ((ans, str) :: xs) = ans.landed str ++ landedOf xs := List.flatten_cons
  have hgiven : given ((ans, str) :: xs) = str ++ given xs := List.flatten_cons
  refine ⟨?_, ?_, ?_⟩
  · by_cases hopen : gets = .noOpen
    · exact ⟨(.file, [], 0), by simp only [fileRead, hd, if_pos hopen]⟩
    · exact ⟨_, fileRead_ok hd hopen⟩
  · rw [hlanded, hgiven] at hall
    by_cases hfull : ans.Full str.length ∧ ∀ x ∈ xs, x.1.Full x.2.length
    · have heq : ans.landed str ++ landedOf xs = str ++ given xs := by rw [hfull.1.landed, landedOf_eq hfull.2]
      rw [heq] at hd
      rw [and_iff_right hfull, ← fileRead_back hd]
      exact ⟨fun ⟨buf, sz, hrun, hbuf, hsz⟩ => ⟨buf, hsz ▸ hrun, hsz ▸ hbuf⟩, fun ⟨buf, hrun, hbuf⟩ => ⟨buf, _, hrun, hbuf, rfl⟩⟩
    · -- the size read is that of the file, which is too short
      refine iff_of_false ?_ fun h => hfull h.1
      rintro ⟨buf, sz, hrun, -, hsz⟩
      by_cases hopen : gets = .noOpen
      · simp only [fileRead, hd, if_pos hopen] at hrun
        cases hrun
      · rw [fileRead_ok hd hopen] at hrun
        cases hrun
        exact hfull (hall.1 hsz)
  · rintro rfl
    generalize str ++ given xs = c
    have hall : takenBy c.length c = c.length := takenBy_all c.length c (Nat.le_refl _)
    refine ⟨fun h => h.2.1, fun h => ⟨fun h0 => (by cases h0), h, ?_⟩⟩
    show _ ≤ takenBy c.length c
    rw [hall]
    exact cstr_length c

/-- Two lines in two calls, with NULs behind. -/
theorem read_back_lines : ∃ fs₁ fs₂, fileWrite .done ⟨fun _ => none, []⟩ [0x66] [97, 98, 10] 3 = (.ok, fs₁) ∧
    Run (AppendStep [0x66]) fs₁ [(.done, [99, 0, 0])] fs₂ ∧
    ∃ buf sz, fileRead .done fs₂.disk [0x66] = .ok (.ok, buf, sz) ∧ buf.take sz = [97, 98, 10, 99, 0, 0] ∧ sz = 6 := by
  have hrun : ∃ fs₁ fs₂, fileWrite .done ⟨fun _ => none, []⟩ [0x66] [97, 98, 10] 3 = (.ok, fs₁) ∧
      Run (AppendStep [0x66]) fs₁ [(.done, [99, 0, 0])] fs₂ := ⟨_, _, rfl, Run.single rfl⟩
  obtain ⟨fs₁, fs₂, hw, ha⟩ := hrun
  replace hw : fileWrite .done ⟨fun _ => none, []⟩ [0x66] [97, 98, 10] [97, 98, 10].length = (.ok, fs₁) := hw
  obtain ⟨-, hread, hdone⟩ := read_back hw ha .done
  refine ⟨fs₁, fs₂, hw, ha, hread.2 ⟨⟨full_done _, fun x hx => ?_⟩, (hdone rfl).2 (by decide +kernel)⟩⟩
  cases List.mem_singleton.1 hx
  exact full_done _

/-- Of the three bytes `a`, NUL, `b` only the first arrives. -/
theorem nul_lost : ∃ fs₁ buf, fileWrite .done ⟨fun _ => none, []⟩ [0x66] [97, 0, 98] 3 = (.ok, fs₁) ∧
    fileRead .done fs₁.disk [0x66] = .ok (.ok, buf, 3) ∧ buf = [97, 0, 0, 0] ∧ buf.take 3 ≠ [97, 0, 98] :=
  ⟨_, _, rfl, rfl, rfl, by decide⟩

end Nftp
