import Nftp.Proto
import Nftp.Lib.Pathname
/-!
# Paths — the names on disk

A transfer saved under `w` owns two paths, `State.part w` and `State.final w`.  The handler builds them in fixed
buffers; `NameFits` says when they fit, and `pickName_ok` what name a HELLO may pick.  The disk is kept by spelling, so
what is said of two files asks that the paths denote two (`FilesApart`), as those of plain names do.
-/
namespace Nftp

/-- The path a name has in the receive directory, and that of its part file. -/
def State.final (s : State) (w : Bytes) : Path := s.recvdir.getD [] ++ w
def State.part (s : State) (w : Bytes) : Path := s.recvdir.getD [] ++ (w ++ dotPart)

/-- The file a path denotes in a tree without links, `cwd` being the working directory. -/
def Path.denotes (cwd : List Bytes) (q : Path) : List Bytes := Lib.resolve slash 0x2e cwd q

/-- A name with no component that is empty, `.` or `..`. -/
def PlainName (w : Bytes) : Prop := Lib.Plain slash 0x2e w

instance : DecidablePred PlainName := fun w => inferInstanceAs (Decidable (Lib.Plain slash 0x2e w))

/-- Two names none of whose four paths meet, but for a common name's own. -/
structure Apart (w w' : Bytes) : Prop where
  ne : w ≠ w'
  left : w ++ dotPart ≠ w'
  right : w ≠ w' ++ dotPart

/-- No path of one name denotes a file that a path of the other denotes, whatever directory the process works in. -/
def FilesApart (s : State) (w w' : Bytes) : Prop :=
  ∀ cwd, Path.denotes cwd (s.part w) ≠ Path.denotes cwd (s.part w') ∧ Path.denotes cwd (s.part w) ≠ Path.denotes cwd (s.final w') ∧
    Path.denotes cwd (s.final w) ≠ Path.denotes cwd (s.part w') ∧ Path.denotes cwd (s.final w) ≠ Path.denotes cwd (s.final w')

variable {s : State} {w w' : Bytes}

theorem Apart.symm (h : Apart w w') : Apart w' w := ⟨h.ne.symm, h.right.symm, h.left.symm⟩

theorem PlainName.part (h : PlainName w) : PlainName (w ++ dotPart) := Lib.Plain.append h (by decide) (by decide)

theorem PlainName.numbered (h : PlainName w) {i : ℕ} (hi : i < 100) : PlainName (numbered w i) := by
  refine Lib.Plain.append h (fun hs => ?_) (by simp)
  have hdigit : ∀ k < 10, slash ≠ 0x30 + UInt8.ofNat k := by decide
  simp only [List.mem_cons, List.not_mem_nil, or_false] at hs
  rcases hs with hs | hs | hs
  · cases hs
  · exact hdigit _ (by omega) hs
  · exact hdigit _ (by omega) hs

/-- **Plain names behind the directory denote one file only if they are equal.** -/
theorem PlainName.denotes (h : PlainName w) (h' : PlainName w') (dir : Bytes) (cwd : List Bytes) :
    Path.denotes cwd (dir ++ w) = Path.denotes cwd (dir ++ w') ↔ w = w' := Lib.resolve_plain h h'

@[simp] theorem final_inj : s.final w = s.final w' ↔ w = w' := List.append_cancel_left_eq _ _ _ |>.to_iff
@[simp] theorem part_inj : s.part w = s.part w' ↔ w = w' := by
  rw [State.part, State.part, List.append_right_inj, List.append_left_inj]
theorem part_eq_final : s.part w = s.final w' ↔ w ++ dotPart = w' := List.append_right_inj _
theorem part_ne_final (s : State) (w : Bytes) : s.part w ≠ s.final w := by
  rw [ne_eq, part_eq_final]
  intro h
  have := congrArg List.length h
  simp [dotPart] at this

theorem final_congr {s' : State} (h : s'.recvdir = s.recvdir) (w : Bytes) : s'.final w = s.final w := by
  rw [State.final, State.final, h]

theorem part_congr {s' : State} (h : s'.recvdir = s.recvdir) (w : Bytes) : s'.part w = s.part w := by
  rw [State.part, State.part, h]

theorem Apart.paths (h : Apart w w') (s : State) :
    s.part w' ≠ s.part w ∧ s.part w' ≠ s.final w ∧ s.final w' ≠ s.part w ∧ s.final w' ≠ s.final w :=
  ⟨fun e => h.ne (part_inj.1 e).symm, fun e => h.right (part_eq_final.1 e).symm,
    fun e => h.left (part_eq_final.1 e.symm), fun e => h.ne (final_inj.1 e).symm⟩

theorem FilesApart.apart (h : FilesApart s w w') : Apart w w' := by
  obtain ⟨h1, h2, h3, -⟩ := h []
  refine ⟨fun he => h1 (by rw [he]), fun he => h2 ?_, fun he => h3 ?_⟩
  · rw [part_eq_final.2 he]
  · rw [part_eq_final.2 he.symm]

theorem FilesApart.paths (h : FilesApart s w w') :
    s.part w' ≠ s.part w ∧ s.part w' ≠ s.final w ∧ s.final w' ≠ s.part w ∧ s.final w' ≠ s.final w := h.apart.paths s

/-- **Plain names whose paths do not meet share no file.** -/
theorem Apart.filesApart (h : Apart w w') (hp : PlainName w) (hp' : PlainName w') (s : State) : FilesApart s w w' := by
  refine fun cwd => ⟨fun he => ?_, fun he => ?_, fun he => ?_, fun he => ?_⟩
  · exact h.ne (List.append_left_injective _ ((hp.part.denotes hp'.part _ cwd).1 he))
  · exact h.left ((hp.part.denotes hp' _ cwd).1 he)
  · exact h.right ((hp.denotes hp'.part _ cwd).1 he)
  · exact h.ne ((hp.denotes hp' _ cwd).1 he)

/-! ## The buffers -/

/-- The name, the path of its part file and its own path fit the buffers. -/
def NameFits (dir : Option Bytes) (w : Bytes) : Prop :=
  w.length + 6 ≤ partnameSize ∧ (dir.getD []).length + w.length + 6 ≤ fullpathSize

instance (dir : Option Bytes) (w : Bytes) : Decidable (NameFits dir w) := inferInstanceAs (Decidable (_ ∧ _))

theorem strcpyAt_ok {size pos : Nat} {b : Bytes} (h : pos + b.length + 1 ≤ size) : strcpyAt size pos b = .ok () := if_pos h

theorem strcpyAt_eq_ok {size pos : Nat} {b : Bytes} {u : Unit} (h : strcpyAt size pos b = .ok u) :
    pos + b.length + 1 ≤ size := by
  unfold strcpyAt at h
  split at h
  · assumption
  · cases h

theorem fileFullpath_ok {dir : Option Bytes} (h : (dir.getD []).length + w.length + 1 ≤ fullpathSize) :
    fileFullpath dir w = .ok (dir.getD [] ++ w) := by
  cases dir with
  | none =>
    simp only [Option.getD_none, List.length_nil] at h
    simp only [fileFullpath, strcpyAt_ok h, bind_ok, pure_ok, Option.getD_none, List.nil_append]
  | some d =>
    simp only [Option.getD_some] at h
    simp only [fileFullpath, strcpyAt_ok (show 0 + d.length + 1 ≤ fullpathSize by omega), strcpyAt_ok h, bind_ok, pure_ok,
      Option.getD_some]

theorem fileFullpath_eq_ok {dir : Option Bytes} {q : Path} (h : fileFullpath dir w = .ok q) :
    q = dir.getD [] ++ w ∧ (dir.getD []).length + w.length + 1 ≤ fullpathSize := by
  cases dir with
  | none =>
    obtain ⟨u, hu, h⟩ := bind_eq_ok.1 h
    cases h
    have := strcpyAt_eq_ok hu
    simp only [Option.getD_none, List.nil_append, List.length_nil, true_and]
    omega
  | some d =>
    obtain ⟨u, hu, h⟩ := bind_eq_ok.1 h
    obtain ⟨u', hu', h⟩ := bind_eq_ok.1 h
    cases h
    exact ⟨rfl, strcpyAt_eq_ok hu'⟩

theorem partPath_ok (h : NameFits s.recvdir w) : partPath s.recvdir w = .ok (s.part w) := by
  obtain ⟨h1, h2⟩ := h
  have hp : filePartname w = .ok (w ++ dotPart) := by
    rw [filePartname, strcpyAt_ok (by omega), bind_ok,
      strcpyAt_ok (by simp only [dotPart, List.length_cons, List.length_nil]; omega)]
    rfl
  rw [partPath, hp, bind_ok, fileFullpath_ok]
  · rfl
  · simp only [List.length_append, dotPart, List.length_cons, List.length_nil]
    omega

theorem partPath_eq_ok {q : Path} (h : partPath s.recvdir w = .ok q) : q = s.part w ∧ NameFits s.recvdir w := by
  obtain ⟨p, hp, h⟩ := bind_eq_ok.1 h
  obtain ⟨u, hu, hp⟩ := bind_eq_ok.1 hp
  obtain ⟨u', hu', hp⟩ := bind_eq_ok.1 hp
  cases hp
  obtain ⟨rfl, hl⟩ := fileFullpath_eq_ok h
  have h2 := strcpyAt_eq_ok hu'
  simp only [List.length_append, dotPart, List.length_cons, List.length_nil] at h2 hl
  exact ⟨rfl, h2, by omega⟩

theorem strcpyAt_error {size pos : Nat} {b : Bytes} {e : Fault} (h : strcpyAt size pos b = .error e) : e = .overflow := by
  unfold strcpyAt at h
  split at h <;> cases h
  rfl

theorem fileFullpath_error {dir : Option Bytes} {e : Fault} (h : fileFullpath dir w = .error e) : e = .overflow := by
  cases dir with
  | none =>
    rcases bind_eq_error.1 h with h | ⟨u, -, h⟩
    · exact strcpyAt_error h
    · cases h
  | some d =>
    rcases bind_eq_error.1 h with h | ⟨u, -, h⟩
    · exact strcpyAt_error h
    rcases bind_eq_error.1 h with h | ⟨u, -, h⟩
    · exact strcpyAt_error h
    · cases h

theorem partPath_error {e : Fault} (h : partPath s.recvdir w = .error e) : e = .overflow := by
  rcases bind_eq_error.1 h with h | ⟨p, -, h⟩
  · rcases bind_eq_error.1 h with h | ⟨u, -, h⟩
    · exact strcpyAt_error h
    rcases bind_eq_error.1 h with h | ⟨u, -, h⟩
    · exact strcpyAt_error h
    · cases h
  · exact fileFullpath_error h

theorem NameFits.final (h : NameFits s.recvdir w) : fileFullpath s.recvdir w = .ok (s.final w) :=
  fileFullpath_ok (by have := h.2; omega)

theorem fullpath_eq_ok {q : Path} (h : fileFullpath s.recvdir w = .ok q) : q = s.final w := (fileFullpath_eq_ok h).1

/-! ## Picking a name -/

@[simp] theorem numbered_length (f : Bytes) (i : Nat) : (numbered f i).length = f.length + 3 := by simp [numbered]

def State.Free (s : State) (w : Bytes) : Prop := s.fs.disk (s.final w) = none

theorem fileExist_iff : fileExist s.fs.disk (s.final w) = true ↔ ¬ s.Free w := by
  rw [fileExist, Option.isSome_iff_ne_none]
  rfl

/-- A name that is free is picked; in place of one that is taken a numbered one is looked for. -/
theorem pickName_free {f : Bytes} (hfree : s.Free f) : pickName s f = fileFullpath s.recvdir f >>= fun _ => .ok (some f) := by
  unfold pickName
  cases hq : fileFullpath s.recvdir f with
  | error e => rfl
  | ok q =>
    obtain rfl := fullpath_eq_ok hq
    rw [bind_ok, bind_ok, if_neg (fun he => fileExist_iff.1 he hfree), pure_ok]

theorem pickName_taken {f : Bytes} (htaken : ¬ s.Free f) : pickName s f = fileFullpath s.recvdir f >>= fun _ =>
    fileNewname s.fs.disk f s.recvdir >>= fun o => .ok o.2 := by
  unfold pickName
  cases hq : fileFullpath s.recvdir f with
  | error e => rfl
  | ok q =>
    obtain rfl := fullpath_eq_ok hq
    rw [bind_ok, bind_ok, if_pos (fileExist_iff.2 htaken)]
    rfl

/-- The search of `nftp_file_newname` finds the first number whose name is free. -/
theorem tryNames_eq_ok {d : Disk} {dir : Option Bytes} {f : Bytes} {rv : Rv} : ∀ {n i : Nat},
    tryNames d dir f i n = .ok (rv, some w) → ∃ j, i ≤ j ∧ j < i + n ∧ w = numbered f j ∧ d (dir.getD [] ++ w) = none
  | 0, i, h => by cases h
  | n + 1, i, h => by
    obtain ⟨q, hq, h⟩ := bind_eq_ok.1 h
    obtain ⟨rfl, -⟩ := fileFullpath_eq_ok hq
    by_cases he : fileExist d (dir.getD [] ++ numbered f i) = false
    · simp only [if_pos he, Except.ok.injEq, Prod.mk.injEq, Option.some.injEq] at h
      obtain ⟨-, rfl⟩ := h
      exact ⟨i, Nat.le_refl i, by omega, rfl, by simpa [fileExist] using he⟩
    · rw [if_neg he] at h
      obtain ⟨j, h1, h2, hw, hd⟩ := tryNames_eq_ok h
      exact ⟨j, by omega, by omega, hw, hd⟩

/-- **The name a HELLO picks** is the file's own or a numbered one, and no file of that name is there. -/
theorem pickName_ok {f : Bytes} (h : pickName s f = .ok (some w)) :
    (w = f ∨ ∃ j, 1 ≤ j ∧ j < 100 ∧ w = numbered f j) ∧ s.fs.disk (s.final w) = none := by
  by_cases hfree : s.Free f
  · rw [pickName_free hfree] at h
    obtain ⟨q, -, h⟩ := bind_eq_ok.1 h
    cases h
    exact ⟨.inl rfl, hfree⟩
  · rw [pickName_taken hfree] at h
    obtain ⟨q, -, h⟩ := bind_eq_ok.1 h
    obtain ⟨⟨rv, o⟩, ho, h⟩ := bind_eq_ok.1 h
    cases h
    obtain ⟨j, h1, h2, hw, hd⟩ := tryNames_eq_ok ho
    exact ⟨.inr ⟨j, h1, by omega, hw⟩, hd⟩

theorem tryNames_congr {d d' : Disk} {dir : Option Bytes} {f : Bytes}
    (hd : ∀ w, fileExist d (dir.getD [] ++ w) = fileExist d' (dir.getD [] ++ w)) :
    ∀ n i, tryNames d dir f i n = tryNames d' dir f i n
  | 0, i => rfl
  | n + 1, i => by
    unfold tryNames
    cases hq : fileFullpath dir (numbered f i) with
    | error e => rfl
    | ok q =>
      obtain ⟨rfl, -⟩ := fileFullpath_eq_ok hq
      rw [bind_ok, bind_ok, hd, tryNames_congr hd n (i + 1)]

theorem fileNewname_congr {d d' : Disk} {dir : Option Bytes} {f : Bytes}
    (hd : ∀ w, fileExist d (dir.getD [] ++ w) = fileExist d' (dir.getD [] ++ w)) :
    fileNewname d f dir = fileNewname d' f dir := by
  rw [fileNewname, fileNewname, tryNames_congr hd]

/-- **The name a HELLO picks** depends on the directory only, and on which names are free there. -/
theorem pickName_congr {s' : State} (hdir : s'.recvdir = s.recvdir) (hfree : ∀ w, s'.Free w ↔ s.Free w) (f : Bytes) :
    pickName s' f = pickName s f := by
  have hd : ∀ w, fileExist s'.fs.disk (s.recvdir.getD [] ++ w) = fileExist s.fs.disk (s.recvdir.getD [] ++ w) := by
    intro w
    have hw := hfree w
    rw [State.Free, State.Free, final_congr hdir] at hw
    rw [fileExist, fileExist, Bool.eq_iff_iff, Option.isSome_iff_ne_none, Option.isSome_iff_ne_none]
    exact not_congr hw
  unfold pickName
  rw [hdir]
  cases hq : fileFullpath s.recvdir f with
  | error e => rw [bind_error, bind_error]
  | ok q =>
    obtain ⟨rfl, -⟩ := fileFullpath_eq_ok hq
    rw [bind_ok, bind_ok, hd, fileNewname_congr hd]

theorem tryNames_find {d : Disk} {dir : Option Bytes} {f : Bytes} (hfit : (dir.getD []).length + f.length + 4 ≤ fullpathSize) :
    ∀ {n i : Nat}, (∃ j, i ≤ j ∧ j < i + n ∧ d (dir.getD [] ++ numbered f j) = none) →
      ∃ w, tryNames d dir f i n = .ok (.ok, some w)
  | 0, i, ⟨j, h1, h2, _⟩ => by omega
  | n + 1, i, ⟨j, h1, h2, hd⟩ => by
    have hpath : fileFullpath dir (numbered f i) = .ok (dir.getD [] ++ numbered f i) :=
      fileFullpath_ok (by rw [numbered_length]; omega)
    unfold tryNames
    rw [hpath, bind_ok]
    by_cases he : fileExist d (dir.getD [] ++ numbered f i) = false
    · exact ⟨_, if_pos he⟩
    · rw [if_neg he]
      have hne : j ≠ i := by
        rintro rfl
        rw [fileExist, hd] at he
        exact he rfl
      exact tryNames_find hfit ⟨j, by omega, by omega, hd⟩

/-- A HELLO of the name finds a name to save its file under, whose paths fit: its own if that is free, else a numbered
one. -/
def HasRoom (dir : Option Bytes) (free : Bytes → Prop) (f : Bytes) : Prop :=
  free f ∧ NameFits dir f ∨ ¬ free f ∧ NameFits dir (numbered f 1) ∧ ∃ j, 1 ≤ j ∧ j < 100 ∧ free (numbered f j)

theorem nameFits_congr {dir : Option Bytes} {v v' : Bytes} (h : v.length = v'.length) : NameFits dir v ↔ NameFits dir v' := by
  rw [NameFits, NameFits, h]

theorem pickName_iff {f : Bytes} :
    (∃ w, pickName s f = .ok (some w) ∧ NameFits s.recvdir w) ↔ HasRoom s.recvdir s.Free f := by
  by_cases hfree : s.Free f
  · rw [pickName_free hfree]
    constructor
    · rintro ⟨w, h, hfits⟩
      obtain ⟨q, -, h⟩ := bind_eq_ok.1 h
      cases h
      exact .inl ⟨hfree, hfits⟩
    · rintro (⟨-, hfits⟩ | ⟨htaken, -⟩)
      · exact ⟨f, by rw [hfits.final, bind_ok], hfits⟩
      · exact absurd hfree htaken
  · rw [pickName_taken hfree]
    constructor
    · rintro ⟨w, h, hfits⟩
      obtain ⟨q, -, h⟩ := bind_eq_ok.1 h
      obtain ⟨⟨rv, o⟩, ho, h⟩ := bind_eq_ok.1 h
      cases h
      obtain ⟨j, h1, h2, rfl, hd⟩ := tryNames_eq_ok ho
      exact .inr ⟨hfree, (nameFits_congr (by rw [numbered_length, numbered_length])).1 hfits, j, h1, by omega, hd⟩
    · rintro (⟨hf, -⟩ | ⟨-, hfits, j, h1, h2, hj⟩)
      · exact absurd hf hfree
      · have hlen : (s.recvdir.getD []).length + f.length + 4 ≤ fullpathSize := by
          have := hfits.2
          rw [numbered_length] at this
          omega
        obtain ⟨w, hw⟩ := tryNames_find hlen (n := 99) (i := 1) ⟨j, h1, by omega, hj⟩
        obtain ⟨k, -, -, rfl, -⟩ := tryNames_eq_ok hw
        refine ⟨numbered f k, ?_, (nameFits_congr (by rw [numbered_length, numbered_length])).1 hfits⟩
        rw [fileFullpath_ok (by omega), bind_ok, fileNewname, hw]
        rfl

end Nftp
