import Mathlib.Tactic
/-!
# Pathname — names of one file

A path is followed component by component, from the directory it starts in: an empty component and `.` stay, `..` goes
up.  So two spellings may reach one file.  Behind a common prefix two plain names reach one file only if they are equal.
-/
namespace Lib

variable {α : Type} [DecidableEq α] {sep dot : α} {cwd : List (List α)} {p w w' : List α}

/-- One component, from a directory given by the names that lead to it, the last first. -/
def enter (dot : α) (cwd : List (List α)) (x : List α) : List (List α) :=
  if x = [] ∨ x = [dot] then cwd else if x = [dot, dot] then cwd.tail else x :: cwd

/-- Where a path leads, in a tree without links; one that starts with `sep` starts at the root. -/
def resolve (sep dot : α) (cwd : List (List α)) (p : List α) : List (List α) :=
  (p.splitOn sep).foldl (enter dot) (if p.head? = some sep then [] else cwd)

/-- A component that names an entry. -/
def EntryName (dot : α) (x : List α) : Prop := x ≠ [] ∧ x ≠ [dot] ∧ x ≠ [dot, dot]

instance : DecidablePred (EntryName dot) := fun _ => inferInstanceAs (Decidable (_ ∧ _))

/-- Each component of the name names an entry. -/
def Plain (sep dot : α) (w : List α) : Prop := ∀ x ∈ w.splitOn sep, EntryName dot x

instance : DecidablePred (Plain sep dot) := fun w => inferInstanceAs (Decidable (∀ x ∈ w.splitOn sep, EntryName dot x))

/-- **The components behind a prefix**: the first is joined to the last one of the prefix. -/
theorem splitOn_prefix (sep : α) : ∀ p : List α, ∃ pre l, ∀ w,
    (p ++ w).splitOn sep = pre ++ (w.splitOn sep).modifyHead (l ++ ·)
  | [] => ⟨[], [], fun w => (congrFun List.modifyHead_id _).symm⟩
  | b :: p => by
    obtain ⟨pre, l, h⟩ := splitOn_prefix sep p
    by_cases hb : b = sep
    · refine ⟨[] :: pre, l, fun w => ?_⟩
      rw [List.cons_append, List.splitOn_cons_eq_if_modifyHead, if_pos (by simpa using hb), h w, List.cons_append]
    · have hcons : ∀ w, (b :: p ++ w).splitOn sep = (pre ++ (w.splitOn sep).modifyHead (l ++ ·)).modifyHead (b :: ·) := by
        intro w
        rw [List.cons_append, List.splitOn_cons_eq_if_modifyHead, if_neg (by simpa using hb), h w]
      cases pre with
      | nil => exact ⟨[], b :: l, fun w => by rw [hcons, List.nil_append, List.modifyHead_modifyHead]; rfl⟩
      | cons x pre => exact ⟨(b :: x) :: pre, l, hcons⟩

theorem foldl_enter : ∀ {xs cwd : List (List α)}, (∀ x ∈ xs, EntryName dot x) →
    xs.foldl (enter dot) cwd = xs.reverse ++ cwd
  | [], _, _ => rfl
  | x :: xs, cwd, h => by
    obtain ⟨h1, h2, h3⟩ := h x List.mem_cons_self
    have hx : enter dot cwd x = x :: cwd := by rw [enter, if_neg (by tauto), if_neg h3]
    rw [List.foldl_cons, hx, foldl_enter fun y hy => h y (List.mem_cons_of_mem _ hy), List.reverse_cons,
      List.append_assoc, List.singleton_append]

omit [DecidableEq α] in
/-- Behind a prefix that ends in the middle of a component, an entry is one still. -/
theorem EntryName.append {x : List α} (h : EntryName dot x) (l : List α) : EntryName dot (l ++ x) := by
  obtain ⟨h1, h2, h3⟩ := h
  refine ⟨by simp [h1], fun he => ?_, fun he => ?_⟩
  · rcases List.append_eq_singleton_iff.1 he with ⟨-, hx⟩ | ⟨-, hx⟩
    · exact h2 hx
    · exact h1 hx
  · rcases List.append_eq_cons_iff.1 he with ⟨-, hx⟩ | ⟨l', -, hx⟩
    · exact h3 hx
    · rcases List.append_eq_singleton_iff.1 hx.symm with ⟨-, hx⟩ | ⟨-, hx⟩
      · exact h2 hx
      · exact h1 hx

theorem Plain.ne_nil (h : Plain sep dot w) : w ≠ [] := by
  rintro rfl
  exact (h [] (by rw [List.splitOn_nil]; exact List.mem_cons_self)).1 rfl

theorem Plain.head (h : Plain sep dot w) : w.head? ≠ some sep := by
  cases w with
  | nil => exact absurd rfl h.ne_nil
  | cons b w =>
    rintro ⟨rfl⟩
    refine (h [] ?_).1 rfl
    rw [List.splitOn_cons_eq_if_modifyHead, if_pos (by simp)]
    exact List.mem_cons_self

/-- A name stays plain when more is added to its last component, three characters or more. -/
theorem Plain.append {s : List α} (h : Plain sep dot w) (hs : sep ∉ s) (hlen : 3 ≤ s.length) : Plain sep dot (w ++ s) := by
  obtain ⟨pre, l, hsplit⟩ := splitOn_prefix sep w
  have hw : w.splitOn sep = pre ++ [l] := by
    have := hsplit []
    rwa [List.append_nil, List.splitOn_nil, List.modifyHead_cons, List.append_nil] at this
  have hone : s.splitOn sep = [s] := List.splitOn_eq_singleton hs
  intro x hx
  rw [hsplit, hone, List.modifyHead_cons, List.mem_append, List.mem_singleton] at hx
  rcases hx with hx | rfl
  · exact h x (by rw [hw]; exact List.mem_append_left _ hx)
  · refine ⟨fun he => ?_, fun he => ?_, fun he => ?_⟩ <;>
    · have := congrArg List.length he
      simp only [List.length_append, List.length_cons, List.length_nil] at this
      omega

/-- **Plain names are spellings of different files**, whatever prefix they stand behind and wherever it starts. -/
theorem resolve_plain (h : Plain sep dot w) (h' : Plain sep dot w') :
    resolve sep dot cwd (p ++ w) = resolve sep dot cwd (p ++ w') ↔ w = w' := by
  refine ⟨fun he => ?_, fun he => by rw [he]⟩
  obtain ⟨pre, l, hsplit⟩ := splitOn_prefix sep p
  have hstart : (p ++ w).head? = some sep ↔ (p ++ w').head? = some sep := by
    cases p with
    | nil => exact iff_of_false h.head h'.head
    | cons b p => rw [List.cons_append, List.cons_append, List.head?_cons, List.head?_cons]
  have hwalk : ∀ {v : List α} {at' : List (List α)}, Plain sep dot v →
      ((p ++ v).splitOn sep).foldl (enter dot) at' =
        ((v.splitOn sep).modifyHead (l ++ ·)).reverse ++ pre.foldl (enter dot) at' := by
    intro v at' hv
    rw [hsplit, List.foldl_append, foldl_enter]
    intro x hx
    cases hc : v.splitOn sep with
    | nil =>
      rw [hc] at hx
      cases hx
    | cons y ys =>
      rw [hc, List.modifyHead_cons, List.mem_cons] at hx
      rcases hx with rfl | hx
      · exact (hv y (by rw [hc]; exact List.mem_cons_self)).append l
      · exact hv x (by rw [hc]; exact List.mem_cons_of_mem _ hx)
  rw [resolve, resolve, hwalk h, hwalk h', if_congr hstart rfl rfl, List.append_left_inj, List.reverse_inj] at he
  have hcomp : w.splitOn sep = w'.splitOn sep := by
    cases hc : w.splitOn sep with
    | nil => exact absurd hc (List.splitOn_ne_nil _ _)
    | cons y ys =>
      cases hc' : w'.splitOn sep with
      | nil => exact absurd hc' (List.splitOn_ne_nil _ _)
      | cons z zs =>
        rw [hc, hc', List.modifyHead_cons, List.modifyHead_cons, List.cons.injEq, List.append_right_inj] at he
        rw [he.1, he.2]
  have hjoin := congrArg (List.intercalate [sep]) hcomp
  rwa [List.intercalate_splitOn, List.intercalate_splitOn] at hjoin

end Lib
