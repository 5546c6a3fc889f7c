import Mathlib.Tactic
/-!
# Run — runs of a labelled transition relation

Finite runs, the rules that carry a property along one, and what is reachable from a set of initial states.  The last
step of a run is its outermost constructor, so that an induction sees the state a step is taken from.
-/
namespace Lib

variable {σ ε : Type}

/-- `Run step s es s'`: the steps labelled `es`, taken in order, lead from `s` to `s'`. -/
inductive Run (step : σ → ε → σ → Prop) (s : σ) : List ε → σ → Prop
  | refl : Run step s [] s
  | snoc {es : List ε} {e : ε} {s₁ s₂ : σ} : Run step s es s₁ → step s₁ e s₂ → Run step s (es ++ [e]) s₂

variable {step step' : σ → ε → σ → Prop} {s s₁ s₂ : σ} {es : List ε}

theorem Run.append {es' : List ε} (h : Run step s es s₁) (h' : Run step s₁ es' s₂) : Run step s (es ++ es') s₂ := by
  induction h' with
  | refl => rwa [List.append_nil]
  | snoc _ hs ih => rw [← List.append_assoc]; exact .snoc ih hs

theorem Run.single {e : ε} (h : step s e s₁) : Run step s [e] s₁ := .snoc .refl h

theorem run_nil_iff : Run step s [] s₁ ↔ s = s₁ := by
  refine ⟨fun h => ?_, fun h => h ▸ .refl⟩
  generalize hnil : ([] : List ε) = es at h
  cases h with
  | refl => rfl
  | snoc _ _ => exact absurd hnil.symm (by simp)

theorem run_single_iff {e : ε} : Run step s [e] s₁ ↔ step s e s₁ := by
  refine ⟨fun h => ?_, Run.single⟩
  generalize hes : [e] = es at h
  cases h with
  | refl => cases hes
  | snoc hr he =>
    rw [← List.nil_append [e]] at hes
    obtain ⟨rfl, he'⟩ := List.append_inj' hes rfl
    cases he'
    rwa [run_nil_iff.1 hr]

/-- **The invariant rule**: what every step keeps, every run keeps. -/
theorem Run.invariant {I : σ → Prop} (hstep : ∀ s e s', I s → step s e s' → I s') (h : Run step s es s₁) (hs : I s) :
    I s₁ := by
  induction h with
  | refl => exact hs
  | snoc _ he ih => exact hstep _ _ _ ih he

/-- The invariant rule for a property of the state and of the steps taken so far. -/
theorem Run.history {I : List ε → σ → Prop} (hs : I [] s)
    (hstep : ∀ es s₁ e s₂, I es s₁ → step s₁ e s₂ → I (es ++ [e]) s₂) (h : Run step s es s₁) : I es s₁ := by
  induction h with
  | refl => exact hs
  | snoc _ he ih => exact hstep _ _ _ _ ih he

/-- **The potential rule**: where every step is paid for by its credit and by what the potential gives up, so is a run. -/
theorem Run.amortised {I : σ → Prop} {potential : σ → ℕ} {cost credit : ε → ℕ}
    (hstep : ∀ s e s', I s → step s e s' → I s' ∧ cost e + potential s' ≤ potential s + credit e) (h : Run step s es s₁)
    (hs : I s) : I s₁ ∧ (es.map cost).sum + potential s₁ ≤ potential s + (es.map credit).sum := by
  induction h with
  | refl => simp [hs]
  | snoc _ he ih =>
    obtain ⟨hi, hsum⟩ := ih
    obtain ⟨hi', hpaid⟩ := hstep _ _ _ hi he
    refine ⟨hi', ?_⟩
    simp only [List.map_append, List.sum_append, List.map_cons, List.map_nil, List.sum_singleton]
    omega

theorem Run.mono (hstep : ∀ s e s', step s e s' → step' s e s') (h : Run step s es s₁) : Run step' s es s₁ := by
  induction h with
  | refl => exact .refl
  | snoc _ he ih => exact .snoc ih (hstep _ _ _ he)

/-- **The simulation rule**: when every step from related states is matched, every run is. -/
theorem Run.simulate {τ : Type} {spec : τ → ε → τ → Prop} {R : σ → τ → Prop} {t : τ}
    (hstep : ∀ s e s' t, R s t → step s e s' → ∃ t', spec t e t' ∧ R s' t') (h : Run step s es s₁) (hR : R s t) :
    ∃ t₁, Run spec t es t₁ ∧ R s₁ t₁ := by
  induction h with
  | refl => exact ⟨t, .refl, hR⟩
  | snoc _ he ih =>
    obtain ⟨t₁, hrun, hR₁⟩ := ih
    obtain ⟨t₂, hs, hR₂⟩ := hstep _ _ _ _ hR₁ he
    exact ⟨t₂, hrun.snoc hs, hR₂⟩

/-- Two step relations that agree from every state with an invariant have the same runs from there. -/
theorem Run.congr {I : σ → Prop} (hI : ∀ s e s', I s → step s e s' → I s')
    (hstep : ∀ s e s', I s → (step s e s' ↔ step' s e s')) (hs : I s) : Run step s es s₁ ↔ Run step' s es s₁ := by
  have hI' : ∀ s e s', I s → step' s e s' → I s' := fun s e s' h he => hI s e s' h ((hstep s e s' h).2 he)
  constructor
  · intro h
    induction h with
    | refl => exact .refl
    | snoc hr he ih => exact .snoc ih ((hstep _ _ _ (hr.invariant hI hs)).1 he)
  · intro h
    induction h with
    | refl => exact .refl
    | snoc hr he ih => exact .snoc ih ((hstep _ _ _ (hr.invariant hI' hs)).2 he)

theorem run_snoc_iff {e : ε} : Run step s (es ++ [e]) s₂ ↔ ∃ s₁, Run step s es s₁ ∧ step s₁ e s₂ := by
  refine ⟨fun h => ?_, fun ⟨s₁, hr, he⟩ => .snoc hr he⟩
  generalize hes : es ++ [e] = es' at h
  cases h with
  | refl => simp at hes
  | snoc hr he =>
    obtain ⟨rfl, he'⟩ := List.append_inj' hes rfl
    cases he'
    exact ⟨_, hr, he⟩

/-- A run is a run of its first steps and one of the others. -/
theorem Run.split {es' : List ε} (h : Run step s (es ++ es') s₂) : ∃ s₁, Run step s es s₁ ∧ Run step s₁ es' s₂ := by
  induction es' using List.reverseRecOn generalizing s₂ with
  | nil => exact ⟨s₂, by rwa [List.append_nil] at h, .refl⟩
  | append_singleton es' e ih =>
    rw [← List.append_assoc, run_snoc_iff] at h
    obtain ⟨s₃, hr, he⟩ := h
    obtain ⟨s₁, hr₁, hr₂⟩ := ih hr
    exact ⟨s₁, hr₁, hr₂.snoc he⟩

/-- A state some run leads to from an initial state. -/
def Reachable (init : σ → Prop) (step : σ → ε → σ → Prop) (s : σ) : Prop := ∃ s₀ es, init s₀ ∧ Run step s₀ es s

theorem Reachable.run {init : σ → Prop} (h : Reachable init step s) (h' : Run step s es s₁) :
    Reachable init step s₁ := by
  obtain ⟨s₀, es₀, h₀, hr⟩ := h
  exact ⟨s₀, es₀ ++ es, h₀, hr.append h'⟩

theorem Reachable.invariant {init I : σ → Prop} (hinit : ∀ s, init s → I s)
    (hstep : ∀ s e s', I s → step s e s' → I s') (h : Reachable init step s) : I s := by
  obtain ⟨s₀, es, h₀, hr⟩ := h
  exact hr.invariant hstep (hinit s₀ h₀)

end Lib
