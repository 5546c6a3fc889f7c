import Nftp.Lib.Run
/-!
# Channel — two parties over a network that loses, repeats and reorders

What a party has sent stays on its side of the link, and any of it may arrive at any later time: nothing says that it does,
how often, or in which order.  The rule of the module is rely and guarantee: when each party keeps its own invariant as long
as what arrives is as the other one promises, both invariants hold over every run and everything sent is as promised.
-/
namespace Lib

variable {σ τ α β : Type}

/-- What a party does on a message that arrived, or of its own accord: it goes to another state, and sends a message or
none. -/
abbrev Party (σ α β : Type) := σ → Option α → Option β → σ → Prop

structure Link (σ τ α β : Type) where
  left : σ
  right : τ
  /-- what the left party has sent -/
  rightward : List α
  leftward : List β

inductive Turn (α β : Type)
  | left (i : Option β) (o : Option α)
  | right (i : Option α) (o : Option β)

inductive LinkStep (A : Party σ β α) (B : Party τ α β) (l : Link σ τ α β) : Turn α β → Link σ τ α β → Prop
  | left {i : Option β} {o : Option α} {s : σ} : (∀ y ∈ i, y ∈ l.leftward) → A l.left i o s →
      LinkStep A B l (.left i o) { l with left := s, rightward := l.rightward ++ o.toList }
  | right {i : Option α} {o : Option β} {t : τ} : (∀ x ∈ i, x ∈ l.rightward) → B l.right i o t →
      LinkStep A B l (.right i o) { l with right := t, leftward := l.leftward ++ o.toList }

/-- From a state with the invariant `I`, on a message with `P` or none, the party keeps `I` and sends a message with `Q` or
none. -/
def Guarantees (A : Party σ α β) (I : σ → Prop) (P : α → Prop) (Q : β → Prop) : Prop :=
  ∀ s i o s', I s → (∀ x ∈ i, P x) → A s i o s' → I s' ∧ ∀ y ∈ o, Q y

variable {A : Party σ β α} {B : Party τ α β} {I : σ → Prop} {J : τ → Prop} {P : α → Prop} {Q : β → Prop}
  {l l' : Link σ τ α β}

structure Link.Sound (I : σ → Prop) (J : τ → Prop) (P : α → Prop) (Q : β → Prop) (l : Link σ τ α β) : Prop where
  left : I l.left
  right : J l.right
  rightward : ∀ x ∈ l.rightward, P x
  leftward : ∀ y ∈ l.leftward, Q y

theorem sent_more {γ : Type} {R : γ → Prop} {xs : List γ} {o : Option γ} (hxs : ∀ x ∈ xs, R x) (ho : ∀ x ∈ o, R x) :
    ∀ x ∈ xs ++ o.toList, R x := by
  intro x hx
  rcases List.mem_append.1 hx with hx | hx
  · exact hxs x hx
  · exact ho x (Option.mem_toList.1 hx)

theorem Link.Sound.step (hA : Guarantees A I Q P) (hB : Guarantees B J P Q) (hl : l.Sound I J P Q) {e : Turn α β}
    (hs : LinkStep A B l e l') : l'.Sound I J P Q := by
  cases hs with
  | left hi ha =>
    obtain ⟨hI, ho⟩ := hA _ _ _ _ hl.left (fun y hy => hl.leftward y (hi y hy)) ha
    exact ⟨hI, hl.right, sent_more hl.rightward ho, hl.leftward⟩
  | right hi hb =>
    obtain ⟨hJ, ho⟩ := hB _ _ _ _ hl.right (fun x hx => hl.rightward x (hi x hx)) hb
    exact ⟨hl.left, hJ, hl.rightward, sent_more hl.leftward ho⟩

/-- **Rely and guarantee.** -/
theorem Link.Sound.run (hA : Guarantees A I Q P) (hB : Guarantees B J P Q) (hl : l.Sound I J P Q) {es : List (Turn α β)}
    (hrun : Run (LinkStep A B) l es l') : l'.Sound I J P Q :=
  hrun.invariant (fun _ _ _ hl hs => hl.step hA hB hs) hl

/-- **An exchange**: the right party asks, the left one answers, and the answer is handled. -/
theorem Link.exchange {y : β} {x : α} {t₁ t₂ : τ} {s₁ : σ} {o : Option β} (hask : B l.right none (some y) t₁)
    (hanswer : A l.left (some y) (some x) s₁) (hhandle : B t₁ (some x) o t₂) : ∃ l',
      Run (LinkStep A B) l [.right none (some y), .left (some y) (some x), .right (some x) o] l' ∧ l'.left = s₁ ∧
      l'.right = t₂ := by
  let l₁ : Link σ τ α β := { l with right := t₁, leftward := l.leftward ++ [y] }
  let l₂ : Link σ τ α β := { l₁ with left := s₁, rightward := l.rightward ++ [x] }
  have h₁ : LinkStep A B l (.right none (some y)) l₁ := .right (fun x hx => by cases hx) hask
  have h₂ : LinkStep A B l₁ (.left (some y) (some x)) l₂ := by
    refine .left (fun z hz => ?_) hanswer
    cases hz
    exact List.mem_append_right _ List.mem_cons_self
  have h₃ : LinkStep A B l₂ (.right (some x) o) { l₂ with right := t₂, leftward := l₂.leftward ++ o.toList } := by
    refine .right (fun z hz => ?_) hhandle
    cases hz
    exact List.mem_append_right _ List.mem_cons_self
  exact ⟨_, ((Run.single h₁).snoc h₂).snoc h₃, rfl, rfl⟩

end Lib
