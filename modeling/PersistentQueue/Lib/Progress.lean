import Mathlib.Order.OrderIsoNat
import PersistentQueue.Lib.Run

/-!
# Systems that come to rest

Some of the actions of a system are requests from outside, and the others carry on what
was begun. When every action that carries on makes a measure smaller, a system left to
itself comes to rest: however it goes on, it does so finitely often (`not_endless`), and
there is a way to go on until nothing is left to do (`exists_stuck`). The measure may lie in
any well-founded order; in a lexicographic product an action has to explain only the first
component it changes.
-/

universe u v w

variable {σ : Type u} {α : Type v} {β : Type w}

/-- No allowed action is possible. -/
def Stuck (step : σ → α → Option σ) (ok : σ → α → Prop) (s : σ) : Prop :=
  ∀ a, ok s a → step s a = none

/-- Allowed actions can go on for ever. -/
def Endless (step : σ → α → Option σ) (ok : σ → α → Prop) (s : σ) : Prop :=
  ∃ f : ℕ → σ, f 0 = s ∧ ∀ n, ∃ a, ok (f n) a ∧ step (f n) a = some (f (n + 1))

section

variable {step : σ → α → Option σ} {ok : σ → α → Prop} {I : σ → Prop} {s : σ}
  [Preorder β] [WellFoundedLT β]

/-- A system whose actions make a measure smaller does not go on for ever. -/
theorem not_endless (μ : σ → β)
    (hstep : ∀ s a t, I s → ok s a → step s a = some t → I t ∧ μ t < μ s) (hs : I s) :
    ¬Endless step ok s := by
  rintro ⟨f, rfl, hf⟩
  have hI : ∀ n, I (f n) := by
    intro n
    induction n with
    | zero => exact hs
    | succ n ih =>
      obtain ⟨a, hok, ha⟩ := hf n
      exact (hstep _ _ _ ih hok ha).1
  have hanti : StrictAnti fun n => μ (f n) := by
    refine strictAnti_nat_of_succ_lt fun n => ?_
    obtain ⟨a, hok, ha⟩ := hf n
    exact (hstep _ _ _ (hI n) hok ha).2
  exact not_strictAnti_of_wellFoundedLT _ hanti

/-- It can go on until nothing is left to do. -/
theorem exists_stuck (μ : σ → β)
    (hstep : ∀ s a t, I s → ok s a → step s a = some t → I t ∧ μ t < μ s) (hs : I s) :
    ∃ as t, Run step ok s as t ∧ Stuck step ok t := by
  obtain ⟨x, hx⟩ : ∃ x, x = μ s := ⟨_, rfl⟩
  induction x using WellFoundedLT.induction generalizing s with
  | ind x ih =>
    by_cases hstuck : Stuck step ok s
    · exact ⟨[], s, .nil s, hstuck⟩
    · simp only [Stuck, not_forall] at hstuck
      obtain ⟨a, hok, ha⟩ := hstuck
      obtain ⟨t, ht⟩ := Option.ne_none_iff_exists'.mp ha
      obtain ⟨hI, hlt⟩ := hstep s a t hs hok ht
      obtain ⟨as, u, hrun, hu⟩ := ih (μ t) (hx ▸ hlt) hI rfl
      exact ⟨a :: as, u, .cons hok ht hrun, hu⟩

end
