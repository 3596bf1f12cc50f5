import Mathlib.Logic.Basic

/-!
# Runs of a step function

A system is a partial step function `step : σ → α → Option σ`: from a state an
action either is not possible or leads to one next state, so every choice an
environment makes (a schedule, a fault) is part of the action.

`Run step ok s as t` says that the actions `as` lead from `s` to `t`, each of them
allowed by `ok` in the state it is taken in. The `ok` parameter is where a class of
runs is described: a discipline the callers keep, a kind of fault that is excluded.
`Run.invariant` is the induction rule, and `exec` computes the run of a given list
of actions.
-/

universe u v w

variable {σ : Type u} {α : Type v}

/-- The actions `as` lead from one state to another, each allowed where it is taken. -/
inductive Run (step : σ → α → Option σ) (ok : σ → α → Prop) : σ → List α → σ → Prop
  /-- no action -/
  | nil (s : σ) : Run step ok s [] s
  /-- an allowed action, then a run -/
  | cons {s t u : σ} {a : α} {as : List α} :
      ok s a → step s a = some t → Run step ok t as u → Run step ok s (a :: as) u

namespace Run

variable {step : σ → α → Option σ} {ok ok' : σ → α → Prop} {s t u : σ} {as bs : List α}

/-- What holds at the start and is kept by every allowed step holds at the end. -/
theorem invariant {I : σ → Prop} (hrun : Run step ok s as t)
    (hstep : ∀ s a t, I s → ok s a → step s a = some t → I t) (hs : I s) : I t := by
  induction hrun with
  | nil => exact hs
  | cons hok h _ ih => exact ih (hstep _ _ _ hs hok h)

/-- One allowed step. -/
theorem single {a : α} (hok : ok s a) (h : step s a = some t) : Run step ok s [a] t :=
  .cons hok h (.nil t)

theorem append (hst : Run step ok s as t) (htu : Run step ok t bs u) :
    Run step ok s (as ++ bs) u := by
  induction hst with
  | nil => exact htu
  | cons hok h _ ih => exact Run.cons hok h (ih htu)

/-- A run extended by one last step. -/
theorem snoc {a : α} (hst : Run step ok s as t) (hok : ok t a) (h : step t a = some u) :
    Run step ok s (as ++ [a]) u :=
  hst.append (Run.cons hok h (Run.nil u))

/-- A run stays a run when more is allowed. -/
theorem mono (hmono : ∀ s a, ok s a → ok' s a) (hrun : Run step ok s as t) :
    Run step ok' s as t := by
  induction hrun with
  | nil => exact Run.nil _
  | cons hok h _ ih => exact Run.cons (hmono _ _ hok) h ih

/-- Follow a list of actions, stopping at the first that is not allowed or not possible. -/
def exec (step : σ → α → Option σ) (ok : σ → α → Prop) [∀ s a, Decidable (ok s a)] :
    σ → List α → Option σ
  | s, [] => some s
  | s, a :: as => if ok s a then (step s a).bind fun t => exec step ok t as else none

/-- A list of actions that executes is a run. -/
theorem of_exec [∀ s a, Decidable (ok s a)] :
    ∀ {as : List α} {s t : σ}, exec step ok s as = some t → Run step ok s as t := by
  intro as
  induction as with
  | nil =>
    intro s t h
    obtain rfl := Option.some.inj h
    exact Run.nil _
  | cons a as ih =>
    intro s t h
    rw [exec] at h
    split at h
    · next hok =>
      obtain ⟨r, hr, hrest⟩ := Option.bind_eq_some_iff.mp h
      exact Run.cons hok hr (ih hrest)
    · cases h

/-- A run executes. -/
theorem exec_eq [∀ s a, Decidable (ok s a)] (hrun : Run step ok s as t) :
    exec step ok s as = some t := by
  induction hrun with
  | nil => rfl
  | cons hok h _ ih => simp only [exec, if_pos hok, h, Option.bind_some, ih]

/-- A list of actions that can be executed has a run. -/
theorem exists_of_exec [∀ s a, Decidable (ok s a)] (h : (exec step ok s as).isSome = true) :
    ∃ t, Run step ok s as t := by
  obtain ⟨t, ht⟩ := Option.isSome_iff_exists.mp h
  exact ⟨t, of_exec ht⟩

/-- A list of actions that executes to a state with a property has a run that ends there. -/
theorem exists_of_exec_any {p : σ → Prop} [∀ s a, Decidable (ok s a)] [DecidablePred p]
    (h : (exec step ok s as).any (fun t => decide (p t)) = true) :
    ∃ t, Run step ok s as t ∧ p t := by
  obtain ⟨t, ht, hp⟩ := (Option.any_eq_true _ _).mp h
  exact ⟨t, of_exec ht, of_decide_eq_true hp⟩

/-- Whether a list of actions leads to a state with a property can be found out by following
it. -/
instance decidableExists {p : σ → Prop} [∀ s a, Decidable (ok s a)] [DecidablePred p] :
    Decidable (∃ t, Run step ok s as t ∧ p t) :=
  decidable_of_iff ((exec step ok s as).any (fun t => decide (p t)) = true)
    ⟨exists_of_exec_any, fun ⟨t, hrun, hp⟩ =>
      (Option.any_eq_true _ _).mpr ⟨t, exec_eq hrun, decide_eq_true hp⟩⟩

end Run

/-! ## Steps of a relation -/

/-- The labels `as` lead from one state to another by steps of a relation, where a label does
not decide the next state. -/
inductive Trace (step : σ → α → σ → Prop) : σ → List α → σ → Prop
  /-- no label -/
  | nil (s : σ) : Trace step s [] s
  /-- a step, then a trace -/
  | cons {s t u : σ} {a : α} {as : List α} :
      step s a t → Trace step t as u → Trace step s (a :: as) u

namespace Trace

variable {step : σ → α → σ → Prop} {s t : σ} {as bs : List α}

theorem exists_cons {a : α} (h : step s a t) (hrest : ∃ u, Trace step t as u) :
    ∃ u, Trace step s (a :: as) u := by
  obtain ⟨u, hrest⟩ := hrest
  exact ⟨u, .cons h hrest⟩

/-- What holds at the start and is kept by every step of the trace holds at the end. -/
theorem invariant {I : σ → Prop} (htrace : Trace step s as t)
    (hstep : ∀ s a t, a ∈ as → I s → step s a t → I t) (hs : I s) : I t := by
  induction htrace with
  | nil => exact hs
  | cons h _ ih =>
    refine ih (fun s b t hb => hstep s b t (List.mem_cons_of_mem _ hb)) ?_
    exact hstep _ _ _ List.mem_cons_self hs h

/-- A trace of labels in two parts goes through a state between them. -/
theorem split (htrace : Trace step s (as ++ bs) t) :
    ∃ r, Trace step s as r ∧ Trace step r bs t := by
  induction as generalizing s with
  | nil => exact ⟨s, .nil s, htrace⟩
  | cons a as ih =>
    cases htrace with
    | cons h hrest =>
      obtain ⟨r, has, hbs⟩ := ih hrest
      exact ⟨r, .cons h has, hbs⟩

/-- A relation that every step can keep leads from a trace to one with the same labels. -/
theorem simulates {τ : Type w} {spec : τ → α → τ → Prop} {R : σ → τ → Prop}
    (hstep : ∀ s a t s', R s s' → step s a t → ∃ t', spec s' a t' ∧ R t t')
    (htrace : Trace step s as t) {s' : τ} (hs : R s s') : ∃ t', Trace spec s' as t' ∧ R t t' := by
  induction htrace generalizing s' with
  | nil => exact ⟨s', .nil s', hs⟩
  | cons h _ ih =>
    obtain ⟨t', hspec, ht⟩ := hstep _ _ _ _ hs h
    obtain ⟨u', htrace, hu⟩ := ih ht
    exact ⟨u', .cons hspec htrace, hu⟩

end Trace
