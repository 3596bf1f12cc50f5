import Mathlib.Data.Option.Basic

/-!
# Machines that answer requests

A machine takes requests one after the other: `step` gives the next state and the answer,
or nothing when the request is not possible. `replies` collects the answers to a list of
requests.

One machine implements another when an abstraction of its states commutes with the steps.
Then both give the same answers (`replies_map`). What the callers promise is a predicate
on the abstract side, which has to hold of each request in the state it is made in
(`Promised`). Where there is no such function, a relation that the steps keep is enough, and
the answers may be read through a function (`replies_rel`).
-/

universe u v w x y

variable {σ : Type u} {τ : Type v} {α : Type w} {β : Type x} {γ : Type y}

/-- The last state and the answers to a list of requests. -/
def replies (step : σ → α → Option (σ × β)) : σ → List α → Option (σ × List β)
  | s, [] => some (s, [])
  | s, a :: as =>
    match step s a with
    | none => none
    | some (t, b) => (replies step t as).map fun r => (r.1, b :: r.2)

/-- Every request of the list is allowed in the state it is made in. -/
def Promised (step : σ → α → Option (σ × β)) (ok : σ → α → Prop) : σ → List α → Prop
  | _, [] => True
  | s, a :: as => ok s a ∧ ∀ r ∈ step s a, Promised step ok r.1 as

instance Promised.decidable {step : σ → α → Option (σ × β)} {ok : σ → α → Prop}
    [∀ s a, Decidable (ok s a)] : ∀ s as, Decidable (Promised step ok s as)
  | _, [] => isTrue trivial
  | s, a :: as =>
    have (r : σ × β) : Decidable (Promised step ok r.1 as) := Promised.decidable r.1 as
    inferInstanceAs (Decidable (ok s a ∧ ∀ r ∈ step s a, Promised step ok r.1 as))

/-- The machines give the same answers when an abstraction commutes with every step that is
allowed. -/
theorem replies_map {step : σ → α → Option (σ × β)} {spec : τ → α → Option (τ × β)}
    {ok : τ → α → Prop} {I : σ → Prop} (abs : σ → τ)
    (hstep : ∀ s a, I s → ok (abs s) a → (step s a).map (Prod.map abs id) = spec (abs s) a)
    (hinv : ∀ s a t b, I s → ok (abs s) a → step s a = some (t, b) → I t) :
    ∀ {as : List α} {s : σ}, I s → Promised spec ok (abs s) as →
      (replies step s as).map (Prod.map abs id) = replies spec (abs s) as := by
  intro as
  induction as with
  | nil => intro s _ _; rfl
  | cons a as ih =>
    intro s hs hok
    have hcomm := hstep s a hs hok.1
    rcases hres : step s a with _ | ⟨t, b⟩
    · rw [hres] at hcomm
      simp only [replies, hres, ← hcomm]
      rfl
    · rw [hres] at hcomm
      have ht := ih (hinv s a t b hs hok.1 hres) (hok.2 (abs t, b) hcomm.symm)
      simp only [replies, hres, ← hcomm, Option.map_some, Prod.map, id]
      rw [← ht, Option.map_map, Option.map_map]
      rfl

/-- The machines give answers that correspond when they take corresponding steps. -/
theorem replies_rel {step : σ → α → Option (σ × β)} {spec : τ → α → Option (τ × γ)}
    {R : σ → τ → Prop} {f : β → γ}
    (hstep : ∀ s t a, R s t → (step s a = none ∧ spec t a = none) ∨
      ∃ s' t' b, step s a = some (s', b) ∧ spec t a = some (t', f b) ∧ R s' t') :
    ∀ (as : List α) {s : σ} {t : τ}, R s t →
      (replies step s as = none ∧ replies spec t as = none) ∨
      ∃ s' t' bs, replies step s as = some (s', bs) ∧ replies spec t as = some (t', bs.map f) ∧
        R s' t' := by
  intro as
  induction as with
  | nil => intro s t hst; exact Or.inr ⟨s, t, [], rfl, rfl, hst⟩
  | cons a as ih =>
    intro s t hst
    rcases hstep s t a hst with ⟨hs, ht⟩ | ⟨s', t', b, hs, ht, hrel⟩
    · exact Or.inl ⟨by simp only [replies, hs], by simp only [replies, ht]⟩
    · simp only [replies, hs, ht]
      rcases ih hrel with ⟨hs', ht'⟩ | ⟨s'', t'', bs, hs', ht', hrel'⟩
      · rw [hs', ht']
        exact Or.inl ⟨rfl, rfl⟩
      · rw [hs', ht']
        exact Or.inr ⟨s'', t'', b :: bs, rfl, rfl, hrel'⟩

/-- An invariant of the machine holds at the end, and what it says of the answers of a step
holds of all of them. -/
theorem replies_all {step : σ → α → Option (σ × β)} {I : σ → Prop} {P : β → Prop}
    (hstep : ∀ s a t b, I s → step s a = some (t, b) → I t ∧ P b) :
    ∀ {as : List α} {s t : σ} {bs : List β}, I s → replies step s as = some (t, bs) →
      I t ∧ ∀ b ∈ bs, P b := by
  intro as
  induction as with
  | nil =>
    intro s t bs hs h
    obtain ⟨rfl, rfl⟩ := Prod.mk.inj (Option.some.inj h)
    exact ⟨hs, fun b hb => by cases hb⟩
  | cons a as ih =>
    intro s t bs hs h
    rw [replies] at h
    split at h
    · cases h
    · next s' b hres =>
      obtain ⟨⟨t', bs'⟩, hrest, heq⟩ := Option.map_eq_some_iff.mp h
      obtain ⟨rfl, rfl⟩ := Prod.mk.inj heq
      obtain ⟨hs', hb⟩ := hstep s a s' b hs hres
      obtain ⟨ht, hbs⟩ := ih hs' hrest
      exact ⟨ht, List.forall_mem_cons.mpr ⟨hb, hbs⟩⟩
