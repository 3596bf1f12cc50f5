import Mathlib.Data.Finset.Card

/-!
# Notify

A notification primitive for tasks: futures register in a queue, `notifyOne` wakes the
oldest of them or, if there is none, stores a single permit for the next one that
registers, and `notifyWaiters` wakes all that are registered and stores nothing. A future
that was woken by `notifyOne` and is dropped before it is polled hands the wake on.

A future is `waiting` while it is registered and was not woken, and `Ready` when a poll
would complete it. The wakes on their way to a future are counted by `one`: as long as
someone waits, `notifyOne` adds one to them (`Wf.card_notifyOne`), and dropping a future
takes none away (`Wf.card_drop`). With the permit and the wakes of `notifyWaiters` they are
the `tokens`: only a notification adds to these, and every future that goes on because it
was woken uses one up (`Ready.tokens_forget_lt`).
-/

universe u

/-- The state of the primitive. Futures are known by ids. -/
structure Notify (ι : Type u) where
  /-- a `notifyOne` found no future to wake -/
  permit : Bool
  /-- the futures that are registered and were not woken, oldest first -/
  waiting : List ι
  /-- the futures woken by `notifyOne` and not polled since -/
  one : Finset ι
  /-- the futures woken by `notifyWaiters` and not polled since -/
  all : Finset ι
  /-- the futures that took the permit as they registered -/
  done : Finset ι

namespace Notify

variable {ι : Type u}

/-- Nobody is registered, and there is no permit. -/
def init : Notify ι := { permit := false, waiting := [], one := ∅, all := ∅, done := ∅ }

variable [DecidableEq ι] (n : Notify ι)

/-- Register a future, or hand it the permit. -/
def enable (i : ι) : Notify ι :=
  if n.permit then { n with permit := false, done := insert i n.done }
  else { n with waiting := n.waiting ++ [i] }

/-- Wake the oldest future, or store a permit. -/
def notifyOne : Notify ι :=
  match n.waiting with
  | [] => { n with permit := true }
  | i :: rest => { n with waiting := rest, one := insert i n.one }

/-- Wake every registered future. -/
def notifyWaiters : Notify ι := { n with waiting := [], all := n.all ∪ n.waiting.toFinset }

/-- A poll of the future would complete it. -/
def Ready (i : ι) : Prop := i ∈ n.one ∨ i ∈ n.all ∨ i ∈ n.done

instance (i : ι) : Decidable (n.Ready i) := inferInstanceAs (Decidable (_ ∨ _ ∨ _))

/-- The future is not there any more. -/
def forget (i : ι) : Notify ι :=
  { n with
    waiting := n.waiting.filter fun j => j ≠ i
    one := n.one.erase i
    all := n.all.erase i
    done := n.done.erase i }

/-- Drop a future, and hand on the wake it was sent if it has not seen it. -/
def drop (i : ι) : Notify ι := if i ∈ n.one then (n.forget i).notifyOne else n.forget i

/-- No wake is on its way to a future, and no permit is stored. -/
def Idle : Prop := n.permit = false ∧ n.one = ∅ ∧ n.all = ∅ ∧ n.done = ∅

instance : Decidable n.Idle := inferInstanceAs (Decidable (_ ∧ _ ∧ _ ∧ _))

/-- The future is registered, or it was woken. -/
def Knows (i : ι) : Prop := i ∈ n.waiting ∨ n.Ready i

variable {n} {i j : ι}

theorem waiting_enable (h : j ∈ (n.enable i).waiting) : j ∈ n.waiting ∨ j = i := by
  rw [enable] at h
  split at h
  · exact Or.inl h
  · simpa using h

@[simp] theorem one_enable : (n.enable i).one = n.one := by
  rw [enable]
  split <;> rfl

theorem knows_enable : (n.enable i).Knows i := by
  rw [enable]
  split
  · exact Or.inr (Or.inr (Or.inr (Finset.mem_insert_self _ _)))
  · exact Or.inl (List.mem_append_right _ (List.mem_singleton_self i))

theorem Knows.enable (h : n.Knows j) : (n.enable i).Knows j := by
  rw [Notify.enable]
  split
  · exact h.imp id (Or.imp id (Or.imp id Finset.mem_insert_of_mem))
  · exact h.imp (List.mem_append_left _) id

@[simp] theorem waiting_notifyOne : n.notifyOne.waiting = n.waiting.tail := by
  rw [notifyOne]
  split <;> next h => rw [h]; rfl

theorem mem_waiting_notifyOne (h : j ∈ n.notifyOne.waiting) : j ∈ n.waiting := by
  rw [waiting_notifyOne] at h
  exact List.mem_of_mem_tail h

theorem Knows.notifyOne (h : n.Knows j) : n.notifyOne.Knows j := by
  rw [Notify.notifyOne]
  split
  · exact h
  · next i rest heq =>
    rcases h with h | h | h
    · rw [heq] at h
      rcases List.mem_cons.mp h with rfl | h
      · exact Or.inr (Or.inl (Finset.mem_insert_self _ _))
      · exact Or.inl h
    · exact Or.inr (Or.inl (Finset.mem_insert_of_mem h))
    · exact Or.inr (Or.inr h)

theorem Knows.notifyWaiters (h : n.Knows j) : n.notifyWaiters.Knows j := by
  rcases h with h | h | h | h
  · exact Or.inr (Or.inr (Or.inl (Finset.mem_union_right _ (List.mem_toFinset.mpr h))))
  · exact Or.inr (Or.inl h)
  · exact Or.inr (Or.inr (Or.inl (Finset.mem_union_left _ h)))
  · exact Or.inr (Or.inr (Or.inr h))

theorem waiting_forget : j ∈ (n.forget i).waiting ↔ j ∈ n.waiting ∧ j ≠ i := by
  simp [forget]

theorem Knows.forget (h : n.Knows j) (hne : j ≠ i) : (n.forget i).Knows j := by
  rcases h with h | h | h | h
  · exact Or.inl (waiting_forget.mpr ⟨h, hne⟩)
  · exact Or.inr (Or.inl (Finset.mem_erase.mpr ⟨hne, h⟩))
  · exact Or.inr (Or.inr (Or.inl (Finset.mem_erase.mpr ⟨hne, h⟩)))
  · exact Or.inr (Or.inr (Or.inr (Finset.mem_erase.mpr ⟨hne, h⟩)))

theorem Knows.of_enable (h : (n.enable i).Knows j) : n.Knows j ∨ j = i := by
  rw [Notify.enable] at h
  split at h
  · rcases h with h | h | h | h
    · exact Or.inl (Or.inl h)
    · exact Or.inl (Or.inr (Or.inl h))
    · exact Or.inl (Or.inr (Or.inr (Or.inl h)))
    · exact (Finset.mem_insert.mp h).symm.imp (fun h => Or.inr (Or.inr (Or.inr h))) id
  · rcases h with h | h
    · exact (List.mem_append.mp h).imp Or.inl List.mem_singleton.mp
    · exact Or.inl (Or.inr h)

theorem Knows.of_notifyOne (h : n.notifyOne.Knows j) : n.Knows j := by
  rw [Notify.notifyOne] at h
  split at h
  · exact h
  · next i rest heq =>
    rcases h with h | h | h
    · exact Or.inl (heq ▸ List.mem_cons_of_mem _ h)
    · rcases Finset.mem_insert.mp h with rfl | h
      · exact Or.inl (heq ▸ List.mem_cons_self)
      · exact Or.inr (Or.inl h)
    · exact Or.inr (Or.inr h)

theorem Knows.of_notifyWaiters (h : n.notifyWaiters.Knows j) : n.Knows j := by
  rcases h with h | h | h | h
  · cases h
  · exact Or.inr (Or.inl h)
  · exact (Finset.mem_union.mp h).symm.imp List.mem_toFinset.mp fun h => Or.inr (Or.inl h)
  · exact Or.inr (Or.inr (Or.inr h))

theorem Knows.of_forget (h : (n.forget i).Knows j) : n.Knows j ∧ j ≠ i := by
  rcases h with h | h | h | h
  · exact ⟨Or.inl (waiting_forget.mp h).1, (waiting_forget.mp h).2⟩
  · exact ⟨Or.inr (Or.inl (Finset.mem_of_mem_erase h)), Finset.ne_of_mem_erase h⟩
  · exact ⟨Or.inr (Or.inr (Or.inl (Finset.mem_of_mem_erase h))), Finset.ne_of_mem_erase h⟩
  · exact ⟨Or.inr (Or.inr (Or.inr (Finset.mem_of_mem_erase h))), Finset.ne_of_mem_erase h⟩

theorem Knows.of_drop (h : (n.drop i).Knows j) : n.Knows j := by
  rw [Notify.drop] at h
  split at h
  · exact h.of_notifyOne.of_forget.1
  · exact h.of_forget.1

/-- Who waits after a future is dropped waited before. -/
theorem waiting_drop (h : j ∈ (n.drop i).waiting) : j ∈ n.waiting ∧ j ≠ i := by
  rw [drop] at h
  split at h
  · exact waiting_forget.mp (mem_waiting_notifyOne h)
  · exact waiting_forget.mp h

theorem Knows.drop (h : n.Knows j) (hne : j ≠ i) : (n.drop i).Knows j := by
  rw [Notify.drop]
  split
  · exact (h.forget hne).notifyOne
  · exact h.forget hne

omit [DecidableEq ι] in
/-- Where no wake is on its way, whoever is known waits. -/
theorem Idle.waiting (h : n.Idle) (hk : n.Knows i) : i ∈ n.waiting := by
  obtain ⟨-, hone, hall, hdone⟩ := h
  rcases hk with hk | hk | hk | hk
  · exact hk
  · rw [hone] at hk
    cases hk
  · rw [hall] at hk
    cases hk
  · rw [hdone] at hk
    cases hk

/-- What the operations keep: nobody who waits was woken, and there is no permit while
someone waits. -/
structure Wf (n : Notify ι) : Prop where
  nodup : n.waiting.Nodup
  apart : ∀ i ∈ n.waiting, ¬n.Ready i
  permit : n.permit = true → n.waiting = []

omit [DecidableEq ι] in
theorem wf_init : (init : Notify ι).Wf := ⟨List.nodup_nil, fun _ h => (by cases h), fun _ => rfl⟩

/-- A poll that completes a future uses up at most one wake. -/
theorem card_forget : n.one.card ≤ (n.forget i).one.card + 1 := by
  have := Finset.pred_card_le_card_erase (a := i) (s := n.one)
  simp only [forget]
  omega

namespace Wf

theorem enable (h : n.Wf) (hfresh : ¬n.Knows i) : (n.enable i).Wf := by
  have hne : ∀ j ∈ n.waiting, j ≠ i := fun j hj heq => hfresh (Or.inl (heq ▸ hj))
  rw [Notify.enable]
  split
  · next hpermit =>
    refine ⟨h.nodup, fun j hj => ?_, fun _ => h.permit hpermit⟩
    rintro (hr | hr | hr)
    · exact h.apart j hj (Or.inl hr)
    · exact h.apart j hj (Or.inr (Or.inl hr))
    · rcases Finset.mem_insert.mp hr with rfl | hr
      · exact hne j hj rfl
      · exact h.apart j hj (Or.inr (Or.inr hr))
  · next hpermit =>
    refine ⟨?_, fun j hj => ?_, fun hp => absurd hp hpermit⟩
    · rw [List.nodup_append]
      refine ⟨h.nodup, List.nodup_singleton i, fun a ha b hb => ?_⟩
      exact List.mem_singleton.mp hb ▸ hne a ha
    · rcases List.mem_append.mp hj with hj | hj
      · exact h.apart j hj
      · obtain rfl := List.mem_singleton.mp hj
        exact fun hr => hfresh (Or.inr hr)

theorem notifyOne (h : n.Wf) : n.notifyOne.Wf := by
  rw [Notify.notifyOne]
  split
  · next heq => exact ⟨h.nodup, h.apart, fun _ => heq⟩
  · next i rest heq =>
    have hnodup := h.nodup
    rw [heq, List.nodup_cons] at hnodup
    refine ⟨hnodup.2, fun j hj => ?_, fun hp => ?_⟩
    · have hold := h.apart j (heq ▸ List.mem_cons_of_mem _ hj)
      rintro (hr | hr)
      · rcases Finset.mem_insert.mp hr with rfl | hr
        · exact hnodup.1 hj
        · exact hold (Or.inl hr)
      · exact hold (Or.inr hr)
    · have := h.permit hp
      rw [heq] at this
      cases this

theorem notifyWaiters : n.notifyWaiters.Wf :=
  ⟨List.nodup_nil, fun _ hj => (by cases hj), fun _ => rfl⟩

theorem forget (h : n.Wf) : (n.forget i).Wf := by
  refine ⟨h.nodup.filter _, fun j hj hr => h.apart j (waiting_forget.mp hj).1 ?_, fun hp => ?_⟩
  · exact hr.imp Finset.mem_of_mem_erase
      (Or.imp Finset.mem_of_mem_erase Finset.mem_of_mem_erase)
  · simp only [Notify.forget, h.permit hp, List.filter_nil]

theorem drop (h : n.Wf) : (n.drop i).Wf := by
  rw [Notify.drop]
  split
  · exact h.forget.notifyOne
  · exact h.forget

/-- As long as someone waits, a notification is a wake on its way. -/
theorem card_notifyOne (h : n.Wf) (hsome : n.waiting ≠ []) :
    n.notifyOne.one.card = n.one.card + 1 := by
  rw [Notify.notifyOne]
  split
  · next heq => exact absurd heq hsome
  · next i rest heq =>
    refine Finset.card_insert_of_notMem fun hone => ?_
    exact h.apart i (heq ▸ List.mem_cons_self) (Or.inl hone)

/-- As long as someone else waits, dropping a future uses up none. -/
theorem card_drop (h : n.Wf) (hj : j ∈ n.waiting) (hne : j ≠ i) :
    n.one.card ≤ (n.drop i).one.card := by
  have hleft : (n.forget i).waiting ≠ [] := List.ne_nil_of_mem (waiting_forget.mpr ⟨hj, hne⟩)
  rw [Notify.drop]
  split
  · rw [h.forget.card_notifyOne hleft]
    exact card_forget
  · next hone =>
    simp only [Notify.forget, Finset.erase_eq_of_notMem hone]
    exact le_refl _

/-- A single future that waits is woken. -/
theorem notifyOne_single (h : n.Wf) (honly : ∀ i ∈ n.waiting, ∀ j ∈ n.waiting, i = j) :
    n.notifyOne.waiting = [] := by
  rw [waiting_notifyOne]
  refine List.eq_nil_iff_forall_not_mem.mpr fun j hj => ?_
  have hnodup := h.nodup
  cases hw : n.waiting with
  | nil =>
    rw [hw] at hj
    cases hj
  | cons a rest =>
    rw [hw] at hj hnodup honly
    obtain rfl := honly a List.mem_cons_self j (List.mem_cons_of_mem _ hj)
    exact (List.nodup_cons.mp hnodup).1 hj

end Wf

/-! ## Tokens -/

variable (n) in
/-- The permit and the wakes on their way to a future. -/
def tokens : ℕ := n.permit.toNat + n.one.card + n.all.card + n.done.card

/-- Who registers may take the permit for a wake. -/
theorem tokens_enable : (n.enable i).tokens ≤ n.tokens := by
  rw [enable]
  split
  · next hpermit =>
    have hdone := Finset.card_insert_le i n.done
    simp only [tokens, hpermit, Bool.toNat_true, Bool.toNat_false]
    omega
  · exact le_refl _

theorem tokens_notifyOne : n.notifyOne.tokens ≤ n.tokens + 1 := by
  rw [notifyOne]
  split
  · simp only [tokens, Bool.toNat_true]
    omega
  · next i rest heq =>
    have hone := Finset.card_insert_le i n.one
    simp only [tokens]
    omega

theorem tokens_forget : (n.forget i).tokens ≤ n.tokens := by
  have hone := Finset.card_le_card (Finset.erase_subset i n.one)
  have hall := Finset.card_le_card (Finset.erase_subset i n.all)
  have hdone := Finset.card_le_card (Finset.erase_subset i n.done)
  simp only [tokens, forget]
  omega

/-- A future that was woken uses up its wake. -/
theorem Ready.tokens_forget_lt (h : n.Ready i) : (n.forget i).tokens < n.tokens := by
  have hone := Finset.card_le_card (Finset.erase_subset i n.one)
  have hall := Finset.card_le_card (Finset.erase_subset i n.all)
  have hdone := Finset.card_le_card (Finset.erase_subset i n.done)
  simp only [tokens, forget]
  rcases h with h | h | h
  · have := Finset.card_erase_lt_of_mem h
    omega
  · have := Finset.card_erase_lt_of_mem h
    omega
  · have := Finset.card_erase_lt_of_mem h
    omega

/-- A wake that is handed on is the one that was sent. -/
theorem tokens_drop : (n.drop i).tokens ≤ n.tokens := by
  rw [drop]
  split
  · next hone =>
    have hlt := Ready.tokens_forget_lt (Or.inl hone : n.Ready i)
    exact tokens_notifyOne.trans hlt
  · exact tokens_forget

end Notify
