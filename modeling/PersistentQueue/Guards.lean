import PersistentQueue.Session

/-!
# Guards and the reserved set

A scan looks a seq up in the reserved set and puts it there in one section, and a guard
takes its seq out of the set when it goes. So the reserved set is the set of the guards'
seqs, and no two guards have the same item, in every run whatsoever: nothing is asked of
commits, and nothing of the order of calls.
-/

namespace PersistentQueue

namespace Ledger

variable {l l' : Ledger} {m : Move} {t : ℕ}

/-- The reserved set is the set of the guards' seqs, and no two guards have the same. -/
structure Paired (l : Ledger) : Prop where
  distinct : ∀ g g' gd gd', l.guards.get? g = some gd → l.guards.get? g' = some gd' →
    gd.seq = gd'.seq → g = g'
  reserved : ∀ t, t ∈ l.inner.reserved ↔ ∃ g gd, l.guards.get? g = some gd ∧ gd.seq = t

theorem paired_opened {b : Builder} (h : FreshLedger b l) : l.Paired := by
  rw [h.opened]
  refine ⟨fun _ _ _ _ hg => (by cases hg), fun t => ?_⟩
  simp [opened, h.recovered.reserved_eq]

/-- Taking a guard's seq out of the reserved set is taking the guard away. -/
theorem Paired.erase (h : l.Paired) {g : ℕ} {gd : Guard} (hg : l.guards.get? g = some gd)
    (t : ℕ) : t ∈ l.inner.reserved.erase gd.seq ↔
      ∃ g' gd', (l.guards.erase g).get? g' = some gd' ∧ gd'.seq = t := by
  rw [Finset.mem_erase, h.reserved]
  constructor
  · rintro ⟨hne, g', gd', hg', rfl⟩
    refine ⟨g', gd', (SortedMap.get?_erase_ne _ ?_).trans hg', rfl⟩
    rintro rfl
    obtain rfl := Option.some.inj (hg.symm.trans hg')
    exact hne rfl
  · rintro ⟨g', gd', hg', rfl⟩
    obtain ⟨hne, hg'⟩ := SortedMap.of_get?_erase hg'
    exact ⟨fun heq => hne (h.distinct g' g gd' gd hg' hg heq), g', gd', hg', rfl⟩

/-- Only a scan that finds the seq out of the reserved set makes a guard of it. -/
theorem Paired.distinct_moved (h : l.Paired) (hm : Moved l m l') {g₁ g₂ : ℕ} {gd₁ gd₂ : Guard}
    (hg₁ : l'.guards.get? g₁ = some gd₁) (hg₂ : l'.guards.get? g₂ = some gd₂)
    (heq : gd₁.seq = gd₂.seq) : g₁ = g₂ := by
  have hmem : ∀ {g gd}, l.guards.get? g = some gd → gd.seq ∈ l.inner.reserved :=
    fun hg => (h.reserved _).mpr ⟨_, _, hg, rfl⟩
  rcases of_guards hm hg₁ with ⟨gd₁', hold₁, hseq₁, -⟩ | ⟨r₁, -, hturn₁, -, hfree₁, -⟩ <;>
    rcases of_guards hm hg₂ with ⟨gd₂', hold₂, hseq₂, -⟩ | ⟨r₂, -, hturn₂, -, hfree₂, -⟩
  · exact h.distinct g₁ g₂ gd₁' gd₂' hold₁ hold₂ (hseq₁.symm.trans (heq.trans hseq₂))
  · rw [← heq, hseq₁] at hfree₂
    exact absurd (hmem hold₁) hfree₂
  · rw [heq, hseq₂] at hfree₁
    exact absurd (hmem hold₂) hfree₁
  · exact (Turn.check.inj (Move.turn.inj (hturn₁.symm.trans hturn₂))).2

/-- A scan's check and its hand-out are one section, so this holds in every run. -/
theorem Paired.moved (h : l.Paired) (hm : Moved l m l') : l'.Paired := by
  refine ⟨fun _ _ _ _ hg₁ hg₂ heq => h.distinct_moved hm hg₁ hg₂ heq, fun t => ?_⟩
  have hback : ∀ {g gd'}, (∀ r, m ≠ .turn (.check r g)) → l'.guards.get? g = some gd' →
      ∃ gd, l.guards.get? g = some gd ∧ gd.seq = gd'.seq := by
    intro g gd' hcheck hg
    rcases of_guards hm hg with ⟨gd, hold, hseq, -⟩ | ⟨r, -, hturn, -⟩
    · exact ⟨gd, hold, hseq.symm⟩
    · exact absurd hturn (hcheck r)
  cases hm with
  | call | turnedAway | waits | claim | giveBack | close | reserve | ended | found | skipped | put
  | returned | gaveUp => exact h.reserved t
  | @handedOut r g seq value behind hr hmem hnone =>
    simp only [Inner.reserve_reserved, Finset.mem_insert, h.reserved]
    constructor
    · rintro (rfl | ⟨g', gd, hg, heq⟩)
      · exact ⟨g, _, SortedMap.get?_insert_self _ _ _, rfl⟩
      · refine ⟨g', gd, (SortedMap.get?_insert_ne _ _ ?_).trans hg, heq⟩
        rintro rfl
        rw [hnone] at hg
        cases hg
    · rintro ⟨g', gd, hg, rfl⟩
      rcases SortedMap.of_get?_insert hg with ⟨-, rfl⟩ | ⟨-, hg⟩
      · exact Or.inl rfl
      · exact Or.inr ⟨g', gd, hg, rfl⟩
  | @remove g gd hg hpc o =>
    refine (h.reserved t).trans ⟨?_, ?_⟩
    · rintro ⟨g', gd₀, hg', rfl⟩
      by_cases hne : g' = g
      · subst hne
        obtain rfl := Option.some.inj (hg.symm.trans hg')
        exact ⟨g', _, SortedMap.get?_insert_self _ _ _, rfl⟩
      · exact ⟨g', gd₀, (SortedMap.get?_insert_ne _ _ hne).trans hg', rfl⟩
    · rintro ⟨g', gd', hg', rfl⟩
      obtain ⟨gd₀, hg₀, hseq⟩ := hback (by simp) hg'
      exact ⟨g', gd₀, hg₀, hseq⟩
  | record hg hpc =>
    simp only [Inner.recordAck_reserved]
    exact h.erase hg t
  | release hg hpc => exact h.erase hg t

end Ledger

end PersistentQueue
