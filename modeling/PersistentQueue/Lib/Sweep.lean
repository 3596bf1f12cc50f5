import Mathlib.Data.Finset.Basic
import Mathlib.Data.Finset.Card

/-!
# Sweeping a contiguous run out of a set

A cursor walks forward from a position, taking out of a finite set every position it
stands on, and stops at the first one that is not in the set. This is how a cumulative
acknowledgement (a low-water mark with a set of out-of-order acknowledgements above it)
catches up after a gap closes.

`sweep` runs the loop with a fuel argument; the size of the set is always enough
(`sweep_fst_not_mem`), since every iteration removes an element. `Sweeps` is the same loop
without fuel, with the number of its iterations (`sweeps_sweep`). On the naturals it
removes exactly an interval (`sweep_interval`).
-/

universe u

variable {α : Type u} [DecidableEq α]

/-- Walk from `a` along `next`, removing each position found in the set. -/
def sweep (next : α → α) : ℕ → Finset α → α → α × Finset α
  | 0, s, a => (a, s)
  | n + 1, s, a => if a ∈ s then sweep next n (s.erase a) (next a) else (a, s)

/-- With fuel for every element the walk ends because it left the set. -/
theorem sweep_fst_not_mem {next : α → α} :
    ∀ {n : ℕ} {s : Finset α} {a : α}, s.card ≤ n → (sweep next n s a).1 ∉ (sweep next n s a).2 := by
  intro n
  induction n with
  | zero =>
    intro s a hs
    rw [Finset.card_eq_zero.mp (Nat.le_zero.mp hs)]
    exact Finset.notMem_empty a
  | succ n ih =>
    intro s a hs
    rw [sweep]
    split
    · next ha =>
      refine ih ?_
      rw [Finset.card_erase_of_mem ha]
      omega
    · next ha => exact ha

/-- The walk ends after this many iterations, at this position and with this left. -/
inductive Sweeps (next : α → α) : ℕ → Finset α → α → α × Finset α → Prop
  /-- the position is not in the set -/
  | stop {s : Finset α} {a : α} : a ∉ s → Sweeps next 0 s a (a, s)
  /-- the position is taken out of the set -/
  | turn {n : ℕ} {s : Finset α} {a : α} {r : α × Finset α} :
      a ∈ s → Sweeps next n (s.erase a) (next a) r → Sweeps next (n + 1) s a r

/-- The walk ends, after at most as many iterations as there are elements. -/
theorem sweeps_sweep {next : α → α} :
    ∀ {n : ℕ} {s : Finset α} {a : α}, s.card ≤ n →
      ∃ k ≤ s.card, Sweeps next k s a (sweep next n s a) := by
  intro n
  induction n with
  | zero =>
    intro s a hs
    refine ⟨0, Nat.zero_le _, .stop ?_⟩
    rw [Finset.card_eq_zero.mp (Nat.le_zero.mp hs)]
    exact Finset.notMem_empty a
  | succ n ih =>
    intro s a hs
    rw [sweep]
    split
    · next ha =>
      have hcard := Finset.card_erase_add_one ha
      obtain ⟨k, hk, hsweeps⟩ := ih (s := s.erase a) (a := next a) (by omega)
      exact ⟨k + 1, by omega, .turn ha hsweeps⟩
    · next ha => exact ⟨0, Nat.zero_le _, .stop ha⟩

/-- What the walk leaves was there before. -/
theorem sweep_snd_subset {next : α → α} :
    ∀ {n : ℕ} {s : Finset α} {a : α}, (sweep next n s a).2 ⊆ s := by
  intro n
  induction n with
  | zero => intro s a; exact Finset.Subset.refl s
  | succ n ih =>
    intro s a
    rw [sweep]
    split
    · exact ih.trans (Finset.erase_subset a s)
    · exact Finset.Subset.refl s

/-- On the naturals, with `next` the successor wherever the set reaches, the walk takes
out exactly the interval it crosses. -/
theorem sweep_interval {next : ℕ → ℕ} :
    ∀ {n : ℕ} {s : Finset ℕ} {a : ℕ}, (∀ x ∈ s, next x = x + 1) →
      a ≤ (sweep next n s a).1 ∧
      (∀ x, a ≤ x → x < (sweep next n s a).1 → x ∈ s) ∧
      ∀ x, x ∈ (sweep next n s a).2 ↔ x ∈ s ∧ ¬(a ≤ x ∧ x < (sweep next n s a).1) := by
  intro n
  induction n with
  | zero =>
    intro s a _
    refine ⟨le_refl a, fun x hax hxa => absurd hxa hax.not_gt, fun x => ?_⟩
    exact ⟨fun hx => ⟨hx, fun h => absurd h.2 h.1.not_gt⟩, fun h => h.1⟩
  | succ n ih =>
    intro s a hnext
    rw [sweep]
    split
    · next ha =>
      have hnext' : ∀ x ∈ s.erase a, next x = x + 1 :=
        fun x hx => hnext x (Finset.mem_of_mem_erase hx)
      obtain ⟨hle, hmem, hrest⟩ := ih (a := next a) hnext'
      rw [hnext a ha] at hle hmem hrest ⊢
      refine ⟨by omega, fun x hax hx => ?_, fun x => ?_⟩
      · rcases eq_or_lt_of_le hax with rfl | hlt
        · exact ha
        · exact Finset.mem_of_mem_erase (hmem x hlt hx)
      · rw [hrest x, Finset.mem_erase]
        constructor
        · rintro ⟨⟨hne, hx⟩, hout⟩
          exact ⟨hx, fun h => hout ⟨by omega, h.2⟩⟩
        · rintro ⟨hx, hout⟩
          refine ⟨⟨?_, hx⟩, fun h => hout ⟨by omega, h.2⟩⟩
          rintro rfl
          exact hout ⟨le_refl _, by omega⟩
    · refine ⟨le_refl a, fun x hax hxa => absurd hxa hax.not_gt, fun x => ?_⟩
      exact ⟨fun hx => ⟨hx, fun h => absurd h.2 h.1.not_gt⟩, fun h => h.1⟩
