import Mathlib.Order.Bounds.Basic
import PersistentQueue.Lib.History
import PersistentQueue.Lib.Sweep

/-!
# A low-water mark

Positions are acknowledged one by one, in any order. A mark stands at a first position; an
acknowledgement of the position it stands at moves it on over everything acknowledged in a
row, and every other one is put into a set to be taken in later (`Watermark.advance`,
`Watermark.remember`).

Such a mark is the first position whose acknowledgement is missing (`Watermark`), and knows
nothing else. When it is meant to be the first of a set of positions that are still in use,
then a position that is neither in use nor ever acknowledged holds it back for good:
`Watermark.tracks_iff` says when it is right.
-/

variable {start low tail t : ℕ} {acks : List ℕ} {above : Finset ℕ} {S : Set ℕ}

/-- The position was acknowledged again when everything up to it had been already. -/
def AckedAgain (start : ℕ) (acks : List ℕ) (t : ℕ) : Prop :=
  start ≤ t ∧ ∀ u, start ≤ u → u ≤ t → Earlier u t acks

/-- The mark is the first position from `start` on that was not acknowledged (newest
acknowledgement first), and the set is what was acknowledged above it. -/
structure Watermark (start : ℕ) (acks : List ℕ) (low : ℕ) (above : Finset ℕ) : Prop where
  start_le : start ≤ low
  acked : ∀ t, start ≤ t → t < low → t ∈ acks
  low_open : low ∉ acks
  /-- or acknowledged again below it -/
  above_iff : ∀ t, t ∈ above ↔ t ∈ acks ∧ low < t ∨ AckedAgain start acks t

/-- The mark is the first position in use, or at the end when there is none, and everything
in the set is above one in use. -/
structure Tracks (S : Set ℕ) (tail low : ℕ) (above : Finset ℕ) : Prop where
  least : IsLeast S low ∨ S = ∅ ∧ low = tail
  above : ∀ t ∈ above, ∃ u ∈ S, u < t

theorem AckedAgain.mem (h : AckedAgain start acks t) : t ∈ acks :=
  (h.2 t h.1 (le_refl t)).mem_right

/-- An acknowledgement repeats one when everything up to it was there. -/
theorem ackedAgain_cons {a : ℕ} : AckedAgain start (a :: acks) t ↔
    AckedAgain start acks t ∨ a = t ∧ start ≤ t ∧ ∀ u, start ≤ u → u ≤ t → u ∈ acks := by
  constructor
  · rintro ⟨hstart, hall⟩
    by_cases ha : a = t
    · refine Or.inr ⟨ha, hstart, fun u hu hut => ?_⟩
      rcases Earlier.iff_cons.mp (hall u hu hut) with ⟨-, hmem⟩ | hold
      · exact hmem
      · exact hold.mem_left
    · refine Or.inl ⟨hstart, fun u hu hut => ?_⟩
      rcases Earlier.iff_cons.mp (hall u hu hut) with ⟨heq, -⟩ | hold
      · exact absurd heq ha
      · exact hold
  · rintro (⟨hstart, hall⟩ | ⟨rfl, hstart, hall⟩)
    · exact ⟨hstart, fun u hu hut => (hall u hu hut).cons⟩
    · exact ⟨hstart, fun u hu hut => Earlier.of_mem (hall u hu hut)⟩

namespace Watermark

theorem init (start : ℕ) : Watermark start [] start ∅ where
  start_le := le_refl start
  acked := fun t ht hlt => absurd ht hlt.not_ge
  low_open := List.not_mem_nil
  above_iff := by
    intro t
    refine iff_of_false (Finset.notMem_empty t) ?_
    rintro (⟨hmem, -⟩ | hagain)
    · cases hmem
    · cases hagain.mem

/-- Everything up to a position was acknowledged when the mark is past it. -/
theorem lt_iff (h : Watermark start acks low above) :
    t < low ↔ ∀ u, start ≤ u → u ≤ t → u ∈ acks := by
  refine ⟨fun hlt u hu hut => h.acked u hu (hut.trans_lt hlt), fun hall => ?_⟩
  by_contra hle
  exact h.low_open (hall low h.start_le (not_lt.mp hle))

theorem again_lt (h : Watermark start acks low above) (ht : AckedAgain start acks t) : t < low :=
  h.lt_iff.mpr fun u hu hut => (ht.2 u hu hut).mem_left

/-- The mark is the least position that was not acknowledged. -/
theorem isLeast (h : Watermark start acks low above) : IsLeast {t | start ≤ t ∧ t ∉ acks} low := by
  refine ⟨⟨h.start_le, h.low_open⟩, fun t ht => ?_⟩
  by_contra hlt
  exact ht.2 (h.acked t ht.1 (not_le.mp hlt))

/-- When nothing was acknowledged twice, the set is what was acknowledged above the mark. -/
theorem mem_above (h : Watermark start acks low above) (hnodup : acks.Nodup) :
    t ∈ above ↔ t ∈ acks ∧ low < t := by
  rw [h.above_iff]
  refine or_iff_left fun hagain => ?_
  exact (hagain.2 t hagain.1 (le_refl t)).not_nodup hnodup

/-- The order of the acknowledgements does not matter. -/
theorem perm {acks' : List ℕ} {low' : ℕ} {above' : Finset ℕ}
    (h : Watermark start acks low above) (h' : Watermark start acks' low' above')
    (hperm : acks.Perm acks') (hnodup : acks.Nodup) : low = low' ∧ above = above' := by
  have hleast := h.isLeast
  simp only [hperm.mem_iff] at hleast
  obtain rfl : low = low' := hleast.unique h'.isLeast
  refine ⟨rfl, Finset.ext fun t => ?_⟩
  rw [h.mem_above hnodup, h'.mem_above (hperm.nodup_iff.mp hnodup), hperm.mem_iff]

/-- An acknowledgement elsewhere than at the mark. -/
theorem remember (h : Watermark start acks low above) {a : ℕ} (ha : start ≤ a) (hne : a ≠ low) :
    Watermark start (a :: acks) low (insert a above) where
  start_le := h.start_le
  acked := fun t ht hlt => List.mem_cons_of_mem _ (h.acked t ht hlt)
  low_open := fun hmem => (List.mem_cons.mp hmem).elim (fun heq => hne heq.symm) h.low_open
  above_iff := by
    intro t
    rw [Finset.mem_insert, h.above_iff, ackedAgain_cons, List.mem_cons]
    constructor
    · rintro (rfl | ⟨hmem, hlt⟩ | hagain)
      · -- above the mark it is new, and below the mark it is a repetition
        rcases lt_or_gt_of_ne hne with hlt | hgt
        · exact Or.inr (Or.inr ⟨rfl, ha, h.lt_iff.mp hlt⟩)
        · exact Or.inl ⟨Or.inl rfl, hgt⟩
      · exact Or.inl ⟨Or.inr hmem, hlt⟩
      · exact Or.inr (Or.inl hagain)
    · rintro (⟨rfl | hmem, hlt⟩ | hagain | ⟨rfl, -⟩)
      · exact Or.inl rfl
      · exact Or.inr (Or.inl ⟨hmem, hlt⟩)
      · exact Or.inr (Or.inr hagain)
      · exact Or.inl rfl

/-- An acknowledgement at the mark. -/
theorem advance (h : Watermark start acks low above) {next : ℕ → ℕ}
    (hnext : ∀ x ∈ above, next x = x + 1) :
    Watermark start (low :: acks) (sweep next above.card above (low + 1)).1
      (sweep next above.card above (low + 1)).2 := by
  obtain ⟨hle, hcrossed, hleft⟩ := sweep_interval (n := above.card) (a := low + 1) hnext
  have hstop : (sweep next above.card above (low + 1)).1 ∉
      (sweep next above.card above (low + 1)).2 := sweep_fst_not_mem (le_refl above.card)
  generalize sweep next above.card above (low + 1) = swept at *
  obtain ⟨low', above'⟩ := swept
  simp only at hle hcrossed hleft hstop ⊢
  have hopen : low' ∉ acks := by
    intro hmem
    refine hstop ((hleft low').mpr ⟨(h.above_iff low').mpr (Or.inl ⟨hmem, hle⟩), ?_⟩)
    exact fun hand => lt_irrefl _ hand.2
  refine ⟨h.start_le.trans (by omega), fun t ht hlt => ?_, fun hmem => ?_, fun t => ?_⟩
  · -- the mark crossed `low` and what was remembered in a row above it
    rcases lt_trichotomy t low with hbelow | rfl | habove
    · exact List.mem_cons_of_mem _ (h.acked t ht hbelow)
    · exact List.mem_cons_self
    · refine List.mem_cons_of_mem _ ?_
      rcases (h.above_iff t).mp (hcrossed t habove hlt) with ⟨hmem, -⟩ | hagain
      · exact hmem
      · exact hagain.mem
  · rcases List.mem_cons.mp hmem with heq | hmem
    · omega
    · exact hopen hmem
  · rw [hleft, h.above_iff, ackedAgain_cons, List.mem_cons]
    constructor
    · rintro ⟨⟨hmem, hlt⟩ | hagain, hout⟩
      · have hge : low' ≤ t := not_lt.mp fun hlt' => hout ⟨hlt, hlt'⟩
        exact Or.inl ⟨Or.inr hmem, lt_of_le_of_ne hge fun heq => hopen (heq ▸ hmem)⟩
      · exact Or.inr (Or.inl hagain)
    · rintro (⟨rfl | hmem, hlt⟩ | hagain | ⟨rfl, -, hall⟩)
      · omega
      · exact ⟨Or.inl ⟨hmem, by omega⟩, fun hand => by omega⟩
      · have hlt := h.again_lt hagain
        exact ⟨Or.inr hagain, fun hand => by omega⟩
      · exact absurd (hall _ h.start_le (le_refl _)) h.low_open

/-- **When the mark is the first position in use**: the positions up to the end that are
neither in use nor acknowledged are above one in use, and so are those that are both, and
nothing was acknowledged again below the mark. -/
theorem tracks_iff (h : Watermark start acks low above) (hS : ∀ t ∈ S, start ≤ t ∧ t < tail)
    (hacks : ∀ t ∈ acks, t < tail) (htail : start ≤ tail) :
    Tracks S tail low above ↔
      (∀ t, start ≤ t → t < tail → t ∉ S → t ∉ acks → ∃ u ∈ S, u < t) ∧
      (∀ t ∈ S, t ∈ acks → ∃ u ∈ S, u < t) ∧ ∀ t, ¬AckedAgain start acks t := by
  have hlow : low ≤ tail := by
    by_contra hgt
    have hmem := h.acked tail htail (not_le.mp hgt)
    exact lt_irrefl _ (hacks tail hmem)
  constructor
  · rintro ⟨hleast, habove⟩
    refine ⟨fun t ht hlt hunused hmem => ?_, fun t hused hmem => ?_, fun t hagain => ?_⟩
    · have hle : low ≤ t := not_lt.mp fun hlt' => hmem (h.acked t ht hlt')
      rcases hleast with hleast | ⟨-, heq⟩
      · refine ⟨low, hleast.1, lt_of_le_of_ne hle ?_⟩
        rintro rfl
        exact hunused hleast.1
      · omega
    · rcases hleast with hleast | ⟨hnone, -⟩
      · refine ⟨low, hleast.1, lt_of_le_of_ne (hleast.2 hused) ?_⟩
        rintro rfl
        exact h.low_open hmem
      · rw [hnone] at hused
        cases hused
    · obtain ⟨u, hu, hut⟩ := habove t ((h.above_iff t).mpr (Or.inr hagain))
      have hlt := h.again_lt hagain
      rcases hleast with hleast | ⟨hnone, -⟩
      · have hge : low ≤ u := hleast.2 hu
        omega
      · rw [hnone] at hu
        cases hu
  · rintro ⟨hgaps, hback, honce⟩
    -- nothing in use is below the mark, since the first such is acknowledged
    have hlower : ∀ t ∈ S, low ≤ t := by
      intro t
      induction t using Nat.strong_induction_on with
      | _ t ih =>
        intro hused
        by_contra hlt
        obtain ⟨u, hu, hut⟩ := hback t hused (h.acked t (hS t hused).1 (not_le.mp hlt))
        exact hlt ((ih u hut hu).trans hut.le)
    have hleast : IsLeast S low ∨ S = ∅ ∧ low = tail := by
      by_cases hused : low ∈ S
      · exact Or.inl ⟨hused, hlower⟩
      · refine Or.inr ?_
        have hend : low = tail := by
          refine le_antisymm hlow (not_lt.mp fun hlt => ?_)
          obtain ⟨u, hu, hult⟩ := hgaps low h.start_le hlt hused h.low_open
          exact absurd (hlower u hu) hult.not_ge
        refine ⟨Set.eq_empty_iff_forall_notMem.mpr fun t ht => ?_, hend⟩
        have hge := hlower t ht
        have hlt := (hS t ht).2
        omega
    refine ⟨hleast, fun t ht => ?_⟩
    rcases (h.above_iff t).mp ht with ⟨hmem, hlt⟩ | hagain
    · rcases hleast with hleast | ⟨-, heq⟩
      · exact ⟨low, hleast.1, hlt⟩
      · have hlt' := hacks t hmem
        omega
    · exact absurd hagain (honce t)

end Watermark
