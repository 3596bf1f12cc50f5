import PersistentQueue.Sound

/-!
# Whether the loops of seeks come to an end

The loops of open and `reserve` go on from `seq + 1`, which for the last `u64` is zero. The key
space has an entry for it all the same. Once there is one the recovery loop never returns
(`recover_never_returns`), and the loop of `reserve`, when it gets past it, visits the entries
from the first one on again.
-/

namespace PersistentQueue

/-- The recovery loop visits entries in increasing order, and returns whatever seek fails. -/
def RecoveryAscends (b : Builder) (st : Store) : Prop :=
  (∀ fuel, ((visits st everyEntry fuel entryLow).map Prod.fst).Pairwise (· < ·)) ∧
  ∀ fails w, ∃ fuel r, b.recover st fuel fails entryLow w = some r

/-- The loop of `reserve` visits entries in increasing order, and returns whatever seek fails. -/
def Handle.ReserveAscends (q : Handle) : Prop :=
  (∀ fuel, ((q.visited fuel q.inner.head).map Prod.fst).Pairwise (· < ·)) ∧
  ∀ fails, ∃ fuel r, q.scan fuel fails q.inner.head = some r

/-- Once there is an entry of the last `u64` the recovery loop never returns. -/
theorem recover_never_returns {b : Builder} {st : Store} (hkeyed : WellKeyed st.live) {v : Bytes}
    (hlast : (items st.live).get? u64Max = some v) (fuel : ℕ) (w : Walk) :
    b.recover st fuel none entryLow w = none := by
  have hlen : (visits st everyEntry fuel entryLow).length = fuel :=
    visits_length_of_last hkeyed hlast (le_refl _) entryLow_bound (Nat.two_pow_pos 64)
  rw [recover_visits, hlen, if_neg (by simp), if_neg (lt_irrefl fuel)]

/-- Then open does not return either. -/
theorem open_never_returns {b : Builder} {st st' : Store}
    (hmeta : b.openMeta st none = (st', .ok ())) (hkeyed : WellKeyed st'.live) {v : Bytes}
    (hlast : (items st'.live).get? u64Max = some v)
    (fuel : ℕ) : b.open st none fuel = none := by
  simp only [Builder.open, hmeta, recover_never_returns hkeyed hlast]
  rfl

theorem items_last_iff {st : Store} :
    (∃ v, (items st.live).get? u64Max = some v) ↔ st.get (entryKey u64Max) ≠ none := by
  rw [get?_items (by decide), Option.ne_none_iff_exists']
  rfl

/-- The recovery loop goes up and ends exactly if there is no entry of the last `u64`. -/
theorem recoveryAscends_iff {b : Builder} {st : Store} (hkeyed : WellKeyed st.live) :
    RecoveryAscends b st ↔ st.get (entryKey u64Max) = none := by
  constructor
  · intro h
    by_contra hget
    obtain ⟨v, hlast⟩ := items_last_iff.mpr hget
    obtain ⟨fuel, r, hr⟩ := h.2 none { len := 0, bytes := 0, head := 0 }
    rw [recover_never_returns hkeyed hlast] at hr
    cases hr
  · intro hget
    have hstart : ¬StartsOver (items st.live) everyEntry 0 :=
      fun hover => items_last_iff.mp hover.1 hget
    refine ⟨fun fuel => (visits_ascend hkeyed (le_refl _) entryLow_bound hstart).1,
      fun fails w => ⟨((items st.live).above 0).length + 1, ?_⟩⟩
    have hlen : (visits st everyEntry (((items st.live).above 0).length + 1) entryLow).length <
        ((items st.live).above 0).length + 1 :=
      Nat.lt_succ_of_le (visits_ascend hkeyed (le_refl _) entryLow_bound hstart).2
    rw [recover_visits, if_pos hlen]
    split
    · exact ⟨_, rfl⟩
    · exact ⟨_, rfl⟩

/-- The loop of `reserve` goes up and ends exactly if it does not pass every entry from the
head on, with one of the last `u64` among them. -/
theorem Handle.reserveAscends_iff {q : Handle} (hkeyed : WellKeyed q.store.live)
    (hhead : q.inner.head < u64Size) :
    q.ReserveAscends ↔ ¬StartsOver q.items (· ∈ q.inner.reserved) q.inner.head := by
  constructor
  · intro h hstart
    exact visits_start_over hkeyed (entryLow_le_entryKey _) (entryKey_bound hhead) hhead hstart
      (Nat.lt_succ_self _) (h.1 _)
  · intro hstart
    have hlow := entryLow_le_entryKey q.inner.head
    have hbound := entryKey_bound hhead
    refine ⟨fun fuel => (visits_ascend hkeyed hlow hbound hstart).1,
      fun fails => ⟨(q.items.above q.inner.head).length + 1, ?_⟩⟩
    have hlen : (q.visited ((q.items.above q.inner.head).length + 1) q.inner.head).length <
        (q.items.above q.inner.head).length + 1 :=
      Nat.lt_succ_of_le (visits_ascend hkeyed hlow hbound hstart).2
    rw [Handle.scan_visited, if_pos hlen]
    split
    · exact ⟨_, rfl⟩
    · split
      · exact ⟨_, rfl⟩
      · exact ⟨_, rfl⟩

/-- **When the two loops go up and end.** Over any well-keyed store and any reserved set, the
recovery loop does exactly if there is no entry of the last `u64`, and the loop of `reserve`
exactly if there is none or some entry from the head on is not reserved. -/
theorem scans_ascend_iff {q : Handle} (b : Builder) (hkeyed : WellKeyed q.store.live)
    (hhead : q.inner.head < u64Size) :
    (RecoveryAscends b q.store ↔ q.store.get (entryKey u64Max) = none) ∧
    (q.ReserveAscends ↔ q.store.get (entryKey u64Max) = none ∨
      ∃ t v, q.items.get? t = some v ∧ q.inner.head ≤ t ∧ t ∉ q.inner.reserved) := by
  refine ⟨recoveryAscends_iff hkeyed, (Handle.reserveAscends_iff hkeyed hhead).trans ?_⟩
  have hlast : (∃ v, q.items.get? u64Max = some v) ↔ q.store.get (entryKey u64Max) ≠ none :=
    items_last_iff
  rw [StartsOver, hlast, not_and_or, not_ne_iff]
  refine or_congr_right ?_
  simp

/-- The entries of the last two `u64`s. -/
def lastTwo : Store :=
  Store.empty.commit [.put (entryKey (u64Max - 1)) [1], .put (entryKey u64Max) [2]] true .ok

/-- A queue over them whose head is at the first. -/
def lastTwoOpen (reserved : Finset ℕ) : Handle where
  cfg := .default64
  inner :=
    { tail := 0, head := u64Max - 1, ackedAbove := ∅, len := 2, bytes := 2, reserved
      closed := false }
  store := lastTwo
  guards := SortedMap.empty

/-- With the second of them reserved `reserve` finds the first, and with an entry of the last
`u64` recovery has no end. -/
theorem scans_ascend_one_held :
    (lastTwoOpen {u64Max}).ReserveAscends ∧ ¬RecoveryAscends .default64 lastTwo := by
  obtain ⟨hrecovery, hreserve⟩ :=
    scans_ascend_iff (q := lastTwoOpen {u64Max}) .default64 (by decide) (by decide)
  exact ⟨hreserve.mpr (Or.inr ⟨u64Max - 1, [1], by decide, le_refl _, by decide⟩),
    fun h => absurd (hrecovery.mp h) (by decide)⟩

/-- Open does not return over these two, and with both reserved the loop of `reserve` does not
go up. -/
theorem scans_start_over :
    WellKeyed lastTwo.live ∧ (∀ fuel, Builder.default64.open lastTwo none fuel = none) ∧
      ¬RecoveryAscends .default64 lastTwo ∧ ¬(lastTwoOpen {u64Max - 1, u64Max}).ReserveAscends := by
  have hkeyed : WellKeyed lastTwo.live := by decide
  refine ⟨hkeyed, fun fuel => ?_, fun h => ?_, fun h => ?_⟩
  · have hmeta : Builder.default64.openMeta lastTwo none =
        (lastTwo.commit [.put metaKey [formatVersion]] true .ok, .ok ()) := rfl
    have hlast : (items (lastTwo.commit [.put metaKey [formatVersion]] true .ok).live).get?
        u64Max = some [2] := by decide
    exact open_never_returns hmeta (by decide) hlast fuel
  · exact absurd ((recoveryAscends_iff hkeyed).mp h) (by decide)
  · refine (Handle.reserveAscends_iff hkeyed (by decide)).mp h
      ⟨⟨[2], by decide⟩, fun t v ht _ => ?_⟩
    have hmem : (t, v) ∈ (lastTwoOpen {u64Max - 1, u64Max}).items.entries :=
      SortedMap.get?_eq_some.mp ht
    have hall : ∀ e ∈ (lastTwoOpen {u64Max - 1, u64Max}).items.entries,
        decide (e.1 ∈ ({u64Max - 1, u64Max} : Finset ℕ)) = true := by decide
    exact hall _ hmem

end PersistentQueue
