import PersistentQueue.Store

/-!
# What a loop of seeks visits

The recovery loop of open and the loop of `reserve` seek from a cursor, look at the entry they
find, and may go on from the key of `seq + 1`. `visits` is the list of the entries such a loop
looks at; what the two loops return is said in terms of it (`recover_visits`,
`Handle.scan_visited`).

Over a well-keyed store the visits are the entries from the cursor on, through the first one
that is not passed (`visits_eq`), as long as the addition does not wrap. A loop that goes on past
the entry of the last `u64` starts over from the first entry (`visits_start_over`).
-/

namespace PersistentQueue

/-- The entries a loop of seeks visits that goes on past the seqs that `passes` says. -/
def visits (st : Store) (passes : ℕ → Bool) : ℕ → Key → List (ℕ × Bytes)
  | 0, _ => []
  | fuel + 1, cursor =>
    match st.seek cursor with
    | some (key, value) =>
      if isEntry key then
        (seqOf key, value) ::
          if passes (seqOf key) then visits st passes fuel (entryKey (u64Succ (seqOf key))) else []
      else
        []
    | none => []

/-- Recovery visits every entry it finds. -/
def everyEntry : ℕ → Bool := fun _ => true

section Loops

variable {st : Store} {passes : ℕ → Bool} {fuel : ℕ} {cursor key : Key} {value : Bytes}

/-- The loop ends on a key that is not an entry, or on nothing. -/
theorem visits_of_end
    (h : ∀ key value, st.seek cursor = some (key, value) → isEntry key = false) :
    visits st passes fuel cursor = [] := by
  cases fuel with
  | zero => rfl
  | succ fuel =>
    rw [visits]
    split
    · next key value hseek =>
      rw [h key value hseek]
      rfl
    · rfl

theorem visits_of_entry (h : st.seek cursor = some (key, value)) (hkey : isEntry key = true) :
    visits st passes (fuel + 1) cursor =
      (seqOf key, value) :: if passes (seqOf key) then
        visits st passes fuel (entryKey (u64Succ (seqOf key))) else [] := by
  rw [visits, h]
  exact if_pos hkey

/-- Whether a later seek fails, once the first one did not. -/
theorem fails_later {fails : Option ℕ} {m : ℕ} (h : fails ≠ some 0) :
    (∃ n ∈ fails, n < fuel + 1 ∧ n ≤ m + 1) ↔ ∃ n ∈ fails.map Nat.pred, n < fuel ∧ n ≤ m := by
  rcases fails with _ | _ | n
  · simp
  · exact absurd rfl h
  · simp

theorem not_fails {fails : Option ℕ} (h : fails ≠ some 0) :
    ¬∃ n ∈ fails, n < fuel ∧ n ≤ 0 := by
  rintro ⟨n, hn, -, hle⟩
  obtain rfl : n = 0 := Nat.le_zero.mp hle
  exact h hn

end Loops

section WellKeyed

variable {st : Store} {passes : ℕ → Bool} {c fuel : ℕ} {cursor : Key}

theorem visits_of_none (hbound : ∀ t, t < u64Size → (cursor ≤ entryKey t ↔ c ≤ t))
    (h : (items st.live).seek c = none) : visits st passes fuel cursor = [] := by
  cases fuel with
  | zero => rfl
  | succ fuel =>
    rw [visits]
    split
    · next key value hseek =>
      rw [seek_eq_none hbound h hseek]
      rfl
    · rfl

theorem visits_of_some (hkeyed : WellKeyed st.live) (hlow : entryLow ≤ cursor)
    (hbound : ∀ t, t < u64Size → (cursor ≤ entryKey t ↔ c ≤ t)) {s : ℕ} {v : Bytes}
    (h : (items st.live).seek c = some (s, v)) :
    visits st passes (fuel + 1) cursor =
      (s, v) :: if passes s then visits st passes fuel (entryKey (u64Succ s)) else [] := by
  have hs := items_lt (SortedMap.seek_eq_some.mp h).1
  have hseek : st.seek cursor = some (entryKey s, v) := hkeyed.seek_eq_some hlow hbound h
  rw [visits, hseek]
  simp only [isEntry_entryKey, if_true, seqOf_entryKey hs]

/-- There is an entry of the last `u64`, and the loop passes every entry from `c` on. -/
def StartsOver (m : SortedMap ℕ Bytes) (passes : ℕ → Bool) (c : ℕ) : Prop :=
  (∃ v, m.get? u64Max = some v) ∧ ∀ t v, m.get? t = some v → c ≤ t → passes t = true

/-- A loop that does not start over visits the entries from the cursor on, through the first
one that it does not pass. -/
theorem visits_eq (hkeyed : WellKeyed st.live) : ∀ {fuel c : ℕ} {cursor : Key},
    entryLow ≤ cursor → (∀ t, t < u64Size → (cursor ≤ entryKey t ↔ c ≤ t)) →
    ¬StartsOver (items st.live) passes c →
    visits st passes fuel cursor =
      (((items st.live).above c).through fun e => passes e.1).take fuel := by
  intro fuel
  induction fuel with
  | zero => intro c cursor _ _ _; rfl
  | succ fuel ih =>
    intro c cursor hlow hbound hstart
    rcases hseek : (items st.live).seek c with _ | ⟨s, v⟩
    · rw [visits_of_none hbound hseek, SortedMap.above_eq_nil hseek]
      rfl
    · obtain ⟨hget, hcs, hleast⟩ := SortedMap.seek_eq_some.mp hseek
      rw [visits_of_some hkeyed hlow hbound hseek, SortedMap.above_eq_cons hseek, List.through,
        List.take_succ_cons]
      by_cases hpass : passes s = true
      · -- the entry it goes on from is not that of the last `u64`
        have hs : s < u64Max := by
          refine lt_of_le_of_ne (Nat.le_sub_one_of_lt (items_lt hget)) ?_
          rintro rfl
          refine hstart ⟨⟨v, hget⟩, fun t w ht hct => ?_⟩
          have hle : t ≤ u64Max := Nat.le_sub_one_of_lt (items_lt ht)
          rwa [le_antisymm hle (hleast t w ht hct)]
        have hsucc : s + 1 < u64Size := Nat.add_lt_of_lt_sub hs
        have hnext : ¬StartsOver (items st.live) passes (s + 1) := by
          rintro ⟨hmax, hall⟩
          refine hstart ⟨hmax, fun t w ht hct => ?_⟩
          rcases eq_or_lt_of_le (hleast t w ht hct) with rfl | hlt
          · exact hpass
          · exact hall t w ht hlt
        rw [if_pos hpass, if_pos hpass, u64Succ_of_lt hs,
          ih (entryLow_le_entryKey _) (entryKey_bound hsucc) hnext]
      · rw [if_neg hpass, if_neg hpass, List.take_nil]

/-- Such a loop visits entries in increasing order, and no more than there are. -/
theorem visits_ascend (hkeyed : WellKeyed st.live) (hlow : entryLow ≤ cursor)
    (hbound : ∀ t, t < u64Size → (cursor ≤ entryKey t ↔ c ≤ t))
    (hstart : ¬StartsOver (items st.live) passes c) :
    ((visits st passes fuel cursor).map Prod.fst).Pairwise (· < ·) ∧
    (visits st passes fuel cursor).length ≤ ((items st.live).above c).length := by
  have hinit : visits st passes fuel cursor <+: (items st.live).above c := by
    rw [visits_eq hkeyed hlow hbound hstart]
    exact List.IsPrefix.trans ( List.take_prefix _ _) (List.through_initial _ _)
  exact ⟨((items st.live).above_sorted c).sublist (hinit.sublist.map _), hinit.length_le⟩

/-- A loop that starts over visits an entry after that of the last `u64`. -/
theorem visits_start_over (hkeyed : WellKeyed st.live) : ∀ {fuel c : ℕ} {cursor : Key},
    entryLow ≤ cursor → (∀ t, t < u64Size → (cursor ≤ entryKey t ↔ c ≤ t)) → c < u64Size →
    StartsOver (items st.live) passes c → ((items st.live).above c).length < fuel →
    ¬((visits st passes fuel cursor).map Prod.fst).Pairwise (· < ·) := by
  intro fuel
  induction fuel with
  | zero => intro c cursor _ _ _ _ hfuel; exact absurd hfuel (Nat.not_lt_zero _)
  | succ fuel ih =>
    intro c cursor hlow hbound hc hstart hfuel hsorted
    obtain ⟨⟨v, hmax⟩, hall⟩ := hstart
    rcases hseek : (items st.live).seek c with _ | ⟨s, w⟩
    · exact absurd (SortedMap.seek_eq_none.mp hseek _ v hmax) (Nat.le_sub_one_of_lt hc).not_gt
    · obtain ⟨hget, hcs, hleast⟩ := SortedMap.seek_eq_some.mp hseek
      rw [SortedMap.above_eq_cons hseek, List.length_cons] at hfuel
      rw [visits_of_some hkeyed hlow hbound hseek, if_pos (hall s w hget hcs),
        List.map_cons, List.pairwise_cons] at hsorted
      have hle : s ≤ u64Max := Nat.le_sub_one_of_lt (items_lt hget)
      rcases eq_or_lt_of_le hle with rfl | hlt
      · -- past the last `u64` the next seek is from the first one
        obtain ⟨fuel, rfl⟩ := Nat.exists_eq_succ_of_ne_zero (by omega : fuel ≠ 0)
        rcases hfirst : (items st.live).seek 0 with _ | ⟨t, x⟩
        · exact absurd (SortedMap.seek_eq_none.mp hfirst _ v hmax) (Nat.not_lt_zero _)
        · rw [show u64Succ u64Max = 0 from rfl, visits_of_some hkeyed (entryLow_le_entryKey 0)
            (entryKey_bound (Nat.two_pow_pos 64)) hfirst] at hsorted
          have hlt : u64Max < t := hsorted.1 t (List.mem_map_of_mem List.mem_cons_self)
          have hsize := items_lt (SortedMap.seek_eq_some.mp hfirst).1
          exact absurd (Nat.le_sub_one_of_lt hsize) hlt.not_ge
      · rw [u64Succ_of_lt hlt] at hsorted
        have hsucc : s + 1 < u64Size := Nat.add_lt_of_lt_sub hlt
        exact ih (entryLow_le_entryKey _) (entryKey_bound hsucc) hsucc
          ⟨⟨v, hmax⟩, fun t y ht hst => hall t y ht (hcs.trans (Nat.le_of_succ_le hst))⟩
          (Nat.lt_of_succ_lt_succ hfuel) hsorted.2

/-- A store with an entry of the last `u64` has one at or above every cursor. -/
theorem visits_length_of_last (hkeyed : WellKeyed st.live) {v : Bytes}
    (hlast : (items st.live).get? u64Max = some v) : ∀ {fuel c : ℕ} {cursor : Key},
    entryLow ≤ cursor → (∀ t, t < u64Size → (cursor ≤ entryKey t ↔ c ≤ t)) → c < u64Size →
    (visits st everyEntry fuel cursor).length = fuel := by
  intro fuel
  induction fuel with
  | zero => intro c cursor _ _ _; rfl
  | succ fuel ih =>
    intro c cursor hlow hbound hc
    rcases hseek : (items st.live).seek c with _ | ⟨s, w⟩
    · exact absurd (SortedMap.seek_eq_none.mp hseek _ v hlast) (Nat.le_sub_one_of_lt hc).not_gt
    · have hsucc := u64Succ_lt s
      rw [visits_of_some hkeyed hlow hbound hseek, everyEntry, if_pos rfl, List.length_cons,
        ih (entryLow_le_entryKey _) (entryKey_bound hsucc) hsucc]

end WellKeyed

/-- Without an entry of the last `u64` no loop starts over. -/
theorem not_startsOver {m : SortedMap ℕ Bytes} {passes : ℕ → Bool} {c : ℕ}
    (hbound : ∀ s v, m.get? s = some v → s < u64Max) : ¬StartsOver m passes c :=
  fun ⟨⟨v, hv⟩, _⟩ => lt_irrefl _ (hbound _ v hv)

end PersistentQueue
