import PersistentQueue.Operations

/-!
# Whole operations over a sound state

What the loop of `reserve` finds, and what reserve, ack, nack and drop leave of a state
between two calls, as far as it takes no more than this (`Handle.Sound`): every entry is
between the head and the tail, no remembered ack is stored, and the reserved set is the set of
the guards' seqs. Nothing is asked of the counters, of what the guards show, or of commits.
-/

namespace PersistentQueue

namespace Handle

/-- What the calls of a consumer rest on. -/
structure Sound (q : Handle) : Prop where
  keyed : WellKeyed q.store.live
  tail_le : q.inner.tail ≤ u64Max
  head_le_tail : q.inner.head ≤ q.inner.tail
  stored_lt : ∀ t v, q.items.get? t = some v → t < q.inner.tail
  head_le : ∀ t v, q.items.get? t = some v → q.inner.head ≤ t
  above_lt : ∀ t ∈ q.inner.ackedAbove, t < q.inner.tail
  above_gone : ∀ t ∈ q.inner.ackedAbove, q.items.get? t = none
  guard_lt : ∀ g r, q.guards.get? g = some r → r.seq < q.inner.tail
  reserved : ∀ t, t ∈ q.inner.reserved ↔ ∃ g r, q.guards.get? g = some r ∧ r.seq = t
  distinct : ∀ g g' r r', q.guards.get? g = some r → q.guards.get? g' = some r' →
    r.seq = r'.seq → g = g'

variable {q q' : Handle} {g t : ℕ} {r : Reserved} {o : Outcome}

/-- The commit of a delete, whatever comes of it. -/
def deleting (q : Handle) (r : Reserved) (o : Outcome) : Handle :=
  { q with store := q.store.commit [.delete (entryKey r.seq)] q.cfg.ackDurable o }

theorem get?_items_deleting (hseq : r.seq < u64Size) (t : ℕ) :
    (q.deleting r o).items.get? t =
      if o.applies = true ∧ t = r.seq then none else q.items.get? t := by
  have hdelete := items_apply (m := q.store.live) hseq none
  simp only [items, deleting, Store.commit_one_live, Op.update]
  by_cases ho : o.applies = true
  · simp only [ho, if_true, true_and]
    exact (congrArg (SortedMap.get? · t) hdelete).trans (SortedMap.get?_erase _ _ _)
  · simp only [ho, if_false, false_and, Bool.false_eq_true]

/-- The entries the loop of `reserve` visits. -/
def visited (q : Handle) (fuel c : ℕ) : List (ℕ × Bytes) :=
  visits q.store (· ∈ q.inner.reserved) fuel (entryKey c)

/-- The loop of `reserve` hands out the first of its visits that is not reserved, unless a seek
fails, and returns when there is one or the fuel is more than there are visits. -/
theorem scan_visited (q : Handle) : ∀ (fuel : ℕ) (fails : Option ℕ) (c : ℕ),
    q.scan fuel fails c =
      if ∃ n ∈ fails, n < fuel ∧
          n ≤ ((q.visited fuel c).takeWhile fun e => e.1 ∈ q.inner.reserved).length then
        some (.error ())
      else
        match (q.visited fuel c).find? fun e => e.1 ∉ q.inner.reserved with
        | some e => some (.ok (some ⟨e.1, e.2⟩))
        | none => if (q.visited fuel c).length < fuel then some (.ok none) else none := by
  intro fuel
  induction fuel with
  | zero =>
    intro fails c
    rw [if_neg (by simp)]
    rfl
  | succ fuel ih =>
    intro fails c
    by_cases hfails : fails = some 0
    · subst hfails
      simp [scan]
    · rw [scan, if_neg hfails]
      split
      · next key value hseek =>
        by_cases hkey : isEntry key = true
        · rw [if_pos hkey, visited, visits_of_entry hseek hkey]
          by_cases hmem : seqOf key ∈ q.inner.reserved
          · simp only [hmem, decide_true, if_true, List.takeWhile_cons, List.find?_cons,
              List.length_cons, not_true_eq_false, decide_false]
            rw [ih]
            refine if_congr (fails_later hfails).symm rfl ?_
            simp only [Nat.add_lt_add_iff_right]
            rfl
          · simp only [hmem, decide_false, if_false, List.takeWhile_cons, List.find?_cons,
              List.length_nil, not_false_eq_true, decide_true, Bool.false_eq_true]
            rw [if_neg (not_fails hfails)]
        · have hend : q.visited (fuel + 1) c = [] := by
            refine visits_of_end fun key' value' hseek' => ?_
            rw [hseek] at hseek'
            obtain ⟨rfl, -⟩ := Prod.mk.inj (Option.some.inj hseek')
            exact Bool.not_eq_true _ ▸ hkey
          rw [if_neg hkey, hend, List.takeWhile_nil, List.length_nil, if_neg (not_fails hfails)]
          exact (if_pos (Nat.succ_pos fuel)).symm
      · next hseek =>
        have hend : q.visited (fuel + 1) c = [] :=
          visits_of_end fun key value hseek' => by rw [hseek] at hseek'; cases hseek'
        rw [hend, List.takeWhile_nil, List.length_nil, if_neg (not_fails hfails)]
        exact (if_pos (Nat.succ_pos fuel)).symm

namespace Sound

theorem lt_u64Max (h : q.Sound) (ht : t < q.inner.tail) : t < u64Max := ht.trans_le h.tail_le

theorem lt_u64Size (h : q.Sound) (ht : t < q.inner.tail) : t < u64Size :=
  lt_u64Size_of_lt_u64Max (h.lt_u64Max ht)

/-! ## reserve -/

/-- What the loop of `reserve` finds from a cursor on: the first entry that is not reserved,
unless the failing seek comes before. -/
theorem scan_eq (h : q.Sound) (fuel : ℕ) (fails : Option ℕ) {c : ℕ} (hc : c ≤ q.inner.tail)
    (hfuel : (q.items.above c).length < fuel) :
    q.scan fuel fails c = some
      (if ∃ n ∈ fails,
          n ≤ ((q.items.above c).takeWhile fun e => decide (e.1 ∈ q.inner.reserved)).length then
        .error ()
      else
        .ok (((q.items.above c).find? fun e => decide (e.1 ∉ q.inner.reserved)).map
          fun e => ⟨e.1, e.2⟩)) := by
  have hlt : c < u64Size := hc.trans_lt (h.tail_le.trans_lt (by decide))
  have hinit := List.through_initial (fun e => decide (e.1 ∈ q.inner.reserved)) (q.items.above c)
  have hvisited : q.visited fuel c =
      (q.items.above c).through fun e => decide (e.1 ∈ q.inner.reserved) := by
    have hstart : ¬StartsOver q.items (· ∈ q.inner.reserved) c :=
      not_startsOver fun t v ht => h.lt_u64Max (h.stored_lt t v ht)
    have heq : q.visited fuel c = ((q.items.above c).through
        fun e => decide (e.1 ∈ q.inner.reserved)).take fuel :=
      visits_eq h.keyed (entryLow_le_entryKey c) (entryKey_bound hlt) hstart
    rw [heq]
    exact List.take_of_length_le (hinit.length_le.trans hfuel.le)
  have hpassed : ((q.items.above c).takeWhile fun e => decide (e.1 ∈ q.inner.reserved)).length <
      fuel := by
    have hpassed := List.takeWhile_prefix (l := q.items.above c) fun e =>
      decide (e.1 ∈ q.inner.reserved)
    exact hpassed.length_le.trans_lt hfuel
  rw [scan_visited, hvisited, List.takeWhile_through, List.find?_through (by simp)]
  have hfails : (∃ n ∈ fails, n < fuel ∧ n ≤ ((q.items.above c).takeWhile
      fun e => decide (e.1 ∈ q.inner.reserved)).length) ↔ ∃ n ∈ fails,
      n ≤ ((q.items.above c).takeWhile fun e => decide (e.1 ∈ q.inner.reserved)).length :=
    exists_congr fun n => and_congr_right fun _ =>
      ⟨fun hand => hand.2, fun hle => ⟨hle.trans_lt hpassed, hle⟩⟩
  rw [if_congr hfails rfl rfl]
  split
  · rfl
  · split
    · next hfind =>
      rw [hfind]
      rfl
    · next hfind =>
      rw [hfind, if_pos (hinit.length_le.trans_lt hfuel)]
      rfl

/-- The first entry that is not reserved is the oldest such. -/
theorem find_oldest {e : ℕ × Bytes}
    (he : q.items.entries.find? (fun e => decide (e.1 ∉ q.inner.reserved)) = some e) :
    q.items.get? e.1 = some e.2 ∧ e.1 ∉ q.inner.reserved ∧
      ∀ t v, q.items.get? t = some v → t < e.1 → t ∈ q.inner.reserved := by
  obtain ⟨hfree, before, after, heq, hbefore⟩ := List.find?_eq_some_iff_append.mp he
  have hsorted := q.items.sorted
  rw [heq, List.pairwise_append] at hsorted
  refine ⟨SortedMap.get?_eq_some.mpr (heq ▸ by simp), by simpa using hfree, fun t v ht hlt => ?_⟩
  have hmem := SortedMap.get?_eq_some.mp ht
  rw [heq] at hmem
  rcases List.mem_append.mp hmem with hmem | hmem
  · simpa using hbefore _ hmem
  · -- what comes after it is above it
    rcases List.mem_cons.mp hmem with rfl | hmem
    · exact absurd hlt (lt_irrefl _)
    · have habove := (List.pairwise_cons.mp hsorted.2.1).1 _ hmem
      exact absurd hlt habove.not_gt

/-- A reserve returns unless the name of its guard is taken. -/
theorem reserve_some (h : q.Sound) (hg : q.guards.get? g = none) (fails : Option ℕ) :
    ∃ q' a, q.reserve g fails = some (q', a) := by
  have hall : q.items.above q.inner.head = q.items.entries := SortedMap.above_eq_entries h.head_le
  simp only [Handle.reserve, hg]
  rw [h.scan_eq _ fails h.head_le_tail (by rw [hall]; exact Nat.lt_succ_self _), hall]
  split
  · next hnone => cases hnone
  · exact ⟨_, _, rfl⟩
  · exact ⟨_, _, rfl⟩
  · exact ⟨_, _, rfl⟩

/-- What a reserve does: it fails, or everything stored is reserved, or it hands out the oldest
entry that is not. -/
theorem reserve_cases (h : q.Sound) {fails : Option ℕ} {a : Answer}
    (hres : q.reserve g fails = some (q', a)) :
    q' = q ∧ a = .storeError ∧ fails ≠ none ∨
    q' = q ∧ a = .nothing ∧ (∀ t v, q.items.get? t = some v → t ∈ q.inner.reserved) ∨
    ∃ r : Reserved, a = .item r.seq r.value ∧
      q' = { q with inner := q.inner.reserve r.seq, guards := q.guards.insert g r } ∧
      q.guards.get? g = none ∧ q.items.get? r.seq = some r.value ∧ r.seq ∉ q.inner.reserved ∧
      ∀ t v, q.items.get? t = some v → t < r.seq → t ∈ q.inner.reserved := by
  have hall : q.items.above q.inner.head = q.items.entries := SortedMap.above_eq_entries h.head_le
  rw [Handle.reserve] at hres
  rcases hg : q.guards.get? g with _ | r
  · simp only [hg] at hres
    rw [h.scan_eq _ fails h.head_le_tail (by rw [hall]; exact Nat.lt_succ_self _), hall] at hres
    by_cases hfails : ∃ n ∈ fails,
        n ≤ (q.items.entries.takeWhile fun e => decide (e.1 ∈ q.inner.reserved)).length
    · rw [if_pos hfails] at hres
      obtain ⟨rfl, rfl⟩ := Prod.mk.inj (Option.some.inj hres)
      refine Or.inl ⟨rfl, rfl, ?_⟩
      rintro rfl
      obtain ⟨n, hn, -⟩ := hfails
      cases hn
    · rw [if_neg hfails] at hres
      rcases he : q.items.entries.find? fun e => decide (e.1 ∉ q.inner.reserved) with _ | e
      · rw [he] at hres
        obtain ⟨rfl, rfl⟩ := Prod.mk.inj (Option.some.inj hres)
        refine Or.inr (Or.inl ⟨rfl, rfl, fun t v ht => ?_⟩)
        have hnone := List.find?_eq_none.mp he _ (SortedMap.get?_eq_some.mp ht)
        simpa using hnone
      · rw [he] at hres
        obtain ⟨rfl, rfl⟩ := Prod.mk.inj (Option.some.inj hres)
        obtain ⟨hstored, hfree, holdest⟩ := find_oldest he
        exact Or.inr (Or.inr ⟨⟨e.1, e.2⟩, rfl, rfl, rfl, hstored, hfree, holdest⟩)
  · rw [hg] at hres
    cases hres

theorem reserve (h : q.Sound) (hg : q.guards.get? g = none)
    (hr : q.items.get? r.seq = some r.value) (hfree : r.seq ∉ q.inner.reserved) :
    Sound { q with inner := q.inner.reserve r.seq, guards := q.guards.insert g r } := by
  have hnew : ∀ {g' r'}, q.guards.get? g' = some r' → r'.seq ≠ r.seq := by
    intro g' r' hg' heq
    exact hfree ((h.reserved _).mpr ⟨g', r', hg', heq⟩)
  refine
    { h with guard_lt := fun g' r' hg' => ?_, reserved := fun t => ?_
             distinct := fun g₁ g₂ r₁ r₂ h₁ h₂ heq => ?_ }
  · rcases SortedMap.of_get?_insert hg' with ⟨-, rfl⟩ | ⟨-, hg'⟩
    · exact h.stored_lt _ _ hr
    · exact h.guard_lt g' r' hg'
  · simp only [Inner.reserve_reserved, Finset.mem_insert, h.reserved]
    constructor
    · rintro (rfl | ⟨g', r', hg', heq⟩)
      · exact ⟨g, r, SortedMap.get?_insert_self _ _ _, rfl⟩
      · refine ⟨g', r', (SortedMap.get?_insert_ne _ _ ?_).trans hg', heq⟩
        rintro rfl
        rw [hg] at hg'
        cases hg'
    · rintro ⟨g', r', hg', rfl⟩
      rcases SortedMap.of_get?_insert hg' with ⟨-, rfl⟩ | ⟨-, hg'⟩
      · exact Or.inl rfl
      · exact Or.inr ⟨g', r', hg', rfl⟩
  · rcases SortedMap.of_get?_insert h₁ with ⟨rfl, rfl⟩ | ⟨-, hold₁⟩ <;>
      rcases SortedMap.of_get?_insert h₂ with ⟨rfl, rfl⟩ | ⟨-, hold₂⟩
    · rfl
    · exact absurd heq.symm (hnew hold₂)
    · exact absurd heq (hnew hold₁)
    · exact h.distinct g₁ g₂ r₁ r₂ hold₁ hold₂ heq

/-! ## ack, nack and drop -/

/-- Taking a guard away takes its seq out of the reserved set. -/
theorem reserved_erase (h : q.Sound) (hg : q.guards.get? g = some r) (t : ℕ) :
    t ∈ q.inner.reserved.erase r.seq ↔
      ∃ g' r', (q.guards.erase g).get? g' = some r' ∧ r'.seq = t := by
  rw [Finset.mem_erase, h.reserved]
  constructor
  · rintro ⟨hne, g', r', hg', rfl⟩
    refine ⟨g', r', (SortedMap.get?_erase_ne _ ?_).trans hg', rfl⟩
    rintro rfl
    obtain rfl := Option.some.inj (hg.symm.trans hg')
    exact hne rfl
  · rintro ⟨g', r', hg', rfl⟩
    obtain ⟨hne, hg'⟩ := SortedMap.of_get?_erase hg'
    exact ⟨fun heq => hne (h.distinct g' g r' r hg' hg heq), g', r', hg', rfl⟩

theorem distinct_erase (h : q.Sound) : ∀ g₁ g₂ r₁ r₂, (q.guards.erase g).get? g₁ = some r₁ →
    (q.guards.erase g).get? g₂ = some r₂ → r₁.seq = r₂.seq → g₁ = g₂ :=
  fun g₁ g₂ r₁ r₂ h₁ h₂ heq =>
    h.distinct g₁ g₂ r₁ r₂ (SortedMap.of_get?_erase h₁).2 (SortedMap.of_get?_erase h₂).2 heq

theorem release (h : q.Sound) (hg : q.guards.get? g = some r) : (q.release g r).Sound :=
  { h with
    guard_lt := fun g' r' hg' => h.guard_lt g' r' (SortedMap.of_get?_erase hg').2
    reserved := h.reserved_erase hg
    distinct := h.distinct_erase }

theorem deleting (h : q.Sound) (hg : q.guards.get? g = some r) (o : Outcome) :
    (q.deleting r o).Sound := by
  have hseq := h.lt_u64Size (h.guard_lt g r hg)
  have hold : ∀ {t v}, (q.deleting r o).items.get? t = some v → q.items.get? t = some v := by
    intro t v ht
    rw [get?_items_deleting hseq] at ht
    split at ht
    · cases ht
    · exact ht
  refine
    { h with keyed := ?_, stored_lt := fun t v ht => h.stored_lt t v (hold ht)
             head_le := fun t v ht => h.head_le t v (hold ht)
             above_gone := fun t ht => ?_ }
  · simp only [Handle.deleting, Store.commit_one_live]
    split
    · exact h.keyed.apply (fun _ => isEntry_entryKey r.seq) none
    · exact h.keyed
  · rw [get?_items_deleting hseq]
    split
    · rfl
    · exact h.above_gone t ht

/-- Recording an ack crosses only what is gone. -/
theorem recorded (h : q.Sound) (hg : q.guards.get? g = some r)
    (hgone : q.items.get? r.seq = none) :
    Sound { q with
      inner := q.inner.recordAck q.cfg r.seq r.value, guards := q.guards.erase g } := by
  have hseq := h.guard_lt g r hg
  obtain ⟨hhead, hcross, habove⟩ := @Inner.recordAck_cursor q.cfg q.inner r.seq r.value
    (h.lt_u64Max hseq) fun t ht => h.lt_u64Max (h.above_lt t ht)
  have hlow : ∀ t, t = r.seq ∨ t ∈ q.inner.ackedAbove →
      t < q.inner.tail ∧ q.items.get? t = none := by
    rintro t (rfl | ht)
    · exact ⟨hseq, hgone⟩
    · exact ⟨h.above_lt t ht, h.above_gone t ht⟩
  refine
    { keyed := h.keyed, tail_le := ?_, head_le_tail := ?_, stored_lt := fun t v ht => ?_
      head_le := fun t v ht => ?_, above_lt := fun t ht => ?_
      above_gone := fun t ht => (hlow t (habove t ht)).2
      guard_lt := fun g' r' hg' => ?_, reserved := fun t => ?_, distinct := h.distinct_erase }
  · rw [Inner.recordAck_tail]
    exact h.tail_le
  · rw [Inner.recordAck_tail]
    by_contra hlt
    exact lt_irrefl _ (hlow _ (hcross _ h.head_le_tail (not_le.mp hlt))).1
  · rw [Inner.recordAck_tail]
    exact h.stored_lt t v ht
  · by_contra hlt
    have hnone := (hlow t (hcross t (h.head_le t v ht) (not_le.mp hlt))).2
    have hstored : q.items.get? t = some v := ht
    rw [hnone] at hstored
    cases hstored
  · rw [Inner.recordAck_tail]
    exact (hlow t (habove t ht)).1
  · rw [Inner.recordAck_tail]
    exact h.guard_lt g' r' (SortedMap.of_get?_erase hg').2
  · rw [Inner.recordAck_reserved]
    exact h.reserved_erase hg t

/-- Every ack keeps it, and leaves the other entries and guards alone. -/
theorem ack (h : q.Sound) (hg : q.guards.get? g = some r) (o : Outcome) :
    (q.ack g r o).1.Sound ∧ (q.ack g r o).1.guards = q.guards.erase g ∧
      ∀ t, t ≠ r.seq → (q.ack g r o).1.items.get? t = q.items.get? t := by
  have hseq := h.lt_u64Size (h.guard_lt g r hg)
  have hsound := h.deleting hg o
  have hothers : ∀ t, t ≠ r.seq → (q.deleting r o).items.get? t = q.items.get? t := by
    intro t hne
    rw [get?_items_deleting hseq, if_neg fun hand => hne hand.2]
  simp only [Handle.ack]
  split
  · next hok =>
    refine ⟨hsound.recorded hg ?_, rfl, hothers⟩
    rw [get?_items_deleting hseq, if_pos ⟨Outcome.applies_of_isOk hok, rfl⟩]
  · exact ⟨hsound.release hg, rfl, hothers⟩

end Sound

end Handle

end PersistentQueue
