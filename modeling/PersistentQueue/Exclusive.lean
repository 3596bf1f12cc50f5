import PersistentQueue.Lib.History
import PersistentQueue.NoLoss
import PersistentQueue.Guards
import PersistentQueue.Accounting

/-!
# One guard for an item

`reserve` looks at the store and at the reserved set in two steps with no lock between
them, and `ack` changes both in the opposite order. An ack that is recorded between the
two steps of a scan that has already found its item frees the seq in the reserved set, and
the scan hands the item out again. `Exclusive` is what holds as long as that does not
happen: every item has at most one guard, the reserved set is the set of the guards' seqs,
a held item is stored with the bytes its guard shows, and no commit of the queue meets a
surprise in the store, so the counters do not drift.
-/

namespace PersistentQueue

/-- Whether a reserve call has found the seq and is about to look it up. -/
def ReservePc.checks : ReservePc → ℕ → Bool
  | .checking seq _, t => seq == t
  | .seeking _, _ => false

namespace Ledger

variable {l l' : Ledger} {m : Move} {t : ℕ}

/-- Some reserve call has found the seq and is about to look it up. -/
def BeingChecked (l : Ledger) (seq : ℕ) : Prop :=
  ∃ e ∈ l.reserves.entries, e.2.pc.checks seq = true

instance (l : Ledger) (seq : ℕ) : Decidable (l.BeingChecked seq) :=
  inferInstanceAs (Decidable (∃ e ∈ l.reserves.entries, e.2.pc.checks seq = true))

theorem beingChecked_of_get? {r : ℕ} {v : Bytes} {b : Finset ℕ}
    (h : l.reserves.get? r = some ⟨.checking t v, b⟩) : l.BeingChecked t :=
  ⟨_, SortedMap.get?_eq_some.mp h, beq_self_eq_true t⟩

/-- No guard whose item is being checked is about to be recorded. -/
def RecordApart (l : Ledger) (m : Move) : Prop :=
  ∀ g gd, m = .turn (.record g) → l.guards.get? g = some gd → ¬l.BeingChecked gd.seq

/-- Every item has at most one guard, which holds what is stored. -/
structure Exclusive (l : Ledger) : Prop where
  distinct : ∀ g g' gd gd', l.guards.get? g = some gd → l.guards.get? g' = some gd' →
    gd.seq = gd'.seq → g = g'
  reserved : ∀ t, t ∈ l.inner.reserved ↔ ∃ g gd, l.guards.get? g = some gd ∧ gd.seq = t
  held : ∀ g gd, l.guards.get? g = some gd → gd.pc ≠ .deleted →
    l.items.get? gd.seq = some gd.value
  found : ∀ r t v b, l.reserves.get? r = some ⟨.checking t v, b⟩ →
    l.items.get? t = some v ∨
      ∃ g gd, l.guards.get? g = some gd ∧ gd.seq = t ∧ gd.pc = .deleted
  unguarded : ∀ t, .acked t ∈ thisSession l.log → ∀ g gd, l.guards.get? g = some gd → gd.seq ≠ t
  handed_first : ∀ t v, ¬Earlier (.acked t) (.handedOut t v) (thisSession l.log)
  acked_once : ∀ t, ¬Earlier (.acked t) (.acked t) (thisSession l.log)
  steady : ∀ e ∈ thisSession l.log, ∀ f, e.drift f = 0

theorem exclusive_opened {b : Builder} (h : FreshLedger b l) : l.Exclusive := by
  rw [h.opened]
  refine ⟨fun _ _ _ _ hg => (by cases hg), fun t => ?_, fun _ _ hg => (by cases hg),
    fun _ _ _ _ hr => (by cases hr), fun _ ha => (by cases ha), fun t v hlog => ?_,
    fun t hlog => ?_, fun _ he => (by cases he)⟩
  · simp [opened, h.recovered.reserved_eq]
  · cases hlog.mem_left
  · cases hlog.mem_left

/-- A scan that hands an item out takes one that is stored and has no guard. -/
theorem Exclusive.take (h : l.Exclusive) {r : ℕ} {v : Bytes} {b : Finset ℕ}
    (hr : l.reserves.get? r = some ⟨.checking t v, b⟩) (hmem : t ∉ l.inner.reserved) :
    l.items.get? t = some v ∧ ∀ g gd, l.guards.get? g = some gd → gd.seq ≠ t := by
  have hnone : ∀ g gd, l.guards.get? g = some gd → gd.seq ≠ t :=
    fun g gd hg heq => hmem ((h.reserved t).mpr ⟨g, gd, hg, heq⟩)
  refine ⟨(h.found r t v b hr).resolve_right ?_, hnone⟩
  rintro ⟨g, gd, hg, heq, -⟩
  exact hnone g gd hg heq

theorem Exclusive.paired (h : l.Exclusive) : l.Paired := ⟨h.distinct, h.reserved⟩

/-- An item that an ack has recorded is not stored any more. -/
theorem Cursor.not_acked (h : l.Cursor) {v : Bytes} (ht : l.items.get? t = some v) :
    .acked t ∉ thisSession l.log := by
  intro hacked
  rw [h.gone t (h.acked_deleted t hacked)] at ht
  cases ht

/-- What a move adds to the history keeps the order of hand-outs and acks, and does not
drift. -/
theorem Exclusive.history (h : l.Exclusive) (hcursor : l.Cursor) (hkept : l.Kept) (hwf : l.Wf)
    (hclean : cleanFailures.move l m) (hm : Moved l m l') :
    (∀ t v, ¬Earlier (.acked t) (.handedOut t v) (thisSession l'.log)) ∧
    (∀ t, ¬Earlier (.acked t) (.acked t) (thisSession l'.log)) ∧
    ∀ e ∈ thisSession l'.log, ∀ f, e.drift f = 0 := by
  obtain ⟨es, heq, hes⟩ := moved_session hm
  refine ⟨fun t v hlog => ?_, fun t hlog => ?_, fun e he f => ?_⟩
  · rw [heq] at hlog
    rcases hlog.of_append with hold | ⟨hout, hacked⟩
    · exact h.handed_first t v hold
    · obtain ⟨r, g, b, rfl, hr, hmem⟩ := hes _ hout
      rcases hacked with hacked | hacked
      · obtain ⟨g', gd, hm', -⟩ := hes _ hacked
        cases hm'
      · exact hcursor.not_acked (h.take hr hmem).1 hacked
  · have hsplit := hlog
    rw [heq] at hsplit
    rcases hsplit.of_append with hold | ⟨hnow, -⟩
    · exact h.acked_once t hold
    · obtain ⟨g, gd, rfl, hg, hpc, rfl⟩ := hes _ hnow
      cases hm with
      | record hg' hpc' =>
        rcases Earlier.iff_cons.mp hlog with ⟨-, hmem⟩ | hold
        · exact h.unguarded _ hmem g gd hg rfl
        · exact h.acked_once _ hold
  · rw [heq] at he
    rcases List.mem_append.mp he with he | he
    · have hcause := hes e he
      cases e with
      | put seq value old ok =>
        obtain ⟨w, durable, o, rfl, hw, rfl, rfl, ho, rfl⟩ := hcause
        have hunseen : l.Unseen seq := hkept.unseen_put hm
        have hok : o.isOk = true := Outcome.Clean.isOk_of_applies hclean.1 ho
        rw [get_entryKey (hwf.lt_u64Size (hwf.write_lt seq w hw)), hunseen.not_stored]
        simp [Event.drift, hok]
      | removed seq value old ok =>
        obtain ⟨g, gd, o, rfl, hg, hpc, rfl, rfl, rfl, ho, rfl⟩ := hcause
        have hok : o.isOk = true := Outcome.Clean.isOk_of_applies hclean.2 ho
        rw [get_entryKey (hwf.lt_u64Size (hwf.guard_lt g gd hg)), h.held g gd hg (by simp [hpc])]
        simp [Event.drift, hok]
      | opened | called | claimed | pushOk | handedOut | ackCalled | acked => rfl
    · exact h.steady e he f

/-- A guard that has not deleted its item holds what is stored. -/
theorem Exclusive.held_moved (h : l.Exclusive) (hkept : l.Kept) (hwf : l.Wf)
    (hclean : cleanFailures.move l m) (hm : Moved l m l') {g : ℕ} {gd : Guard}
    (hg : l'.guards.get? g = some gd) (hpc : gd.pc ≠ .deleted) :
    l'.items.get? gd.seq = some gd.value := by
  rcases of_guards hm hg with ⟨gd₀, hg₀, hseq, hvalue, hpc₀⟩ | ⟨r, behind, rfl, hr, hmem, -⟩
  · have hstored : l.items.get? gd.seq = some gd.value := by
      rw [hseq, hvalue]
      refine h.held g gd₀ hg₀ ?_
      rcases hpc₀ with rfl | ⟨-, -, hheld, -⟩
      · exact hpc
      · simp [hheld]
    rcases hwf.item_stays hm hstored with hstays | ⟨w, durable, o, rfl, -⟩ |
      ⟨g₁, gd₁, o, rfl, hg₁, -, happ, heq⟩
    · exact hstays
    · exact absurd hseq.symm ((hkept.unseen_put hm).not_held g gd₀ hg₀)
    · -- an ack that has deleted the item is this guard's own
      obtain rfl := h.distinct g₁ g gd₁ gd₀ hg₁ hg₀ (heq.trans hseq)
      have hok : o.isOk = true := Outcome.Clean.isOk_of_applies hclean.2 happ
      rcases hpc₀ with rfl | ⟨o', hturn, -, hnow⟩
      · cases hm with
        | remove hg₂ hheld =>
          obtain rfl := Option.some.inj ((SortedMap.get?_insert_self _ _ _).symm.trans hg)
          exact absurd (if_pos hok) hpc
      · obtain rfl := (Turn.ack.inj (Move.turn.inj hturn)).2
        exact absurd (hnow.trans (if_pos hok)) hpc
  · have hstored := (h.take hr hmem).1
    cases hm with
    | skipped | handedOut => exact hstored

/-- What a scan has found is stored, or its guard is between the two steps of its ack. -/
theorem Exclusive.found_moved (h : l.Exclusive) (hkept : l.Kept) (hwf : l.Wf)
    (hclean : cleanFailures.move l m) (hapart : l.RecordApart m) (hm : Moved l m l') {r : ℕ}
    {v : Bytes} {b : Finset ℕ} (hr : l'.reserves.get? r = some ⟨.checking t v, b⟩) :
    l'.items.get? t = some v ∨
      ∃ g gd, l'.guards.get? g = some gd ∧ gd.seq = t ∧ gd.pc = .deleted := by
  rcases hwf.of_found hm hr with ⟨b₀, hold⟩ | ⟨rfl, hstored⟩
  · rcases h.found r t v b₀ hold with hstored | ⟨g, gd, hg, rfl, hpc⟩
    · rcases hwf.item_stays hm hstored with hstays | ⟨w, durable, o, rfl, -⟩ |
        ⟨g, gd, o, rfl, hg, -, happ, rfl⟩
      · exact Or.inl hstays
      · exact absurd hold ((hkept.unseen_put hm).not_found r v b₀)
      · have hok : o.isOk = true := Outcome.Clean.isOk_of_applies hclean.2 happ
        cases hm with
        | remove hg' =>
          obtain rfl := Option.some.inj (hg.symm.trans hg')
          exact Or.inr ⟨g, _, SortedMap.get?_insert_self _ _ _, rfl, by simp [hok]⟩
    · -- no ack is recorded while its item is being checked
      refine Or.inr ⟨g, gd, guard_stays hm hg hpc ?_, rfl, hpc⟩
      rintro rfl
      exact hapart g gd rfl hg (beingChecked_of_get? hold)
  · cases hm with
    | ended | found => exact Or.inl hstored

/-- An item whose ack was recorded has no guard. -/
theorem Exclusive.unguarded_moved (h : l.Exclusive) (hcursor : l.Cursor) (hm : Moved l m l')
    (ht : .acked t ∈ thisSession l'.log) {g : ℕ} {gd : Guard}
    (hg : l'.guards.get? g = some gd) : gd.seq ≠ t := by
  rcases mem_session hm ht with hold | ⟨g₀, gd₀, rfl, hg₀, -, rfl⟩
  · rcases of_guards hm hg with ⟨gd', hg', hseq, -⟩ | ⟨r, behind, -, hr, hmem, -⟩
    · exact hseq ▸ h.unguarded t hold g gd' hg'
    · rintro rfl
      exact hcursor.not_acked (h.take hr hmem).1 hold
  · cases hm with
    | record =>
      obtain ⟨hne, hg⟩ := SortedMap.of_get?_erase hg
      exact fun heq => hne (h.distinct g g₀ gd gd₀ hg hg₀ heq)

theorem Exclusive.moved (h : l.Exclusive) (hcursor : l.Cursor) (hkept : l.Kept) (hwf : l.Wf)
    (hclean : cleanFailures.move l m) (hapart : l.RecordApart m) (hm : Moved l m l') :
    l'.Exclusive := by
  obtain ⟨hdistinct, hreserved⟩ := h.paired.moved hm
  obtain ⟨hfirst, honce, hsteady⟩ := h.history hcursor hkept hwf hclean hm
  exact
    { distinct := hdistinct, reserved := hreserved
      held := fun _ _ hg hpc => h.held_moved hkept hwf hclean hm hg hpc
      found := fun _ _ _ _ hr => h.found_moved hkept hwf hclean hapart hm hr
      unguarded := fun _ ht _ _ hg => h.unguarded_moved hcursor hm ht hg
      handed_first := hfirst, acked_once := honce, steady := hsteady }

end Ledger

end PersistentQueue
