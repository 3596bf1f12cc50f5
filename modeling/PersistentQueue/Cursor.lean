import PersistentQueue.Session

/-!
# Nothing is skipped

`head` only ever crosses seqs whose delete an ack has committed, so no item is below it
while it is stored or still on its way (`Cursor`). This needs one thing from the commits:
that none of them puts an entry back after its ack deleted it.

Failing commits that apply nothing have that property, and then nothing is lost within a
session: `no_item_lost`. A failing commit may however have taken effect, and the retry of
a batch that did can put an acked entry back: `ack_final` says that this is the only
way.
-/

namespace PersistentQueue

namespace Ledger

variable {l l' : Ledger} {m : Move} {t : ℕ}

/-! ## Which deletes are committed -/

/-- What a move adds to the deleted seqs: an ack whose commit returned `Ok`. -/
theorem moved_deleted (hm : Moved l m l') :
    Deleted l'.log t ↔ Deleted l.log t ∨ ∃ g gd o, m = .turn (.ack g o) ∧
      l.guards.get? g = some gd ∧ gd.pc = .held ∧ o.isOk = true ∧ t = gd.seq := by
  constructor
  · rintro ⟨value, old, hmem⟩
    rcases mem_session hm hmem with hmem | ⟨g, gd, o, hm, hg, hpc, ht, -, -, -, hok⟩
    · exact Or.inl ⟨value, old, hmem⟩
    · exact Or.inr ⟨g, gd, o, hm, hg, hpc, hok.symm, ht⟩
  · rintro (⟨value, old, hmem⟩ | ⟨g, gd, o, rfl, hg, hpc, hok, rfl⟩)
    · exact ⟨value, old, session_mono hm hmem⟩
    · cases hm with
      | remove hg' hpc' o =>
        obtain rfl := Option.some.inj (hg.symm.trans hg')
        refine ⟨gd.value, l.store.get (entryKey gd.seq), ?_⟩
        simp [remove, Outcome.applies_of_isOk hok, hok]

theorem deleted_mono (hm : Moved l m l') (h : Deleted l.log t) : Deleted l'.log t :=
  (moved_deleted hm).mpr (Or.inl h)

/-! ## Seqs nobody has seen yet -/

/-- The seq is not stored, no scan has found it, nobody holds it, and it was not deleted. -/
structure Unseen (l : Ledger) (t : ℕ) : Prop where
  not_stored : l.items.get? t = none
  not_found : ∀ r v b, l.reserves.get? r ≠ some ⟨.checking t v, b⟩
  not_held : ∀ g gd, l.guards.get? g = some gd → gd.seq ≠ t
  not_deleted : ¬Deleted l.log t

/-- A seq stays unseen until a commit puts it. -/
theorem Unseen.moved (h : l.Unseen t) (hwf : l.Wf) (hm : Moved l m l')
    (hput : ∀ durable o, m = .put t durable o → o.applies = false) : l'.Unseen t := by
  refine ⟨?_, fun r v b hr => ?_, fun g gd hg => ?_, fun hd => ?_⟩
  · exact hwf.items_none hm h.not_stored fun w durable o heq _ => hput durable o heq
  · rcases hwf.of_found hm hr with ⟨b₀, hold⟩ | ⟨-, hstored⟩
    · exact h.not_found r v b₀ hold
    · rw [h.not_stored] at hstored
      cases hstored
  · rcases of_guards hm hg with ⟨gd₀, hold, hseq, -⟩ | ⟨r, behind, -, hr, -⟩
    · exact hseq ▸ h.not_held g gd₀ hold
    · rintro rfl
      exact h.not_found r _ behind hr
  · rcases (moved_deleted hm).mp hd with hd | ⟨g, gd, o, -, hg, -, -, rfl⟩
    · exact h.not_deleted hd
    · exact h.not_held g gd hg rfl

/-! ## The head crosses deleted seqs only -/

/-- `head` and `acked_above` stand for committed deletes, and what was deleted is gone. -/
structure Cursor (l : Ledger) : Prop where
  deleted_lt : ∀ t, Deleted l.log t → t < l.inner.tail
  crossed : ∀ t, t < l.inner.head →
    Deleted l.log t ∨ l.items.get? t = none ∧ l.writes.get? t = none
  above_deleted : ∀ t ∈ l.inner.ackedAbove, Deleted l.log t
  guard_deleted : ∀ g gd, l.guards.get? g = some gd → gd.pc = .deleted → Deleted l.log gd.seq
  acked_deleted : ∀ t, .acked t ∈ thisSession l.log → Deleted l.log t
  gone : ∀ t, Deleted l.log t → l.items.get? t = none

theorem cursor_opened {b : Builder} (h : FreshLedger b l) : l.Cursor where
  deleted_lt := fun t hd => absurd hd (h.not_deleted t)
  crossed := by
    intro t ht
    refine Or.inr ⟨?_, by rw [h.opened]; rfl⟩
    rcases hi : l.items.get? t with _ | v
    · rfl
    · exact absurd ht (h.recovered.head_le t v hi).not_gt
  above_deleted := fun t ht => by
    rw [h.recovered.ackedAbove_eq] at ht
    cases ht
  guard_deleted := fun g gd hg => by
    rw [h.opened] at hg
    cases hg
  acked_deleted := fun t ht => by
    rw [h.thisSession_log] at ht
    cases ht
  gone := fun t hd => absurd hd (h.not_deleted t)

/-- What is below the head was deleted, or was never there. -/
theorem Cursor.crossed_moved (h : l.Cursor) (hwf : l.Wf) (hm : Moved l m l')
    (ht : t < l'.inner.head) :
    Deleted l'.log t ∨ l'.items.get? t = none ∧ l'.writes.get? t = none := by
  rcases hwf.of_head hm ht with hlt | hmem | ⟨g, gd, -, hg, hpc, rfl⟩
  · rcases h.crossed t hlt with hd | ⟨hitems, hwrites⟩
    · exact Or.inl (deleted_mono hm hd)
    · -- the tail gives out no seq below the head
      refine Or.inr ⟨hwf.items_none hm hitems fun w durable o _ hw => ?_,
        writes_none hm (hlt.trans_le hwf.head_le).ne hwrites⟩
      rw [hwrites] at hw
      cases hw
  · exact Or.inl (deleted_mono hm (h.above_deleted t hmem))
  · exact Or.inl (deleted_mono hm (h.guard_deleted g gd hg hpc))

/-- What was deleted is gone, when the move puts no deleted entry back. -/
theorem Cursor.gone_moved (h : l.Cursor) (hwf : l.Wf) (hm : Moved l m l')
    (hput : ∀ t durable o, m = .put t durable o → o.applies = true → ¬Deleted l.log t)
    (ht : Deleted l'.log t) : l'.items.get? t = none := by
  rcases (moved_deleted hm).mp ht with hd | ⟨g, gd, o, rfl, hg, -, hok, rfl⟩
  · refine hwf.items_none hm (h.gone t hd) fun w durable o heq _ => ?_
    by_contra happ
    exact hput t durable o heq (Bool.not_eq_false _ ▸ happ) hd
  · cases hm with
    | remove hg' hpc o =>
      obtain rfl := Option.some.inj (hg.symm.trans hg')
      rw [get?_items_remove (hwf.lt_u64Size (hwf.guard_lt g gd hg)),
        if_pos ⟨Outcome.applies_of_isOk hok, rfl⟩]

/-- A move keeps it, when it puts no deleted entry back. -/
theorem Cursor.moved (h : l.Cursor) (hwf : l.Wf) (hbelow : l.Below m) (hm : Moved l m l')
    (hput : ∀ t durable o, m = .put t durable o → o.applies = true → ¬Deleted l.log t) :
    l'.Cursor := by
  have htail := tail_mono hbelow hm
  refine ⟨fun t ht => ?_, fun t ht => h.crossed_moved hwf hm ht, fun t ht => ?_,
    fun g gd hg hpc => ?_, fun t ht => ?_, fun t ht => h.gone_moved hwf hm hput ht⟩
  · rcases (moved_deleted hm).mp ht with ht | ⟨g, gd, o, -, hg, -, -, rfl⟩
    · exact (h.deleted_lt t ht).trans_le htail
    · exact (hwf.guard_lt g gd hg).trans_le htail
  · rcases hwf.of_above hm ht with hold | ⟨g, gd, -, hg, hpc, rfl⟩
    · exact deleted_mono hm (h.above_deleted t hold)
    · exact deleted_mono hm (h.guard_deleted g gd hg hpc)
  · rcases of_guard_deleted hm hg hpc with hold | ⟨gd₀, o, hturn, hg₀, hheld, hok, hseq⟩
    · exact deleted_mono hm (h.guard_deleted g gd hold hpc)
    · exact (moved_deleted hm).mpr (Or.inr ⟨g, gd₀, o, hturn, hg₀, hheld, hok, hseq⟩)
  · rcases mem_session hm ht with ht | ⟨g, gd, -, hg, hpc, rfl⟩
    · exact deleted_mono hm (h.acked_deleted t ht)
    · exact deleted_mono hm (h.guard_deleted g gd hg hpc)

/-- No stored item is below the head. -/
theorem Cursor.head_le (h : l.Cursor) {v : Bytes} (ht : l.items.get? t = some v) :
    l.inner.head ≤ t := by
  by_contra hlt
  rcases h.crossed t (not_le.mp hlt) with hd | ⟨hi, -⟩
  · rw [h.gone t hd] at ht
    cases ht
  · rw [hi] at ht
    cases ht

/-- Nobody has seen the next seq. -/
theorem Cursor.unseen_tail (h : l.Cursor) (hwf : l.Wf) : l.Unseen l.inner.tail := by
  refine ⟨?_, fun r v b hr => ?_, fun g gd hg heq => ?_, fun hd => ?_⟩
  · rcases hi : l.items.get? l.inner.tail with _ | v
    · rfl
    · exact absurd (hwf.stored_lt _ v hi) (lt_irrefl _)
  · exact lt_irrefl _ (hwf.checking_lt r _ v b hr)
  · exact absurd (hwf.guard_lt g gd hg) (heq ▸ lt_irrefl _)
  · exact lt_irrefl _ (h.deleted_lt _ hd)

end Ledger

end PersistentQueue
