import PersistentQueue.Cursor

/-!
# No item is lost

When every commit that fails has applied nothing, an entry appears in the store with the
commit that lands it and disappears with the delete of an ack. So a write that has not
landed is a seq nobody has seen (`Kept.unseen`), and a landed one is stored, with its own
bytes, until an ack deletes it. With what `Cursor` says of the head this is
`no_item_lost`: any number of producers, reserve calls and guards, in any order, under
each policy.
-/

namespace PersistentQueue

/-- A commit that fails has applied nothing. -/
def Turn.CleanFailure : Turn → Prop
  | .ack _ o => o.Clean
  | _ => True

instance : DecidablePred Turn.CleanFailure
  | .ack _ o => inferInstanceAs (Decidable o.Clean)
  | .call _ _ | .attempt _ | .giveBack _ | .close | .reserve _ | .seek _ _ | .check _ _
  | .record _ | .release _ => isTrue trivial

/-- The runs in which any commit may fail, having applied nothing. -/
def cleanFailures : Discipline where
  turn _ a := a.CleanFailure
  outcome o := o.Clean
  retry _ _ _ := True
  split _ h := h.split

instance (s : Session) : DecidablePred (cleanFailures.act s) :=
  cleanFailures.decideAct (fun _ a => inferInstanceAs (Decidable a.CleanFailure))
    (fun o => inferInstanceAs (Decidable o.Clean)) (fun _ _ _ => instDecidableTrue) s

/-- Failures are clean in a class of runs whose turns and outcomes say so. -/
theorem within_cleanFailures {D : Discipline} (hturn : ∀ l a, D.turn l a → a.CleanFailure)
    (houtcome : ∀ o, D.outcome o → o.Clean) : D.Within cleanFailures :=
  ⟨hturn, houtcome, fun _ _ _ _ => trivial⟩

namespace Ledger

variable {l l' : Ledger} {m : Move} {m₀ : SortedMap ℕ Bytes} {t : ℕ}

/-- A write that has not landed is unseen, and one that has is stored until it is acked. -/
structure Kept (l : Ledger) : Prop where
  unseen : ∀ t w, l.writes.get? t = some w → w.stage ≠ .landed → l.Unseen t
  landed : ∀ t w, l.writes.get? t = some w → w.stage = .landed →
    l.items.get? t = some w.value ∨ Deleted l.log t
  returned : ∀ k t v, .pushOk k t v ∈ thisSession l.log →
    l.writes.get? t = none ∧ t < l.inner.tail ∧
      (l.items.get? t = some v ∨ Deleted l.log t)

/-- Stored or deleted is kept by every move but a commit of the same seq. -/
theorem stored_or_deleted (hwf : l.Wf) (hclean : cleanFailures.move l m) (hm : Moved l m l')
    (hput : ∀ durable o, m ≠ .put t durable o) {v : Bytes}
    (h : l.items.get? t = some v ∨ Deleted l.log t) :
    l'.items.get? t = some v ∨ Deleted l'.log t := by
  rcases h with h | h
  · rcases hwf.item_stays hm h with hstays | ⟨w, durable, o, heq, -⟩ |
      ⟨g, gd, o, rfl, hg, hpc, happ, rfl⟩
    · exact Or.inl hstays
    · exact absurd heq (hput durable o)
    · have hok : o.isOk = true := Outcome.Clean.isOk_of_applies hclean.2 happ
      exact Or.inr ((moved_deleted hm).mpr (Or.inr ⟨g, gd, o, rfl, hg, hpc, hok, rfl⟩))
  · exact Or.inr (deleted_mono hm h)

theorem kept_opened {b : Builder} (h : FreshLedger b l) : l.Kept := by
  rw [h.opened]
  exact ⟨fun _ _ hw => (by cases hw), fun _ _ hw => (by cases hw), fun _ _ _ hp => (by cases hp)⟩

/-- A write that is still committing is unseen. -/
theorem Kept.unseen_put (h : l.Kept) {durable : Bool} {o : Outcome}
    (hm : Moved l (.put t durable o) l') : l.Unseen t := by
  cases hm with
  | put hw hstage =>
    refine h.unseen t _ hw ?_
    rcases hstage with hs | hs <;> simp [hs]

theorem Kept.moved (h : l.Kept) (hcursor : l.Cursor) (hwf : l.Wf) (hclean : cleanFailures.move l m)
    (hm : Moved l m l') : l'.Kept := by
  have hunseen : ∀ {t}, l.Unseen t → (∀ durable o, m ≠ .put t durable o) → l'.Unseen t :=
    fun ht hput => ht.moved hwf hm fun durable o heq => absurd heq (hput durable o)
  have hkept : ∀ t v, (∀ durable o, m ≠ .put t durable o) →
      l.items.get? t = some v ∨ Deleted l.log t → l'.items.get? t = some v ∨ Deleted l'.log t :=
    fun t v hput => stored_or_deleted hwf hclean hm hput
  have htail := tail_mono (Discipline.move_below hclean) hm
  refine ⟨fun t w hw hstage => ?_, fun t w hw hstage => ?_, fun k t v hp => ?_⟩
  · cases writeMoved hm hw with
    | stays hw₀ hput => exact hunseen (h.unseen t w hw₀ hstage) hput
    | claims => exact hunseen (hcursor.unseen_tail hwf) (by simp)
    | commits hw₀ hstage₀ durable o =>
      -- the commit failed, or the write would have landed
      refine (h.unseen_put hm).moved hwf hm fun d o' heq => ?_
      obtain rfl : o = o' := (Move.put.inj heq).2.2
      by_contra happ
      have hok : o.isOk = true := hclean.1.isOk_of_applies (Bool.not_eq_false _ ▸ happ)
      exact hstage (if_pos hok)
    | givesUp hw₀ htried => exact hunseen (h.unseen t _ hw₀ (by simp [htried])) (by simp)
  · cases writeMoved hm hw with
    | stays hw₀ hput => exact hkept t _ hput (h.landed t w hw₀ hstage)
    | claims | givesUp => cases hstage
    | commits hw₀ _ durable o =>
      have hok : o.isOk = true := by
        by_contra hfail
        simp [hfail] at hstage
      cases hm with
      | put hw₁ =>
        obtain rfl := Option.some.inj (hw₀.symm.trans hw₁)
        refine Or.inl ?_
        rw [get?_items_put (hwf.lt_u64Size (hwf.write_lt t _ hw₀)),
          if_pos ⟨Outcome.applies_of_isOk hok, rfl⟩]
  · rcases mem_session hm hp with hp | ⟨w, rfl, hw, hstage, -, rfl⟩
    · obtain ⟨hnone, hlt, hor⟩ := h.returned k t v hp
      refine ⟨writes_none hm hlt.ne hnone, hlt.trans_le htail, hkept t v (fun d o heq => ?_) hor⟩
      subst heq
      cases hm with
      | put hw =>
        rw [hw] at hnone
        cases hnone
    · refine ⟨?_, (hwf.write_lt t w hw).trans_le htail,
        hkept t _ (by simp) (h.landed t w hw hstage)⟩
      cases hm with
      | returned => exact SortedMap.get?_erase_self _ _

/-- Nothing is put back after its delete. -/
theorem Kept.not_deleted (h : l.Kept) (hm : Moved l m l') :
    ∀ t durable o, m = .put t durable o → o.applies = true → ¬Deleted l.log t := by
  rintro t durable o rfl -
  exact (h.unseen_put hm).not_deleted

/-- What was recovered or landed is stored or deleted, and what was deleted is recorded or
about to be. -/
structure Remains (m₀ : SortedMap ℕ Bytes) (l : Ledger) : Prop where
  recovered : ∀ t v, m₀.get? t = some v → l.items.get? t = some v ∨ Deleted l.log t
  landed : ∀ t v old, .put t v old true ∈ thisSession l.log →
    l.items.get? t = some v ∨ Deleted l.log t
  recorded : ∀ t, Deleted l.log t → .acked t ∈ thisSession l.log ∨
    ∃ g gd, l.guards.get? g = some gd ∧ gd.pc = .deleted ∧ gd.seq = t

theorem remains_opened {b : Builder} (h : FreshLedger b l) : l.Remains l.items := by
  refine ⟨fun t v ht => Or.inl ht, fun t v old hput => ?_, fun t hd => absurd hd (h.not_deleted t)⟩
  rw [h.thisSession_log] at hput
  cases hput

/-- An item that is stored or deleted is not about to be put. -/
theorem Kept.not_put (h : l.Kept) (hm : Moved l m l') {v : Bytes}
    (ht : l.items.get? t = some v ∨ Deleted l.log t) : ∀ durable o, m ≠ .put t durable o := by
  rintro durable o rfl
  have hunseen := h.unseen_put hm
  rcases ht with ht | hd
  · rw [hunseen.not_stored] at ht
    cases ht
  · exact hunseen.not_deleted hd

theorem Remains.moved (h : l.Remains m₀) (hkept : l.Kept) (hwf : l.Wf)
    (hclean : cleanFailures.move l m) (hm : Moved l m l') : l'.Remains m₀ := by
  have hstays : ∀ {t v}, l.items.get? t = some v ∨ Deleted l.log t →
      l'.items.get? t = some v ∨ Deleted l'.log t :=
    fun ht => stored_or_deleted hwf hclean hm (hkept.not_put hm ht) ht
  refine ⟨fun t v ht => hstays (h.recovered t v ht), fun t v old hput => ?_, fun t hd => ?_⟩
  · rcases mem_session hm hput with hput | ⟨w, durable, o, rfl, hw, rfl, -, happ, -⟩
    · exact hstays (h.landed t v old hput)
    · cases hm with
      | put hw' =>
        obtain rfl := Option.some.inj (hw.symm.trans hw')
        refine Or.inl ?_
        rw [get?_items_put (hwf.lt_u64Size (hwf.write_lt t w hw)), if_pos ⟨happ, rfl⟩]
  · rcases (moved_deleted hm).mp hd with hd | ⟨g, gd, o, rfl, hg, hpc, hok, rfl⟩
    · rcases h.recorded t hd with hacked | ⟨g, gd, hg, hpc, rfl⟩
      · exact Or.inl (session_mono hm hacked)
      · by_cases hrecord : m = .turn (.record g)
        · subst hrecord
          cases hm with
          | record hg' =>
            obtain rfl := Option.some.inj (hg.symm.trans hg')
            exact Or.inl (by simp)
        · exact Or.inr ⟨g, gd, guard_stays hm hg hpc hrecord, hpc, rfl⟩
    · cases hm with
      | remove hg' hpc' o =>
        obtain rfl := Option.some.inj (hg.symm.trans hg')
        exact Or.inr ⟨g, _, SortedMap.get?_insert_self _ _ _, by simp [hok], rfl⟩

/-- A write that has not landed is not below the head. -/
theorem Kept.head_le (h : l.Kept) (hcursor : l.Cursor) {w : Write} (hw : l.writes.get? t = some w)
    (hstage : w.stage ≠ .landed) : l.inner.head ≤ t := by
  by_contra hlt
  rcases hcursor.crossed t (not_le.mp hlt) with hd | ⟨-, hnone⟩
  · exact (h.unseen t w hw hstage).not_deleted hd
  · rw [hw] at hnone
    cases hnone

end Ledger

/-- In every run with clean failures the head stands for committed deletes, and writes are
kept. -/
theorem Opens.kept {b : Builder} {st : Store} {s₀ s : Session} {as : List Act}
    (h : Opens b st s₀) (hrun : Run Session.step cleanFailures.act s₀ as s) :
    s.toLedger.Cursor ∧ s.toLedger.Kept := by
  refine (h.invariant (I := fun l => l.Cursor ∧ l.Kept) hrun (fun l hl => ⟨?_, ?_⟩)
    fun l m l' hwf hl hclean hm => ?_).1
  · exact Ledger.cursor_opened hl
  · exact Ledger.kept_opened hl
  · exact ⟨hl.1.moved hwf (Discipline.move_below hclean) hm (hl.2.not_deleted hm),
      hl.2.moved hl.1 hwf hclean hm⟩

/-- **No item is lost inside a session.** In every state of every run with clean failures:
nothing that is stored is below the head, nothing that is claimed and has not landed is,
and an item whose push returned `Ok` is stored at or above the head, or an ack has
committed its delete. -/
theorem no_item_lost {b : Builder} {st : Store} {s₀ s : Session} {as : List Act}
    (hopen : Opens b st s₀) (hrun : Run Session.step cleanFailures.act s₀ as s) :
    (∀ t v, s.items.get? t = some v → s.inner.head ≤ t) ∧
    (∀ t w, s.writes.get? t = some w → w.stage ≠ .landed → s.inner.head ≤ t) ∧
    ∀ k t v, .pushOk k t v ∈ thisSession s.log →
      (s.items.get? t = some v ∧ s.inner.head ≤ t) ∨ Deleted s.log t := by
  obtain ⟨hcursor, hkept⟩ := hopen.kept hrun
  refine ⟨fun t v ht => hcursor.head_le ht, fun t w hw hstage => hkept.head_le hcursor hw hstage,
    fun k t v hp => ?_⟩
  exact (hkept.returned k t v hp).2.2.imp (fun ht => ⟨ht, hcursor.head_le ht⟩) id

/-- The item of a second producer is handed out and acked while the first one is still
committing; then the first commit fails. -/
theorem no_item_lost_slow_producer :
    ∃ s, Run Session.step cleanFailures.act (Session.fresh .default64)
      [.turn (.call [1] true), .turn (.call [2] false), .turn (.attempt 1), .turn (.attempt 2),
        .commit 1 .ok, .turn (.reserve 0), .turn (.seek 0 true), .turn (.check 0 0),
        .turn (.ack 0 .ok), .turn (.record 0), .commit 0 .errClean, .turn (.giveBack 0)] s ∧
    (∀ t v, s.items.get? t = some v → s.inner.head ≤ t) ∧
    (∀ t w, s.writes.get? t = some w → w.stage ≠ .landed → s.inner.head ≤ t) ∧
    ∀ k t v, .pushOk k t v ∈ thisSession s.log →
      (s.items.get? t = some v ∧ s.inner.head ≤ t) ∨ Deleted s.log t := by
  refine Exists.imp (fun s hrun => ⟨hrun, no_item_lost (opens_fresh _) hrun⟩) ?_
  exact Run.exists_of_exec (by decide)

end PersistentQueue
