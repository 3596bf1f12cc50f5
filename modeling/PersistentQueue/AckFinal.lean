import PersistentQueue.Cursor

/-!
# When an ack is final

A failing commit may have taken effect. Under `Group` the members of a batch that failed
then retry their own `Put`, and the entry may have been handed out and acked in between:
the retry puts it back, below `head`, where no reserve looks (`ack_not_final`).

Nothing else puts an acked entry back. In the runs in which no retry takes effect after an
ack has committed the delete of its seq, an acked item is gone for good, from the store,
and with durable acks from every store a crash can leave (`ack_final`).
-/

namespace PersistentQueue

/-- The runs in which no retry takes effect after the delete of its seq was committed. -/
def retriesInTime : Discipline where
  turn _ _ := True
  outcome _ := True
  retry l seq o := o.applies = true → ¬Deleted l.log seq
  split _ _ := ⟨trivial, trivial⟩

/-- Whether the event is the committed delete of an ack of the seq. -/
def Event.deletes (seq : ℕ) : Event → Bool
  | .removed t _ _ true => t == seq
  | _ => false

theorem deleted_iff {log : List Event} {seq : ℕ} :
    Deleted log seq ↔ (thisSession log).any (Event.deletes seq) = true := by
  rw [List.any_eq_true]
  constructor
  · rintro ⟨value, old, hmem⟩
    exact ⟨_, hmem, beq_self_eq_true seq⟩
  · rintro ⟨e, hmem, he⟩
    simp only [Event.deletes] at he
    split at he
    · next t value old =>
      obtain rfl := eq_of_beq he
      exact ⟨value, old, hmem⟩
    · cases he

instance (log : List Event) (seq : ℕ) : Decidable (Deleted log seq) :=
  decidable_of_iff _ deleted_iff.symm

instance (s : Session) : DecidablePred (retriesInTime.act s) :=
  retriesInTime.decideAct (fun _ _ => instDecidableTrue) (fun _ => instDecidableTrue)
    (fun l seq o => inferInstanceAs (Decidable (o.applies = true → ¬Deleted l.log seq))) s

namespace Ledger

variable {l l' : Ledger} {m : Move} {t : ℕ}

/-- A fresh write is unseen, and what a durable ack deleted stays away after a crash. -/
structure Final (l : Ledger) : Prop where
  unseen : ∀ t w, l.writes.get? t = some w → w.stage = .fresh → l.Unseen t
  pinned : l.cfg.ackDurable = true → ∀ t, Deleted l.log t → l.store.Pinned (entryKey t) none

theorem final_opened {b : Builder} (h : FreshLedger b l) : l.Final := by
  refine ⟨fun t w hw => ?_, fun _ t hd => absurd hd (h.not_deleted t)⟩
  rw [h.opened] at hw
  cases hw

/-- A commit puts no deleted entry back: a fresh write is unseen, and retries are in time. -/
theorem Final.not_deleted (h : l.Final) (hm : Moved l m l') (hmove : retriesInTime.move l m) :
    ∀ t durable o, m = .put t durable o → o.applies = true → ¬Deleted l.log t := by
  rintro t durable o rfl ho
  cases hm with
  | put hw hstage =>
    rcases hstage with hs | hs
    · exact (h.unseen t _ hw hs).not_deleted
    · exact hmove.2 _ hw hs ho

theorem Final.moved (h : l.Final) (hcursor : l.Cursor) (hwf : l.Wf)
    (hmove : retriesInTime.move l m) (hm : Moved l m l') : l'.Final := by
  have hunseen : ∀ {t}, l.Unseen t → (∀ durable o, m ≠ .put t durable o) → l'.Unseen t :=
    fun ht hput => ht.moved hwf hm fun durable o heq => absurd heq (hput durable o)
  refine ⟨fun t w hw hstage => ?_, fun hdurable t hd => ?_⟩
  · cases writeMoved hm hw with
    | stays hw₀ hput => exact hunseen (h.unseen t w hw₀ hstage) hput
    | claims => exact hunseen (hcursor.unseen_tail hwf) (by simp)
    | commits _ _ _ o => cases hok : o.isOk <;> simp [hok] at hstage
    | givesUp => cases hstage
  · rw [cfg_moved hm] at hdurable
    have hlt : ∀ {t}, Deleted l.log t → t < u64Size :=
      fun hd => hwf.lt_u64Size (hcursor.deleted_lt _ hd)
    rcases (moved_deleted hm).mp hd with hdel | ⟨g, gd, o, rfl, hg, -, hok, rfl⟩
    · have hpin := h.pinned hdurable t hdel
      cases hm with
      | @put seq w hw hstage durable o hdur =>
        refine Store.pinned_commit hpin fun ho heq => ?_
        obtain rfl := (entryKey_inj (hwf.lt_u64Size (hwf.write_lt seq w hw)) (hlt hdel)).mp heq
        exact absurd hdel (h.not_deleted (.put hw hstage durable o hdur) hmove _ durable o rfl ho)
      | remove => exact Store.pinned_commit hpin fun _ _ => rfl
      | call | turnedAway | waits | claim | giveBack | close | reserve | ended | found | skipped
      | handedOut | record | release | returned | gaveUp => exact hpin
    · cases hm with
      | remove hg' hpc o =>
        obtain rfl := Option.some.inj (hg.symm.trans hg')
        obtain rfl : o = .ok := by
          cases o with
          | ok => rfl
          | err => cases hok
        simp only [remove, hdurable]
        exact Store.pinned_commit_ok l.store (.delete (entryKey gd.seq))

end Ledger

/-- Acks are final: an acked item is not stored, no stored item is out of sight below the
head, and with durable acks no crash and reopen brings an acked item back. -/
structure AckFinal (s : Session) : Prop where
  gone : ∀ t, .acked t ∈ thisSession s.log → s.items.get? t = none
  visible : ∀ t v, s.items.get? t = some v → s.inner.head ≤ t
  durable : s.cfg.ackDurable = true → ∀ t, .acked t ∈ thisSession s.log →
    ∀ kept b fault fuel st' r, Builder.open b (s.store.crash kept) fault fuel = some (st', r) →
      (items st'.live).get? t = none

/-- **Acks are final while retries are in time.** Any interleaving, any commit failing with
any part of it applied. -/
theorem ack_final {b : Builder} {st : Store} {s₀ s : Session} {as : List Act}
    (hopen : Opens b st s₀) (hrun : Run Session.step retriesInTime.act s₀ as s) : AckFinal s := by
  obtain ⟨⟨hcursor, hfinal⟩, hcoupled⟩ :=
    hopen.invariant (I := fun l => l.Cursor ∧ l.Final) hrun
      (fun l hl => ⟨Ledger.cursor_opened hl, Ledger.final_opened hl⟩)
      fun l m l' hwf hl hmove hm =>
        ⟨hl.1.moved hwf (Discipline.move_below hmove) hm (hl.2.not_deleted hm hmove),
          hl.2.moved hl.1 hwf hmove hm⟩
  refine ⟨fun t ht => hcursor.gone t (hcursor.acked_deleted t ht), fun t v ht => hcursor.head_le ht,
    fun hdurable t ht kept b fault fuel st' r hreopen => ?_⟩
  have hd := hcursor.acked_deleted t ht
  have hpin := (hfinal.pinned hdurable t hd).crash kept
  rw [(open_items hreopen).1, get?_items (hcoupled.wf.lt_u64Size (hcursor.deleted_lt t hd))]
  exact hpin.live

/-- A batch fails without effect; its retry lands, and the item is handed out and acked. -/
theorem ack_final_retry :
    ∃ s, Run Session.step retriesInTime.act (Session.fresh .group64)
      [.turn (.call [7] true), .turn (.attempt 1), .enter 0, .flush 0 .errClean, .record 0,
        .retry 0 .ok, .turn (.reserve 0), .turn (.seek 0 true), .turn (.check 0 0),
        .turn (.ack 0 .ok), .turn (.record 0)] s ∧ AckFinal s := by
  refine Exists.imp (fun s hrun => ⟨hrun, ack_final (opens_fresh _) hrun⟩) ?_
  exact Run.exists_of_exec (by decide)

/-- A push whose batch fails after it was applied. The item is handed out and acked, and then
the push retries. -/
def resurrection : List Act :=
  [.turn (.call [7] true), .turn (.attempt 1), .enter 0, .flush 0 (.err [true]),
    .turn (.reserve 0), .turn (.seek 0 true), .turn (.check 0 0), .turn (.ack 0 .ok),
    .turn (.record 0), .record 0, .retry 0 .ok]

/-- The retry puts an acked item back, below the head. -/
theorem ack_not_final :
    ∃ s, Run Session.step anyRun.act (Session.fresh .group64) resurrection s ∧
      .acked 0 ∈ thisSession s.log ∧ s.items.get? 0 = some [7] ∧ s.inner.head = 1 ∧
      ¬AckFinal s := by
  have hrun : ∃ s, Run Session.step anyRun.act (Session.fresh .group64) resurrection s ∧
      .acked 0 ∈ thisSession s.log ∧ s.items.get? 0 = some [7] ∧ s.inner.head = 1 :=
    Run.exists_of_exec_any (by decide)
  obtain ⟨s, hrun, hacked, hstored, hhead⟩ := hrun
  refine ⟨s, hrun, hacked, hstored, hhead, fun hfinal => ?_⟩
  rw [hfinal.gone 0 hacked] at hstored
  cases hstored

end PersistentQueue
