import PersistentQueue.AckFinal
import PersistentQueue.Delivery

/-!
# What a crash leaves

With durable pushes and durable acks the history tells what is stored, in every session and
after every crash. An item whose push returned `Ok` is stored as long as no ack's delete has
taken effect on it (`Due`), and once an ack has committed its delete the seq has no entry until
a push claims it again (`Gone`). Between the two is only an ack whose delete took effect in a
commit that failed.

`settled` has both, for runs in which no retry of a failed batch puts an entry back after its
delete. The first goes beyond at-least-once delivery: an item stays also when acks are called
on it and fail. The second takes the finality of acks from one session to all.
-/

namespace PersistentQueue

/-- The delete of an ack took effect on the item: after the push claimed the seq. -/
def RemovedSince (log : List Event) (k t : ℕ) (v : Bytes) : Prop :=
  ∃ v' old ok, Earlier (.claimed k t v) (.removed t v' old ok) log

/-- The push of the item returned `Ok`, and no delete has taken effect on it. -/
def Due (log : List Event) (k t : ℕ) (v : Bytes) : Prop :=
  .pushOk k t v ∈ log ∧ ¬RemovedSince log k t v

/-- An ack of the seq has committed its delete, and no push has claimed the seq since. -/
def Gone (log : List Event) (t : ℕ) : Prop :=
  ∃ post pre v old, log = post ++ .removed t v old true :: pre ∧ ∀ k v', .claimed k t v' ∉ post

/-- Any number of sessions with durable pushes and durable acks, in which no retry takes effect
after an ack has committed the delete of its seq. -/
def durableBoth : Regime where
  session := retriesInTime
  opens b _ _ := b.ackDurable = true

instance (w : World) : DecidablePred (durableBoth.deed w) :=
  durableBoth.decideDeed (fun s => inferInstanceAs (DecidablePred (retriesInTime.act s)))
    (fun b _ _ => inferInstanceAs (Decidable (b.ackDurable = true))) w

section

variable {log es : List Event} {e : Event} {k t : ℕ} {v : Bytes}

theorem RemovedSince.append (h : RemovedSince log k t v) : RemovedSince (es ++ log) k t v := by
  obtain ⟨v', old, ok, h⟩ := h
  exact ⟨v', old, ok, h.append⟩

/-- A seq is gone since the latest events, or it was gone before. -/
theorem Gone.of_append (h : Gone (es ++ log) t) :
    (∃ v old, .removed t v old true ∈ es) ∨ Gone log t := by
  induction es with
  | nil => exact Or.inr h
  | cons x es ih =>
    obtain ⟨post, pre, v, old, heq, hpost⟩ := h
    rcases post with _ | ⟨y, post⟩
    · obtain ⟨rfl, -⟩ := List.cons.inj heq
      exact Or.inl ⟨v, old, List.mem_cons_self⟩
    · obtain ⟨-, heq⟩ := List.cons.inj heq
      have hrest : Gone (es ++ log) t :=
        ⟨post, pre, v, old, heq, fun k v' hk => hpost k v' (List.mem_cons_of_mem _ hk)⟩
      refine (ih hrest).imp_left ?_
      rintro ⟨v, old, hmem⟩
      exact ⟨v, old, List.mem_cons_of_mem _ hmem⟩

/-- What belongs to this session is new, or the session began before. -/
theorem mem_session_append (h : e ∈ thisSession (es ++ log)) :
    e ∈ es ∨ ∀ x ∈ es, x ≠ .opened := by
  induction es with
  | nil => exact Or.inr fun x hx => by cases hx
  | cons x es ih =>
    by_cases hx : x = .opened
    · subst hx
      cases h
    · rw [List.cons_append, thisSession_cons hx] at h
      rcases List.mem_cons.mp h with rfl | h
      · exact Or.inl List.mem_cons_self
      · rcases ih h with hmem | hall
        · exact Or.inl (List.mem_cons_of_mem _ hmem)
        · refine Or.inr fun y hy => ?_
          rcases List.mem_cons.mp hy with rfl | hy
          · exact hx
          · exact hall y hy

/-- A seq that was claimed in this session and is gone was deleted in this session. -/
theorem Gone.deleted (h : Gone log t) (hclaimed : .claimed k t v ∈ thisSession log) :
    Deleted log t := by
  obtain ⟨post, pre, v', old, rfl, hpost⟩ := h
  rcases mem_session_append hclaimed with hmem | hall
  · exact absurd hmem (hpost k v)
  · refine ⟨v', old, ?_⟩
    rw [Ledger.thisSession_append hall, thisSession_cons (by simp)]
    exact List.mem_append_right _ List.mem_cons_self

end

namespace Ledger

variable {l l' : Ledger} {m : Move} {k t : ℕ} {v : Bytes}

/-- What is due is pinned in the store, and what is gone is pinned as absent. -/
structure Settled (l : Ledger) : Prop where
  ackDurable : l.cfg.ackDurable = true
  claimed : ∀ k t v, .pushOk k t v ∈ l.log → .claimed k t v ∈ l.log
  claimed_now : ∀ t w, l.writes.get? t = some w → .claimed w.call t w.value ∈ thisSession l.log
  landed : ∀ t w, l.writes.get? t = some w → w.stage = .landed →
    RemovedSince l.log w.call t w.value ∨ l.store.Pinned (entryKey t) (some w.value)
  due : ∀ k t v, Due l.log k t v → l.store.Pinned (entryKey t) (some v)
  due_lt : ∀ k t v, Due l.log k t v → t < l.inner.tail
  returned : ∀ k t v, Due l.log k t v → l.writes.get? t = none
  gone : ∀ t, Gone l.log t → t < u64Size ∧ l.store.Pinned (entryKey t) none

theorem Settled.durable (h : l.Settled) : l.cfg.durability.durable = true :=
  (Bool.and_eq_true_iff.mp h.ackDurable).1

/-- What is stored when no queue is open. -/
structure SettledStore (st : Store) (log : List Event) : Prop where
  claimed : ∀ k t v, .pushOk k t v ∈ log → .claimed k t v ∈ log
  due : ∀ k t v, Due log k t v → t < u64Max ∧ st.Pinned (entryKey t) (some v)
  gone : ∀ t, Gone log t → t < u64Size ∧ st.Pinned (entryKey t) none

theorem settled_empty : SettledStore Store.empty [] where
  claimed := fun _ _ _ h => by cases h
  due := fun _ _ _ h => by cases h.1
  gone := fun _ h => by
    obtain ⟨post, pre, v, old, heq, -⟩ := h
    cases post <;> cases heq

theorem SettledStore.meta_commit {st : Store} {log : List Event} (h : SettledStore st log)
    (durable : Bool) (o : Outcome) :
    SettledStore (st.commit [Op.put metaKey [formatVersion]] durable o) log := by
  have hmeta : ∀ {t c}, st.Pinned (entryKey t) c →
      (st.commit [Op.put metaKey [formatVersion]] durable o).Pinned (entryKey t) c :=
    fun hpin => Store.pinned_commit hpin fun _ heq => absurd heq.symm (entryKey_ne_metaKey _)
  exact { h with
    due := fun k t v hdue => ⟨(h.due k t v hdue).1, hmeta (h.due k t v hdue).2⟩
    gone := fun t hgone => ⟨(h.gone t hgone).1, hmeta (h.gone t hgone).2⟩ }

theorem SettledStore.crash {st : Store} {log : List Event} (h : SettledStore st log)
    (kept : List Bool) : SettledStore (st.crash kept) log :=
  { h with
    due := fun k t v hdue => ⟨(h.due k t v hdue).1, (h.due k t v hdue).2.crash kept⟩
    gone := fun t hgone => ⟨(h.gone t hgone).1, (h.gone t hgone).2.crash kept⟩ }

theorem Settled.store (h : l.Settled) (hwf : l.Wf) : SettledStore l.store l.log where
  claimed := h.claimed
  due := fun k t v hdue => ⟨hwf.lt_u64Max (h.due_lt k t v hdue), h.due k t v hdue⟩
  gone := h.gone

/-- An open finds everything that is due. -/
theorem settled_opened {b : Builder} (hfresh : FreshLedger b l) (hb : b.ackDurable = true)
    (h : SettledStore l.store l.log.tail) : l.Settled := by
  have hl := hfresh.opened
  have hlog : l.log = [.opened] ++ l.log.tail := by
    rw [hl]
    rfl
  have hmem : ∀ {e : Event}, e ≠ .opened → (e ∈ l.log ↔ e ∈ l.log.tail) := by
    intro e he
    rw [hlog, List.mem_append, List.mem_singleton]
    simp [he]
  have hdue : ∀ {k t v}, Due l.log k t v → Due l.log.tail k t v := by
    rintro k t v ⟨hpush, hnot⟩
    refine ⟨(hmem (by simp)).mp hpush, fun hremoved => hnot ?_⟩
    rw [hlog]
    exact hremoved.append
  refine
    { ackDurable := ?_, claimed := fun k t v hk => ?_, claimed_now := fun t w hw => ?_
      landed := fun t w hw => ?_, due := fun k t v hk => (h.due k t v (hdue hk)).2
      due_lt := fun k t v hk => ?_, returned := fun k t v _ => ?_, gone := fun t ht => ?_ }
  · rw [hfresh.cfg_eq]
    exact hb
  · exact (hmem (by simp)).mpr (h.claimed k t v ((hmem (by simp)).mp hk))
  · rw [hl] at hw
    cases hw
  · rw [hl] at hw
    cases hw
  · obtain ⟨hlt, hpin⟩ := h.due k t v (hdue hk)
    refine hfresh.recovered.lt_tail t v ?_
    rw [items, get?_items (lt_u64Size_of_lt_u64Max hlt)]
    exact hpin.live
  · rw [hl]
    rfl
  · rw [hlog] at ht
    rcases ht.of_append with ⟨v, old, hnew⟩ | hold
    · cases List.mem_singleton.mp hnew
    · exact h.gone t hold

/-! ## A move -/

/-- A delete that takes effect is on whatever has claimed its seq. -/
theorem removedSince_of_remove {g : ℕ} {gd : Guard} {o : Outcome} (ho : o.applies = true)
    (hclaimed : .claimed k gd.seq v ∈ l.log) :
    RemovedSince (l.remove g gd o).log k gd.seq v := by
  simp only [remove, ho, if_true]
  exact ⟨_, _, _, Earlier.of_mem (List.mem_cons_of_mem _ hclaimed)⟩

theorem removedSince_mono (hm : Moved l m l') (h : RemovedSince l.log k t v) :
    RemovedSince l'.log k t v := by
  obtain ⟨es, heq, -⟩ := moved_log hm
  rw [heq]
  exact h.append

/-- A pinned item stays pinned until a delete takes effect on it or it is put again. -/
theorem removed_or_pinned (hwf : l.Wf) (hm : Moved l m l') (ht : t < u64Size)
    (hput : ∀ durable o, m ≠ .put t durable o) (hclaimed : .claimed k t v ∈ l.log)
    (h : RemovedSince l.log k t v ∨ l.store.Pinned (entryKey t) (some v)) :
    RemovedSince l'.log k t v ∨ l'.store.Pinned (entryKey t) (some v) := by
  rcases h with h | h
  · exact Or.inl (removedSince_mono hm h)
  · cases hm with
    | @put seq w hw hstage durable o =>
      refine Or.inr (Store.pinned_commit h fun _ heq => ?_)
      have hseq := hwf.lt_u64Size (hwf.write_lt seq w hw)
      obtain rfl := (entryKey_inj hseq ht).mp heq
      exact absurd rfl (hput durable o)
    | @remove g gd hg hpc o =>
      by_cases hand : o.applies = true ∧ gd.seq = t
      · obtain ⟨ho, rfl⟩ := hand
        exact Or.inl (removedSince_of_remove ho hclaimed)
      · refine Or.inr (Store.pinned_commit h fun ho hkey => ?_)
        exact absurd ⟨ho, (entryKey_inj (hwf.lt_u64Size (hwf.guard_lt g gd hg)) ht).mp hkey⟩ hand
    | call | turnedAway | waits | claim | giveBack | close | reserve | ended | found | skipped
    | handedOut | record | release | returned | gaveUp => exact Or.inr h

/-- An item that is due after a move was due before, or its push returns. -/
theorem of_due (hm : Moved l m l') (h : Due l'.log k t v) :
    Due l.log k t v ∨ ∃ w, m = .returned t ∧ l.writes.get? t = some w ∧ w.stage = .landed ∧
      k = w.call ∧ v = w.value ∧ ¬RemovedSince l.log k t v := by
  obtain ⟨hpush, hnot⟩ := h
  have hnot : ¬RemovedSince l.log k t v := fun hremoved => hnot (removedSince_mono hm hremoved)
  rcases mem_log hm hpush with hpush | ⟨w, hturn, hw, hstage, hk, hv⟩
  · exact Or.inl ⟨hpush, hnot⟩
  · exact Or.inr ⟨w, hturn, hw, hstage, hk, hv, hnot⟩

/-- What is due stays pinned, and its push does not come back. -/
theorem Settled.due_moved (h : l.Settled) (hwf : l.Wf) (hsourced : l.Sourced)
    (hm : Moved l m l') (hdue : Due l'.log k t v) :
    t < l.inner.tail ∧ l'.store.Pinned (entryKey t) (some v) ∧ l'.writes.get? t = none := by
  rcases of_due hm hdue with hold | ⟨w, rfl, hw, hstage, rfl, rfl, -⟩
  · have hlt := h.due_lt k t v hold
    have hnone := h.returned k t v hold
    have hput : ∀ durable o, m ≠ .put t durable o := by
      rintro durable o rfl
      cases hm with
      | put hw =>
        rw [hw] at hnone
        cases hnone
    refine ⟨hlt, ?_, writes_none hm hlt.ne hnone⟩
    exact (removed_or_pinned hwf hm (hwf.lt_u64Size hlt) hput (h.claimed k t v hold.1)
      (Or.inr (h.due k t v hold))).resolve_left hdue.2
  · have hlt := hwf.write_lt t w hw
    refine ⟨hlt, ?_, ?_⟩
    · exact (removed_or_pinned hwf hm (hwf.lt_u64Size hlt) (by simp) (hsourced.write t w hw)
        (h.landed t w hw hstage)).resolve_left hdue.2
    · cases hm with
      | returned => exact SortedMap.get?_erase_self _ _

/-- A write that has landed is removed or pinned. -/
theorem Settled.landed_moved (h : l.Settled) (hwf : l.Wf) (hsourced : l.Sourced)
    (hm : Moved l m l') : ∀ t w, l'.writes.get? t = some w → w.stage = .landed →
      RemovedSince l'.log w.call t w.value ∨ l'.store.Pinned (entryKey t) (some w.value) := by
  intro t w hw hstage
  cases writeMoved hm hw with
  | stays hw₀ hput =>
    exact removed_or_pinned hwf hm (hwf.lt_u64Size (hwf.write_lt t w hw₀)) hput
      (hsourced.write t w hw₀) (h.landed t w hw₀ hstage)
  | claims | givesUp => cases hstage
  | commits hw₀ _ durable o =>
    -- the commit that landed it was durable
    obtain rfl : o = .ok := by
      cases o with
      | ok => rfl
      | err applied => cases hstage
    cases hm with
    | put hw₁ _ _ _ hdurable =>
      obtain rfl := Option.some.inj (hw₀.symm.trans hw₁)
      rw [h.durable] at hdurable
      subst hdurable
      exact Or.inr (Store.pinned_commit_ok l.store (.put (entryKey t) _))

/-- What is gone stays gone: a write of its seq was claimed before the delete, in this session,
and is too late. -/
theorem Settled.gone_moved (h : l.Settled) (hwf : l.Wf) (hm : Moved l m l')
    (hlate : ∀ t durable o, m = .put t durable o → o.applies = true → ¬Deleted l.log t)
    (hgone : Gone l'.log t) : t < u64Size ∧ l'.store.Pinned (entryKey t) none := by
  obtain ⟨es, heq, hes⟩ := moved_log hm
  rw [heq] at hgone
  rcases hgone.of_append with ⟨v, old, hnew⟩ | hold
  · obtain ⟨g, gd, o, rfl, hg, -, rfl, -, -, -, hok⟩ := hes _ hnew
    cases hm with
    | remove hg' hpc o =>
      obtain rfl := Option.some.inj (hg.symm.trans hg')
      obtain rfl : o = .ok := by
        cases o with
        | ok => rfl
        | err => cases hok
      refine ⟨hwf.lt_u64Size (hwf.guard_lt _ _ hg), ?_⟩
      simp only [remove, h.ackDurable]
      exact Store.pinned_commit_ok l.store (.delete (entryKey gd.seq))
  · obtain ⟨hlt, hpin⟩ := h.gone t hold
    refine ⟨hlt, ?_⟩
    cases hm with
    | @put seq w hw hstage durable o =>
      refine Store.pinned_commit hpin fun ho hkey => ?_
      obtain rfl := (entryKey_inj (hwf.lt_u64Size (hwf.write_lt seq w hw)) hlt).mp hkey
      exact absurd (hold.deleted (h.claimed_now _ _ hw)) (hlate _ durable o rfl ho)
    | remove => exact Store.pinned_commit hpin fun _ _ => rfl
    | call | turnedAway | waits | claim | giveBack | close | reserve | ended | found | skipped
    | handedOut | record | release | returned | gaveUp => exact hpin

theorem Settled.moved (h : l.Settled) (hwf : l.Wf) (hsourced : l.Sourced) (hbelow : l.Below m)
    (hm : Moved l m l')
    (hlate : ∀ t durable o, m = .put t durable o → o.applies = true → ¬Deleted l.log t) :
    l'.Settled where
  ackDurable := by
    rw [cfg_moved hm]
    exact h.ackDurable
  claimed := by
    intro k t v hk
    rcases mem_log hm hk with hk | ⟨w, -, hw, -, rfl, rfl⟩
    · exact log_mono hm (h.claimed k t v hk)
    · exact log_mono hm (hsourced.write t w hw)
  claimed_now := by
    intro t w hw
    rcases of_writes hm hw with ⟨w₀, hold, hcall, hvalue⟩ | ⟨k, c, -, -, rfl, rfl, rfl⟩
    · rw [hcall, hvalue]
      exact session_mono hm (h.claimed_now t w₀ hold)
    · simp only [claim]
      rw [thisSession_cons (by simp)]
      exact List.mem_cons_self
  landed := h.landed_moved hwf hsourced hm
  due := fun k t v hdue => (h.due_moved hwf hsourced hm hdue).2.1
  due_lt := fun k t v hdue =>
    (h.due_moved hwf hsourced hm hdue).1.trans_le (tail_mono hbelow hm)
  returned := fun k t v hdue => (h.due_moved hwf hsourced hm hdue).2.2
  gone := fun t hgone => h.gone_moved hwf hm hlate hgone

end Ledger

/-- **The history tells what is stored.** Over any number of sessions with durable pushes and
durable acks, ended by drops and crashes at any step, with any commit failing with any part
applied: an item whose push returned `Ok` is stored until a delete takes effect on it, and a
seq whose delete was committed has no entry until a push claims it again. -/
theorem settled {ds : List Deed} {w : World}
    (hrun : Run World.step durableBoth.deed World.start ds w) :
    (∀ k t v, Due w.log k t v → (items w.store.live).get? t = some v) ∧
      ∀ t, Gone w.log t → (items w.store.live).get? t = none := by
  have hall := World.invariant (I := fun l => (l.Cursor ∧ l.Final) ∧ l.Settled)
    (J := Ledger.SettledStore) hrun Ledger.settled_empty
    (fun _ _ d o h => h.meta_commit d o)
    (fun b l hfresh _ hb h => ⟨⟨Ledger.cursor_opened hfresh, Ledger.final_opened hfresh⟩,
      Ledger.settled_opened hfresh hb h⟩)
    (fun l m l' hwf hsourced ⟨⟨hcursor, hfinal⟩, h⟩ hmove hm => by
      have hbelow := Discipline.move_below hmove
      have hlate := hfinal.not_deleted hm hmove
      exact ⟨⟨hcursor.moved hwf hbelow hm hlate, hfinal.moved hcursor hwf hmove hm⟩,
        h.moved hwf hsourced hbelow hm hlate⟩)
    (fun l hwf _ h => h.2.store hwf) fun _ _ kept h => h.crash kept
  have hstore : Ledger.SettledStore w.store w.log := by
    cases w with
    | closed st log => exact hall.2
    | running s => exact hall.2.2.2.store hall.1.wf
  refine ⟨fun k t v hdue => ?_, fun t hgone => ?_⟩
  · obtain ⟨hlt, hpin⟩ := hstore.due k t v hdue
    rw [get?_items (lt_u64Size_of_lt_u64Max hlt)]
    exact hpin.live
  · obtain ⟨hlt, hpin⟩ := hstore.gone t hgone
    rw [get?_items hlt]
    exact hpin.live

/-- One item is removed, the ack of another one fails, and the batch of a third one fails after
it was applied when the crash comes; then the second one is acked once more. -/
theorem settled_crash :
    ∃ w, Run World.step durableBoth.deed World.start
      [.open Builder.default64 none, .act (.turn (.call [1] true)), .act (.turn (.attempt 1)),
        .act (.commit 0 .ok), .act (.turn (.call [2] true)), .act (.turn (.attempt 5)),
        .act (.commit 1 .ok), .act (.turn (.reserve 0)), .act (.turn (.seek 0 true)),
        .act (.turn (.check 0 0)), .act (.turn (.ack 0 .ok)), .act (.turn (.record 0)),
        .act (.turn (.reserve 0)), .act (.turn (.seek 0 true)), .act (.turn (.check 0 0)),
        .act (.turn (.ack 0 .errClean)), .crash [false], .open Builder.group64 none,
        .act (.turn (.call [3] true)), .act (.turn (.attempt 16)), .act (.enter 2),
        .act (.flush 2 (.err [true])), .crash [true], .open Builder.group64 none,
        .act (.turn (.reserve 0)), .act (.turn (.seek 0 true)), .act (.turn (.check 0 0)),
        .act (.turn (.ack 0 .ok))] w ∧
    (∀ k t v, Due w.log k t v → (items w.store.live).get? t = some v) ∧
      ∀ t, Gone w.log t → (items w.store.live).get? t = none := by
  refine Exists.imp (fun w hrun => ⟨hrun, settled hrun⟩) ?_
  exact Run.exists_of_exec (by decide)

end PersistentQueue
