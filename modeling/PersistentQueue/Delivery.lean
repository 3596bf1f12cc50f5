import PersistentQueue.Lib.History
import PersistentQueue.World

/-!
# At-least-once delivery

An item is owed when its push has returned `Ok` and no ack was called on it. Under `Sync`
and `Group` an owed item is pinned in the store: the commit that landed it was durable, and
nothing is written to its key any more, since its seq stays below every later tail as long
as it is stored. So it survives every crash, every open finds it again, and `head` does not
cross it: `at_least_once`. Acks may be durable or not, commits may fail with any part
applied, and sessions may end at any step.
-/

namespace PersistentQueue

/-- An ack was called on the item: after the push claimed the seq. -/
def AckedSince (log : List Event) (k t : ℕ) (v : Bytes) : Prop :=
  Earlier (.claimed k t v) (.ackCalled t) log

/-- The push of the item returned `Ok`, and no ack was called on it. -/
def Owed (log : List Event) (k t : ℕ) (v : Bytes) : Prop :=
  .pushOk k t v ∈ log ∧ ¬AckedSince log k t v

/-- The item has not been written to since its push returned. -/
def Untouched (log : List Event) (k t : ℕ) (v : Bytes) : Prop :=
  ∀ value old ok, ¬Earlier (.pushOk k t v) (.put t value old ok) log

/-- Any number of sessions with durable pushes. -/
def durablePushes : Regime where
  session := anyRun
  opens b _ _ := b.durability.durable = true

instance (w : World) : DecidablePred (durablePushes.deed w) :=
  durablePushes.decideDeed (fun s => inferInstanceAs (DecidablePred (anyRun.act s)))
    (fun b _ _ => inferInstanceAs (Decidable (b.durability.durable = true))) w

namespace Ledger

variable {l l' : Ledger} {m : Move} {k t : ℕ} {v : Bytes}

theorem ackedSince_mono (hm : Moved l m l') (h : AckedSince l.log k t v) :
    AckedSince l'.log k t v := by
  obtain ⟨es, heq, -⟩ := moved_log hm
  rw [heq]
  exact Earlier.append h

/-- An ack is called on whatever has claimed its seq. -/
theorem ackedSince_of_ack {g : ℕ} {gd : Guard} {o : Outcome}
    (hm : Moved l (.turn (.ack g o)) l') (hg : l.guards.get? g = some gd)
    (hclaimed : .claimed k gd.seq v ∈ l.log) : AckedSince l'.log k gd.seq v := by
  cases hm with
  | remove hg' hpc o =>
    obtain rfl := Option.some.inj (hg.symm.trans hg')
    simp only [remove]
    split
    · exact Earlier.cons (Earlier.of_mem hclaimed)
    · exact Earlier.of_mem hclaimed

/-- A pinned item stays pinned until it is acked or put again. -/
theorem acked_or_pinned (hwf : l.Wf) (hm : Moved l m l') (ht : t < u64Size)
    (hput : ∀ durable o, m ≠ .put t durable o) (hclaimed : .claimed k t v ∈ l.log)
    (h : AckedSince l.log k t v ∨ l.store.Pinned (entryKey t) (some v)) :
    AckedSince l'.log k t v ∨ l'.store.Pinned (entryKey t) (some v) := by
  rcases h with h | h
  · exact Or.inl (ackedSince_mono hm h)
  · cases hm with
    | @put seq w hw hstage durable o =>
      refine Or.inr (Store.pinned_commit h fun _ heq => ?_)
      have hseq := hwf.lt_u64Size (hwf.write_lt seq w hw)
      obtain rfl := (entryKey_inj hseq ht).mp heq
      exact absurd rfl (hput durable o)
    | @remove g gd hg hpc o =>
      by_cases heq : gd.seq = t
      · subst heq
        exact Or.inl (ackedSince_of_ack (.remove hg hpc o) hg hclaimed)
      · refine Or.inr (Store.pinned_commit h fun _ hkey => ?_)
        exact absurd ((entryKey_inj (hwf.lt_u64Size (hwf.guard_lt g gd hg)) ht).mp hkey) heq
    | call | turnedAway | waits | claim | giveBack | close | reserve | ended | found | skipped
    | handedOut | record | release | returned | gaveUp => exact Or.inr h

/-- An item that is owed after a move was owed before, or its push returns. -/
theorem of_owed (hm : Moved l m l') (h : Owed l'.log k t v) :
    Owed l.log k t v ∨ ∃ w, m = .returned t ∧ l.writes.get? t = some w ∧ w.stage = .landed ∧
      k = w.call ∧ v = w.value ∧ ¬AckedSince l.log k t v := by
  obtain ⟨hpush, hnot⟩ := h
  have hnot : ¬AckedSince l.log k t v := fun hacked => hnot (ackedSince_mono hm hacked)
  rcases mem_log hm hpush with hpush | ⟨w, hturn, hw, hstage, hk, hv⟩
  · exact Or.inl ⟨hpush, hnot⟩
  · exact Or.inr ⟨w, hturn, hw, hstage, hk, hv, hnot⟩

/-- Owed items are pinned below the tail, and the head crosses acked seqs only. -/
structure Secured (l : Ledger) : Prop where
  durable : l.cfg.durability.durable = true
  claimed : ∀ k t v, .pushOk k t v ∈ l.log → .claimed k t v ∈ l.log
  acked_lt : ∀ t, .ackCalled t ∈ thisSession l.log → t < l.inner.tail
  acked_since : ∀ t, .ackCalled t ∈ thisSession l.log → ∀ k v, .claimed k t v ∈ l.log →
    AckedSince l.log k t v
  guard_acked : ∀ g gd, l.guards.get? g = some gd → gd.pc = .deleted →
    .ackCalled gd.seq ∈ thisSession l.log
  above_acked : ∀ t ∈ l.inner.ackedAbove, .ackCalled t ∈ thisSession l.log
  crossed : ∀ t, t < l.inner.head → .ackCalled t ∈ thisSession l.log ∨
    l.writes.get? t = none ∧ ∀ k v, ¬Owed l.log k t v
  landed : ∀ t w, l.writes.get? t = some w → w.stage = .landed →
    AckedSince l.log w.call t w.value ∨ l.store.Pinned (entryKey t) (some w.value)
  pinned : ∀ k t v, Owed l.log k t v → l.store.Pinned (entryKey t) (some v)
  owed_lt : ∀ k t v, Owed l.log k t v → t < l.inner.tail
  returned : ∀ k t v, Owed l.log k t v → l.writes.get? t = none
  untouched : ∀ k t v, Owed l.log k t v → Untouched l.log k t v

/-- The head is not above an owed item. -/
theorem Secured.head_le (h : l.Secured) (howed : Owed l.log k t v) : l.inner.head ≤ t := by
  by_contra hlt
  rcases h.crossed t (not_le.mp hlt) with hacked | ⟨-, hnone⟩
  · exact howed.2 (h.acked_since t hacked k v (h.claimed k t v howed.1))
  · exact hnone k v howed

theorem Secured.stored (h : l.Secured) (hwf : l.Wf) (howed : Owed l.log k t v) :
    l.items.get? t = some v := by
  rw [items, get?_items (hwf.lt_u64Size (h.owed_lt k t v howed))]
  exact (h.pinned k t v howed).live

/-- What is owed on the store when no queue is open. -/
structure Durable (st : Store) (log : List Event) : Prop where
  claimed : ∀ k t v, .pushOk k t v ∈ log → .claimed k t v ∈ log
  pinned : ∀ k t v, Owed log k t v → t < u64Max ∧ st.Pinned (entryKey t) (some v)
  untouched : ∀ k t v, Owed log k t v → Untouched log k t v

theorem durable_empty : Durable Store.empty [] where
  claimed := fun _ _ _ h => by cases h
  pinned := fun _ _ _ h => by cases h.1
  untouched := fun _ _ _ h => by cases h.1

theorem Durable.meta_commit {st : Store} {log : List Event} (h : Durable st log) (durable : Bool)
    (o : Outcome) : Durable (st.commit [Op.put metaKey [formatVersion]] durable o) log := by
  refine { h with pinned := fun k t v howed => ⟨(h.pinned k t v howed).1, ?_⟩ }
  refine Store.pinned_commit (h.pinned k t v howed).2 fun _ heq => ?_
  exact absurd heq.symm (entryKey_ne_metaKey t)

theorem Durable.crash {st : Store} {log : List Event} (h : Durable st log) (kept : List Bool) :
    Durable (st.crash kept) log :=
  { h with
    pinned := fun k t v howed => ⟨(h.pinned k t v howed).1, (h.pinned k t v howed).2.crash kept⟩ }

theorem Secured.durable_store (h : l.Secured) (hwf : l.Wf) : Durable l.store l.log where
  claimed := h.claimed
  pinned := fun k t v howed => ⟨hwf.lt_u64Max (h.owed_lt k t v howed), h.pinned k t v howed⟩
  untouched := h.untouched

/-- An open finds every owed item. -/
theorem secured_opened {b : Builder} (hfresh : FreshLedger b l) (hb : b.durability.durable = true)
    (h : Durable l.store l.log.tail) : l.Secured := by
  have hlog := hfresh.log_eq
  have hsession := hfresh.thisSession_log
  have howed : ∀ {k t v}, Owed l.log k t v → Owed l.log.tail k t v := by
    rintro k t v ⟨hpush, hnot⟩
    rw [hlog] at hpush hnot
    refine ⟨?_, fun hacked => hnot hacked.cons⟩
    simpa using hpush
  have hstored : ∀ {k t v}, Owed l.log k t v → l.items.get? t = some v := by
    intro k t v hk
    obtain ⟨hlt, hpin⟩ := h.pinned k t v (howed hk)
    rw [items, get?_items (lt_u64Size_of_lt_u64Max hlt)]
    exact hpin.live
  refine
    { durable := ?_, claimed := fun k t v hk => ?_, acked_lt := fun t ht => ?_
      acked_since := fun t ht => ?_, guard_acked := fun g gd hg => ?_
      above_acked := fun t ht => ?_, crossed := fun t ht => Or.inr ⟨?_, fun k v hk => ?_⟩
      landed := fun t w hw => ?_, pinned := fun k t v hk => (h.pinned k t v (howed hk)).2
      owed_lt := fun k t v hk => hfresh.recovered.lt_tail t v (hstored hk)
      returned := fun k t v hk => ?_, untouched := fun k t v hk value old ok hlate => ?_ }
  · rw [hfresh.cfg_eq]
    exact hb
  · rw [hlog] at hk ⊢
    exact List.mem_cons_of_mem _ (h.claimed k t v (by simpa using hk))
  · rw [hsession] at ht
    cases ht
  · rw [hsession] at ht
    cases ht
  · rw [hfresh.opened] at hg
    cases hg
  · rw [hfresh.recovered.ackedAbove_eq] at ht
    cases ht
  · rw [hfresh.opened]
    rfl
  · exact absurd ht (hfresh.recovered.head_le t v (hstored hk)).not_gt
  · rw [hfresh.opened] at hw
    cases hw
  · rw [hfresh.opened]
    rfl
  · rw [hlog] at hlate
    rcases Earlier.iff_cons.mp hlate with ⟨heq, -⟩ | hlate
    · cases heq
    · exact h.untouched k t v (howed hk) value old ok hlate

/-- A write that has landed is acked or pinned. -/
theorem Secured.landed_moved (h : l.Secured) (hwf : l.Wf) (hsourced : l.Sourced)
    (hm : Moved l m l') : ∀ t w, l'.writes.get? t = some w → w.stage = .landed →
      AckedSince l'.log w.call t w.value ∨ l'.store.Pinned (entryKey t) (some w.value) := by
  intro t w hw hstage
  cases writeMoved hm hw with
  | stays hw₀ hput =>
    exact acked_or_pinned hwf hm (hwf.lt_u64Size (hwf.write_lt t w hw₀)) hput
      (hsourced.write t w hw₀) (h.landed t w hw₀ hstage)
  | claims | givesUp => cases hstage
  | commits hw₀ _ durable o =>
    -- the commit that landed it was durable
    obtain rfl : o = .ok := by
      cases o with
      | ok => rfl
      | err applied => cases hstage
    cases hm with
    | put hw₁ _ _ _ hdurable =>
      obtain rfl := Option.some.inj (hw₀.symm.trans hw₁)
      rw [h.durable] at hdurable
      subst hdurable
      exact Or.inr (Store.pinned_commit_ok l.store (.put (entryKey t) _))

/-- The seqs below the head stay without an owed item. -/
theorem Secured.crossed_moved (h : l.Secured) (hwf : l.Wf) (hm : Moved l m l') :
    ∀ t, t < l'.inner.head → .ackCalled t ∈ thisSession l'.log ∨
      l'.writes.get? t = none ∧ ∀ k v, ¬Owed l'.log k t v := by
  intro t ht
  rcases hwf.of_head hm ht with hlt | hmem | ⟨g, gd, -, hg, hpc, rfl⟩
  · rcases h.crossed t hlt with hacked | ⟨hnone, howed⟩
    · exact Or.inl (session_mono hm hacked)
    · refine Or.inr ⟨writes_none hm (hlt.trans_le hwf.head_le).ne hnone, fun k v hk => ?_⟩
      rcases of_owed hm hk with hk | ⟨w, -, hw, -⟩
      · exact howed k v hk
      · rw [hw] at hnone
        cases hnone
  · exact Or.inl (session_mono hm (h.above_acked t hmem))
  · exact Or.inl (session_mono hm (h.guard_acked g gd hg hpc))

/-- What was acked in this session stays below the tail, and was acked after its claim. -/
theorem Secured.acked_moved (h : l.Secured) (hwf : l.Wf) (hbelow : l.Below m)
    (hm : Moved l m l') (hacked : .ackCalled t ∈ thisSession l'.log) :
    t < l'.inner.tail ∧ ∀ k v, .claimed k t v ∈ l'.log → AckedSince l'.log k t v := by
  rcases mem_session hm hacked with hacked | ⟨g, gd, o, rfl, hg, -, rfl⟩
  · have hlt := h.acked_lt t hacked
    refine ⟨hlt.trans_le (tail_mono hbelow hm), fun k v hclaimed => ?_⟩
    rcases mem_log hm hclaimed with hclaimed | ⟨c, -, -, rfl, -⟩
    · exact ackedSince_mono hm (h.acked_since t hacked k v hclaimed)
    · exact absurd hlt (lt_irrefl _)
  · refine ⟨(hwf.guard_lt g gd hg).trans_le (tail_mono hbelow hm), fun k v hclaimed => ?_⟩
    rcases mem_log hm hclaimed with hclaimed | ⟨c, hne, -⟩
    · exact ackedSince_of_ack hm hg hclaimed
    · cases hne

/-- A guard whose ack has deleted was acked. -/
theorem Secured.guard_acked_moved (h : l.Secured) (hm : Moved l m l') :
    ∀ g gd, l'.guards.get? g = some gd → gd.pc = .deleted →
      .ackCalled gd.seq ∈ thisSession l'.log := by
  intro g gd hg hpc
  rcases of_guard_deleted hm hg hpc with hold | ⟨gd₀, o, rfl, hg₀, -, -, hseq⟩
  · exact session_mono hm (h.guard_acked g gd hold hpc)
  · rw [hseq]
    cases hm with
    | remove hg' =>
      obtain rfl := Option.some.inj (hg₀.symm.trans hg')
      simp only [remove]
      split <;> simp

/-- The remembered acks were acked. -/
theorem Secured.above_acked_moved (h : l.Secured) (hwf : l.Wf) (hm : Moved l m l') :
    ∀ t ∈ l'.inner.ackedAbove, .ackCalled t ∈ thisSession l'.log := by
  intro t ht
  rcases hwf.of_above hm ht with hold | ⟨g, gd, -, hg, hpc, rfl⟩
  · exact session_mono hm (h.above_acked t hold)
  · exact session_mono hm (h.guard_acked g gd hg hpc)

theorem Secured.moved (h : l.Secured) (hwf : l.Wf) (hsourced : l.Sourced) (hbelow : l.Below m)
    (hm : Moved l m l') : l'.Secured := by
  have htail := tail_mono hbelow hm
  -- an owed item is not put and not acked, and a push that returns leaves a landed item
  have hpinned : ∀ {k t v}, Owed l'.log k t v → t < l.inner.tail ∧
      l'.store.Pinned (entryKey t) (some v) ∧ l'.writes.get? t = none ∧
      Untouched l'.log k t v := by
    intro k t v howed
    obtain ⟨es, heq, hes⟩ := moved_log hm
    rcases of_owed hm howed with hold | ⟨w, rfl, hw, hstage, rfl, rfl, hnot⟩
    · have hlt := h.owed_lt k t v hold
      have hnone := h.returned k t v hold
      have hput : ∀ durable o, m ≠ .put t durable o := by
        rintro durable o rfl
        cases hm with
        | put hw =>
          rw [hw] at hnone
          cases hnone
      refine ⟨hlt, ?_, writes_none hm hlt.ne hnone, fun value old ok hlate => ?_⟩
      · exact (acked_or_pinned hwf hm (hwf.lt_u64Size hlt) hput (h.claimed k t v hold.1)
          (Or.inr (h.pinned k t v hold))).resolve_left howed.2
      · rw [heq] at hlate
        rcases hlate.of_append with hlate | ⟨hnew, -⟩
        · exact h.untouched k t v hold value old ok hlate
        · obtain ⟨w, durable, o, hmove, -⟩ := hes _ hnew
          exact hput durable o hmove
    · have hclaimed := hsourced.write t w hw
      have hfirst : .pushOk w.call t w.value ∉ l.log := by
        intro hpush
        have hnone := h.returned w.call t w.value ⟨hpush, hnot⟩
        rw [hw] at hnone
        cases hnone
      refine ⟨hwf.write_lt t w hw, ?_, ?_, fun value old ok hlate => ?_⟩
      · exact (acked_or_pinned hwf hm (hwf.lt_u64Size (hwf.write_lt t w hw)) (by simp) hclaimed
          (h.landed t w hw hstage)).resolve_left howed.2
      · cases hm with
        | returned => exact SortedMap.get?_erase_self _ _
      · rw [heq] at hlate
        rcases hlate.of_append with hlate | ⟨hnew, -⟩
        · exact hfirst hlate.mem_left
        · obtain ⟨w', durable, o, hmove, -⟩ := hes _ hnew
          cases hmove
  refine
    { durable := ?_, claimed := fun k t v hk => ?_
      acked_lt := fun t ht => (h.acked_moved hwf hbelow hm ht).1
      acked_since := fun t ht => (h.acked_moved hwf hbelow hm ht).2
      guard_acked := fun g gd hg hpc => ?_, above_acked := fun t ht => ?_
      crossed := h.crossed_moved hwf hm, landed := h.landed_moved hwf hsourced hm
      pinned := fun k t v hk => (hpinned hk).2.1
      owed_lt := fun k t v hk => (hpinned hk).1.trans_le htail
      returned := fun k t v hk => (hpinned hk).2.2.1
      untouched := fun k t v hk => (hpinned hk).2.2.2 }
  · rw [cfg_moved hm]
    exact h.durable
  · rcases mem_log hm hk with hk | ⟨w, -, hw, -, rfl, rfl⟩
    · exact log_mono hm (h.claimed k t v hk)
    · exact log_mono hm (hsourced.write t w hw)
  · exact h.guard_acked_moved hm g gd hg hpc
  · exact h.above_acked_moved hwf hm t ht

end Ledger

/-- Every owed item is stored with its bytes, in sight of the scans, and as it was put. -/
structure Delivers (s : Session) : Prop where
  /-- it is stored -/
  stored : ∀ k t v, Owed s.log k t v → s.items.get? t = some v
  /-- it is at or above the head -/
  visible : ∀ k t v, Owed s.log k t v → s.inner.head ≤ t
  /-- no push has written to its seq since -/
  untouched : ∀ k t v, Owed s.log k t v → Untouched s.log k t v

/-- **At-least-once delivery.** Over any number of sessions with durable pushes, ended by
drops and crashes at any step, with any commit failing with any part applied: an item that
is owed is stored, visible and untouched in every state of every later session, and every
open counts all that is stored. -/
theorem at_least_once {ds : List Deed} {w : World}
    (hrun : Run World.step durablePushes.deed World.start ds w) :
    (∀ s, w = .running s → Delivers s) ∧
    ∀ b fault s, durablePushes.deed w (.open b fault) →
      w.step (.open b fault) = some (.running s) →
      Delivers s ∧ s.inner.len = s.items.size ∧
        s.inner.bytes = s.items.sum (fun _ v => v.length) % 2 ^ b.usizeBits := by
  have hall : ∀ {ds w}, Run World.step durablePushes.deed World.start ds w →
      w.Holds Ledger.Secured Ledger.Durable := by
    intro ds w hrun
    exact World.invariant hrun Ledger.durable_empty (fun _ _ d o h => h.meta_commit d o)
      (fun b l hfresh _ hb h => Ledger.secured_opened hfresh hb h)
      (fun l m l' hwf hsourced h hmove hm =>
        h.moved hwf hsourced (Discipline.move_below hmove) hm)
      (fun l hwf _ h => h.durable_store hwf) fun _ _ kept h => h.crash kept
  have hdelivers : ∀ {ds s}, Run World.step durablePushes.deed World.start ds (.running s) →
      Delivers s := by
    intro ds s hrun
    obtain ⟨hcoupled, -, hsecured⟩ := hall hrun
    exact ⟨fun k t v h => hsecured.stored hcoupled.wf h, fun k t v h => hsecured.head_le h,
      hsecured.untouched⟩
  refine ⟨fun s hw => hdelivers (hw ▸ hrun), fun b fault s hdeed hstep => ?_⟩
  refine ⟨hdelivers (hrun.snoc hdeed hstep), ?_⟩
  cases w with
  | running s => cases hstep
  | closed st log =>
    have hfresh := (World.opens_of_step (hall hrun).1 hdeed.1 hstep).fresh.1
    exact ⟨hfresh.recovered.len_eq, hfresh.recovered.bytes_eq⟩

/-- One item is acked with a delete that the crash undoes, one is handed out when the crash
comes, and the commit of a third one fails after it was applied. -/
theorem at_least_once_crash :
    ∃ w, Run World.step durablePushes.deed World.start
      [.open (Builder.default64.setDurableAcks false) none, .act (.turn (.call [1] true)),
        .act (.turn (.attempt 1)), .act (.commit 0 .ok), .act (.turn (.call [2] true)),
        .act (.turn (.attempt 5)), .act (.commit 1 .ok), .act (.turn (.call [3] true)),
        .act (.turn (.attempt 9)), .act (.commit 2 (.err [true])), .act (.turn (.reserve 0)),
        .act (.turn (.seek 0 true)), .act (.turn (.check 0 0)), .act (.turn (.ack 0 .ok)),
        .act (.turn (.record 0)), .act (.turn (.reserve 0)), .act (.turn (.seek 0 true)),
        .act (.turn (.check 0 0)), .crash [false, true], .open Builder.group64 (some (.seek 1)),
        .open Builder.group64 none] w ∧
    (∀ s, w = .running s → Delivers s) ∧
    ∀ b fault s, durablePushes.deed w (.open b fault) →
      w.step (.open b fault) = some (.running s) →
      Delivers s ∧ s.inner.len = s.items.size ∧
        s.inner.bytes = s.items.sum (fun _ v => v.length) % 2 ^ b.usizeBits := by
  refine Exists.imp (fun w hrun => ⟨hrun, at_least_once hrun⟩) ?_
  exact Run.exists_of_exec (by decide)

end PersistentQueue
