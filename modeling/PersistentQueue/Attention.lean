import PersistentQueue.Scan
import PersistentQueue.Tasks

/-!
# The async consumer and its items

A reserve registers on `items` before it scans. So it misses an entry only if the entry
became available behind its scan, or after it (`Facade.Missed`), and then somebody is about
to notify `items` (`Facade.Owed`): a push whose write has landed, an ack that is recorded, a
nack, or a close. With one reserve at a time a notification reaches it, or it is stored for
the next one. So while a reserve waits, either it misses nothing or a notification is to
come (`Facade.Attentive`).

What can break this is a change that nobody announces, while a reserve waits that misses it
(`Facade.Heard`). An ack that fails does that: the drop of its guard makes the item
available again, and the future returns the error and notifies nobody. So does a push that
fails on a closed queue, when it gives back the last slot.
-/

namespace PersistentQueue

/-- Whether a turn may drain the queue: it frees a slot, or closes. -/
def Turn.drains : Turn → Bool
  | .giveBack _ | .record _ | .close => true
  | _ => false

namespace Ledger

variable {l l' : Ledger} {a : Turn} {k r t : ℕ}

/-- The write of the call has landed, or its push has returned `Ok`. -/
def HasLanded (l : Ledger) (k : ℕ) : Prop :=
  PushedOk l.log k ∨ ∃ e ∈ l.writes.entries, e.2.call = k ∧ e.2.stage = .landed

instance (l : Ledger) (k : ℕ) : Decidable (l.HasLanded k) :=
  inferInstanceAs (Decidable (_ ∨ ∃ e ∈ l.writes.entries, _))

/-- Where the scan of the reserve call stands. -/
def pc (l : Ledger) (r : ℕ) : Option ReservePc := (l.reserves.get? r).map ReserveCall.pc

theorem hasLanded_iff : l.HasLanded k ↔ PushedOk l.log k ∨
    ∃ t w, l.writes.get? t = some w ∧ w.call = k ∧ w.stage = .landed := by
  simp only [HasLanded, SortedMap.get?_eq_some, Prod.exists]

theorem Lands.hasLanded {w : Write} (h : l.Lands t w) : l.HasLanded w.call := by
  rw [hasLanded_iff]
  rcases h with ⟨w', hw', hcall, hstage⟩ | hpushed
  · exact Or.inr ⟨t, w', hw', hcall, hstage⟩
  · exact Or.inl hpushed

theorem HasLanded.committed (h : l.HasLanded k) (hc : Committed l l') : l'.HasLanded k := by
  rcases hasLanded_iff.mp h with hpushed | ⟨t, w, hw, rfl, hstage⟩
  · exact Or.inl (hc.pushed k hpushed)
  · exact (hc.landed t w hw hstage).hasLanded

theorem HasLanded.turn (h : l.HasLanded k) (hwf : l.Wf) (hm : Moved l (.turn a) l') :
    l'.HasLanded k := by
  rw [hasLanded_iff] at h ⊢
  rcases h with hpushed | ⟨t, w, hw, rfl, hstage⟩
  · exact Or.inl (pushedOk_mono hm hpushed)
  · exact Or.inr ⟨t, w, Ledger.turn_writes hwf.tail_free hm hw (by simp [hstage]), rfl, hstage⟩

/-- What becomes available at a turn is the item of a guard that is released. -/
theorem available_turn (hcursor : l.Cursor) (hwf : l.Wf) (hm : Moved l (.turn a) l')
    (h : l'.Available t) : l.Available t ∨
      (∃ v, l.items.get? t = some v) ∧ ∃ g gd, a = .release g ∧ l.guards.get? g = some gd ∧
        gd.seq = t := by
  obtain ⟨⟨v, hv⟩, hfree⟩ := h
  cases hm with
  | @handedOut r g seq =>
    exact Or.inl ⟨⟨v, hv⟩, fun hmem => hfree (Finset.mem_insert_of_mem hmem)⟩
  | @remove g gd hg hpc o =>
    rw [get?_items_remove (hwf.lt_u64Size (hwf.guard_lt g gd hg))] at hv
    split at hv
    · cases hv
    · exact Or.inl ⟨⟨v, hv⟩, hfree⟩
  | @record g gd hg hpc =>
    refine Or.inl ⟨⟨v, hv⟩, fun hmem => hfree ?_⟩
    rw [Inner.recordAck_reserved]
    refine Finset.mem_erase.mpr ⟨?_, hmem⟩
    -- what the ack deleted is not stored
    rintro rfl
    have hgone := hcursor.gone _ (hcursor.guard_deleted g gd hg hpc)
    exact Option.some_ne_none v (hv.symm.trans hgone)
  | @release g gd hg hpc =>
    by_cases hne : t = gd.seq
    · exact Or.inr ⟨⟨v, hv⟩, g, gd, rfl, hg, hne.symm⟩
    · exact Or.inl ⟨⟨v, hv⟩, fun hmem => hfree (Finset.mem_erase.mpr ⟨hne, hmem⟩)⟩
  | call | turnedAway | waits | claim | giveBack | close | reserve | ended | found | skipped =>
    exact Or.inl ⟨⟨v, hv⟩, hfree⟩

/-- A scan goes past nothing that is available. -/
theorem passed_turn (hcursor : l.Cursor) (hwf : l.Wf) (hm : Moved l (.turn a) l')
    (h : l'.Available t) {pc' : ReservePc} (hpc : l'.pc r = some pc') (hlt : t < pc'.position) :
    ∃ pc, l.pc r = some pc ∧ t < pc.position := by
  obtain ⟨c', hc', rfl⟩ := Option.map_eq_some_iff.mp hpc
  obtain ⟨⟨v, hv⟩, hfree⟩ := h
  have hstored : l.items.get? t = some v := by
    rcases hwf.of_items hm hv with hold | ⟨w, durable, o, heq, -⟩
    · exact hold
    · cases heq
  rcases hwf.of_passed hm hc' hstored hlt with ⟨c, hc, hpassed⟩ | ⟨hturn, hhead⟩ |
    ⟨g, hturn, hmem⟩
  · exact ⟨c.pc, congrArg (Option.map _) hc, hpassed⟩
  · obtain rfl := Move.turn.inj hturn
    cases hm with
    | reserve => exact absurd hhead (hcursor.head_le hv).not_gt
  · obtain rfl := Move.turn.inj hturn
    cases hm with
    | skipped => exact absurd hmem hfree
    | handedOut => exact absurd (Finset.mem_insert_of_mem hmem) hfree

/-- A turn that frees no slot and does not close the queue does not drain it. -/
theorem drained_turn (hm : Moved l (.turn a) l') (ha : a.drains = false)
    (h : l'.inner.isDrained = true) : l.inner.isDrained = true := by
  cases hm with
  | claim hc hroom hopen =>
    have hclosed : l.inner.closed = true := ((Bool.and_eq_true _ _).mp h).1
    rw [hopen] at hclosed
    cases hclosed
  | giveBack | record | close => cases ha
  | call | turnedAway | waits | reserve | ended | found | skipped | handedOut | remove | release =>
    exact h

/-- A write that failed is of a call that has not landed. -/
theorem OwnCalls.not_landed (h : l.OwnCalls) {w : Write} (hw : l.writes.get? t = some w)
    (hstage : w.stage = .failed) : ¬l.HasLanded w.call := by
  rw [hasLanded_iff]
  rintro (hpushed | ⟨t', w', hw', hcall, hlanded⟩)
  · exact (h.returned _ hpushed).2.2 t w hw rfl
  · obtain rfl := h.distinct t' t w' w hw' hw hcall
    obtain rfl := Option.some.inj (hw.symm.trans hw')
    rw [hstage] at hlanded
    cases hlanded

end Ledger

/-- Whether a reserve at this stage, whose scan stands at `pc`, has gone past the seq and
will not look again before it sleeps. -/
def ReserveStage.passed (pc : Option ReservePc) (t : ℕ) : ReserveStage → Bool
  | .scanning => pc.any fun pc => decide (t < pc.position)
  | .nothing | .asleep => true
  | .starting | .found _ | .failed => false

namespace Facade

variable {f f' : Facade} {a : AsyncAct} {r t k : ℕ}

/-- The reserve has gone past the seq. -/
def Passed (f : Facade) (r t : ℕ) : Prop :=
  ∃ task ∈ f.reserves.get? r, task.stage.passed (f.queue.pc r) t = true

/-- The reserve awaits `items`. -/
def Sleeps (f : Facade) (r : ℕ) : Prop := ∃ task ∈ f.reserves.get? r, task.stage = .asleep

/-- The reserve has gone past an item that is available, or it sleeps on a drained queue. -/
def Missed (f : Facade) (r : ℕ) : Prop :=
  (∃ e ∈ f.queue.items.entries, e.1 ∉ f.queue.inner.reserved ∧ f.Passed r e.1) ∨
    f.queue.inner.isDrained = true ∧ f.Sleeps r

/-- Somebody is about to notify `items`. -/
def Owed (f : Facade) : Prop :=
  0 < f.notifying ∨ 0 < f.closingRoom ∨ 0 < f.closingItems ∨
    (∃ e ∈ f.pushes.entries, e.2.stage = .writing ∧ f.queue.HasLanded e.1) ∨
    ∃ e ∈ f.acks.entries, e.2 = ⟨true, .done true⟩

/-- While a reserve waits that misses something, a notification is to come. -/
def Attentive (f : Facade) : Prop := ∀ r ∈ f.items.waiting, f.Missed r → f.Owed

/-- No reserve waits for which this holds, or a notification is to come. -/
def Told (f : Facade) (p : ℕ → Prop) : Prop := f.Owed ∨ ∀ r ∈ f.items.waiting, ¬p r

/-- To free one more slot drains the queue. -/
def Draining (f : Facade) : Prop :=
  f.queue.inner.closed = true ∧ Word.wrapSub f.queue.cfg.usizeBits f.queue.inner.len 1 = 0

/-- The act puts an entry into the store. -/
def Stores (f : Facade) (a : Act) (t : ℕ) : Prop :=
  f.queue.items.get? t = none ∧ ∃ s ∈ f.queue.step a, s.items.get? t ≠ none

/-- Where a step makes an item available, drains the queue or takes back a notification,
with nobody told, no waiting reserve misses anything by it, or another notification is to
come. The guard of an ack that failed is dropped, or one that was returned to a future that
is gone; a push whose write failed gives back its slot; the ack of a future that is gone is
recorded, or its push lands; or a future is dropped that was about to notify. -/
def Heard (f : Facade) : AsyncAct → Prop
  | .queue (.turn (.release g)) =>
    ∀ gd ∈ f.queue.guards.get? g, f.queue.items.get? gd.seq ≠ none →
      f.Told fun r => f.Passed r gd.seq
  | .queue (.turn (.giveBack _)) => f.Draining → f.Told f.Sleeps
  | .queue (.turn (.record g)) =>
    (∃ task ∈ f.acks.get? g, task.live = false) → f.Draining → f.Told f.Sleeps
  | .queue (.turn _) => True
  | .queue a =>
    ∀ e ∈ f.queue.writes.entries, f.pushes.get? e.2.call = none → f.Stores a e.1 →
      (f.Told fun r => f.Passed r e.1) ∨
        ∃ e' ∈ f.queue.writes.entries, f.pushes.get? e'.2.call ≠ none ∧ f.Stores a e'.1
  | .dropPush k =>
    ∀ task ∈ f.pushes.get? k, (f.endPush k task).Owed ∨ ∀ r ∈ f.items.waiting, ¬f.Missed r
  | .dropAck g =>
    { f with acks := f.acks.erase g }.Owed ∨ ∀ r ∈ f.items.waiting, ¬f.Missed r
  | _ => True

/-- A reserve is called only when none is in progress. -/
def OneReserve (f : Facade) : AsyncAct → Prop
  | .reserve => ∀ e ∈ f.reserves.entries, e.2.live = false
  | _ => True

instance (f : Facade) (r t : ℕ) : Decidable (f.Passed r t) :=
  inferInstanceAs (Decidable (∃ task ∈ f.reserves.get? r, _))

instance (f : Facade) : DecidablePred f.Sleeps :=
  fun r => inferInstanceAs (Decidable (∃ task ∈ f.reserves.get? r, _))

instance (f : Facade) : DecidablePred f.Missed :=
  fun _ => inferInstanceAs (Decidable ((∃ e ∈ f.queue.items.entries, _) ∨ _ ∧ _))

instance (f : Facade) : Decidable f.Owed := inferInstanceAs (Decidable (_ ∨ _ ∨ _ ∨ _ ∨ _))

instance (f : Facade) (p : ℕ → Prop) [DecidablePred p] : Decidable (f.Told p) :=
  inferInstanceAs (Decidable (_ ∨ ∀ r ∈ f.items.waiting, ¬p r))

instance (f : Facade) : Decidable f.Draining := inferInstanceAs (Decidable (_ ∧ _))

instance (f : Facade) (a : Act) (t : ℕ) : Decidable (f.Stores a t) :=
  inferInstanceAs (Decidable (_ ∧ ∃ s ∈ f.queue.step a, s.items.get? t ≠ none))

instance (f : Facade) : DecidablePred f.Heard
  | .queue (.turn (.release g)) =>
    inferInstanceAs (Decidable (∀ gd ∈ f.queue.guards.get? g, _ → f.Told fun _ => _))
  | .queue (.turn (.giveBack _)) => inferInstanceAs (Decidable (f.Draining → f.Told f.Sleeps))
  | .queue (.turn (.record g)) =>
    inferInstanceAs (Decidable ((∃ task ∈ f.acks.get? g, _) → f.Draining → f.Told f.Sleeps))
  | .queue (.commit _ _) | .queue (.enter _) | .queue (.flush _ _) | .queue (.record _)
  | .queue (.wake _) | .queue (.retry _ _) =>
    inferInstanceAs (Decidable (∀ e ∈ f.queue.writes.entries, f.pushes.get? e.2.call = none →
      f.Stores _ e.1 → (f.Told fun r => f.Passed r e.1) ∨ ∃ e' ∈ f.queue.writes.entries, _))
  | .dropPush k =>
    inferInstanceAs (Decidable (∀ task ∈ f.pushes.get? k, _ ∨ ∀ r ∈ f.items.waiting, ¬f.Missed r))
  | .dropAck _ => inferInstanceAs (Decidable (_ ∨ ∀ r ∈ f.items.waiting, ¬f.Missed r))
  | .queue (.turn (.call _ _)) | .queue (.turn (.attempt _)) | .queue (.turn .close)
  | .queue (.turn (.reserve _)) | .queue (.turn (.seek _ _)) | .queue (.turn (.check _ _))
  | .queue (.turn (.ack _ _)) | .push _ _ | .pushed _ | .retry _ | .reserve | .reserved _
  | .rescan _ | .dropReserve _ | .ack _ | .acked _ | .nack _ | .notifyItems | .close | .closeRoom
  | .closeItems => isTrue trivial

instance (f : Facade) : DecidablePred f.OneReserve
  | .reserve => inferInstanceAs (Decidable (∀ e ∈ f.reserves.entries, e.2.live = false))
  | .queue _ | .push _ _ | .pushed _ | .retry _ | .dropPush _ | .reserved _ | .rescan _
  | .dropReserve _ | .ack _ | .acked _ | .dropAck _ | .nack _ | .notifyItems | .close | .closeRoom
  | .closeItems => isTrue trivial

/-- The reserves in progress are one. -/
def OneLive (f : Facade) : Prop :=
  ∀ r r' stage stage', f.reserves.get? r = some ⟨true, stage⟩ →
    f.reserves.get? r' = some ⟨true, stage'⟩ → r = r'

theorem missed_iff : f.Missed r ↔
    (∃ t, f.queue.Available t ∧ f.Passed r t) ∨ f.queue.inner.isDrained = true ∧ f.Sleeps r := by
  refine or_congr ?_ Iff.rfl
  simp only [Ledger.Available, SortedMap.get?_eq_some, Prod.exists]
  constructor
  · rintro ⟨t, v, hv, hfree, hpassed⟩
    exact ⟨t, ⟨⟨v, hv⟩, hfree⟩, hpassed⟩
  · rintro ⟨t, ⟨⟨v, hv⟩, hfree⟩, hpassed⟩
    exact ⟨t, v, hv, hfree, hpassed⟩

theorem owed_iff : f.Owed ↔ 0 < f.notifying ∨ 0 < f.closingRoom ∨ 0 < f.closingItems ∨
    (∃ k task, f.pushes.get? k = some task ∧ task.stage = .writing ∧ f.queue.HasLanded k) ∨
    ∃ g, f.acks.get? g = some ⟨true, .done true⟩ := by
  simp only [Owed, SortedMap.get?_eq_some, Prod.exists]
  refine or_congr Iff.rfl (or_congr Iff.rfl (or_congr Iff.rfl (or_congr Iff.rfl ?_)))
  simp

theorem attentive_opened (s : Session) : (opened s).Attentive := fun _ h => by cases h

theorem oneLive_opened (s : Session) : (opened s).OneLive := fun _ _ _ _ h => by cases h

/-- Nobody who was about to notify has gone. -/
theorem Owed.mono (h : f.Owed) (hnotifying : f.notifying ≤ f'.notifying)
    (hroom : f.closingRoom ≤ f'.closingRoom) (hitems : f.closingItems ≤ f'.closingItems)
    (hpushes : ∀ k task, f.pushes.get? k = some task → task.stage = .writing →
      f.queue.HasLanded k → f'.pushes.get? k = some task ∧ f'.queue.HasLanded k)
    (hacks : ∀ g, f.acks.get? g = some ⟨true, .done true⟩ →
      f'.acks.get? g = some ⟨true, .done true⟩) : f'.Owed := by
  rw [owed_iff] at h ⊢
  rcases h with h | h | h | ⟨k, task, hk, hstage, hlanded⟩ | ⟨g, hg⟩
  · exact Or.inl (h.trans_le hnotifying)
  · exact Or.inr (Or.inl (h.trans_le hroom))
  · exact Or.inr (Or.inr (Or.inl (h.trans_le hitems)))
  · obtain ⟨hk', hlanded'⟩ := hpushes k task hk hstage hlanded
    exact Or.inr (Or.inr (Or.inr (Or.inl ⟨k, task, hk', hstage, hlanded'⟩)))
  · exact Or.inr (Or.inr (Or.inr (Or.inr ⟨g, hacks g hg⟩)))

/-- Somebody is about to notify after the step. -/
theorem Owed.attentive (h : f.Owed) : f.Attentive := fun _ _ _ => h

/-- No reserve waits. -/
theorem attentive_of_nil (h : f.items.waiting = []) : f.Attentive := by
  intro r hr
  rw [h] at hr
  cases hr

/-- A step after which no waiting reserve misses anything new. -/
theorem Attentive.next (h : f.Attentive) (hitems : ∀ r ∈ f'.items.waiting, r ∈ f.items.waiting)
    (hpassed : ∀ r ∈ f'.items.waiting, ∀ t, f'.queue.Available t → f'.Passed r t →
      f'.Owed ∨ f.queue.Available t ∧ f.Passed r t)
    (hsleeps : ∀ r ∈ f'.items.waiting, f'.queue.inner.isDrained = true → f'.Sleeps r →
      f'.Owed ∨ f.queue.inner.isDrained = true ∧ f.Sleeps r)
    (howed : f.Owed → f'.Owed) : f'.Attentive := by
  intro r hr hmissed
  have hold : f.Missed r → f'.Owed := fun hmissed => howed (h r (hitems r hr) hmissed)
  rcases missed_iff.mp hmissed with ⟨t, havailable, hpassed'⟩ | ⟨hdrained, hsleeps'⟩
  · rcases hpassed r hr t havailable hpassed' with howed' | hand
    · exact howed'
    · exact hold (missed_iff.mpr (Or.inl ⟨t, hand⟩))
  · rcases hsleeps r hr hdrained hsleeps' with howed' | hand
    · exact howed'
    · exact hold (missed_iff.mpr (Or.inr hand))

/-- What a stage has passed at a turn it had passed before, if the item is available. -/
theorem passed_stage {l l' : Ledger} {b : Turn} (hcursor : l.Cursor) (hwf : l.Wf)
    (hm : Ledger.Moved l (.turn b) l') (h : l'.Available t) {stage : ReserveStage}
    (hpassed : stage.passed (l'.pc r) t = true) : stage.passed (l.pc r) t = true := by
  cases stage with
  | scanning =>
    obtain ⟨pc', hpc', hlt⟩ := (Option.any_eq_true _ _).mp hpassed
    obtain ⟨pc, hpc, hlt'⟩ := Ledger.passed_turn hcursor hwf hm h hpc' (of_decide_eq_true hlt)
    exact (Option.any_eq_true _ _).mpr ⟨pc, hpc, decide_eq_true hlt'⟩
  | nothing | asleep => rfl
  | starting | found | failed => cases hpassed

/-- A turn that frees no slot, does not close the queue, and releases no guard. -/
theorem Attentive.turn {l : Ledger} {b : Turn} (h : f.Attentive) (hcursor : f.queue.Cursor)
    (hwf : f.queue.toLedger.Wf) (hm : Ledger.Moved f.queue.toLedger (.turn b) l)
    (hqueue : f'.queue.toLedger = l) (hitems : f'.items = f.items)
    (hstage : ∀ r ∈ f.items.waiting, ∀ task', f'.reserves.get? r = some task' →
      ∃ task, f.reserves.get? r = some task ∧ (task'.stage = .asleep → task.stage = .asleep) ∧
        ∀ t, l.Available t → task'.stage.passed (l.pc r) t = true →
          task.stage.passed (f.queue.pc r) t = true)
    (hrelease : ∀ g gd, b = .release g → f.queue.guards.get? g = some gd →
      f.queue.items.get? gd.seq ≠ none → f'.Owed ∨ ∀ r ∈ f.items.waiting, ¬f.Passed r gd.seq)
    (hdrained : l.inner.isDrained = true → f.queue.inner.isDrained = true ∨ f'.Owed ∨
      ∀ r ∈ f.items.waiting, ¬f.Sleeps r)
    (howed : f.Owed → f'.Owed) : f'.Attentive := by
  refine h.next (fun r hr => hitems ▸ hr) (fun r hr t havailable hpassed => ?_)
    (fun r hr hdrained' hsleeps => ?_) howed
  · rw [hitems] at hr
    rw [hqueue] at havailable
    obtain ⟨task', hr', hpassed'⟩ := hpassed
    rw [hqueue] at hpassed'
    obtain ⟨task, hr₀, -, hback⟩ := hstage r hr task' hr'
    have hpassed₀ : f.Passed r t := ⟨task, hr₀, hback t havailable hpassed'⟩
    rcases Ledger.available_turn hcursor hwf hm havailable with hold |
      ⟨⟨v, hv⟩, g, gd, hb, hg, rfl⟩
    · exact Or.inr ⟨hold, hpassed₀⟩
    · rcases hrelease g gd hb hg (by simp [hv]) with howed' | hnone
      · exact Or.inl howed'
      · exact absurd hpassed₀ (hnone r hr)
  · rw [hitems] at hr
    rw [hqueue] at hdrained'
    obtain ⟨task', hr', hasleep⟩ := hsleeps
    obtain ⟨task, hr₀, hback, -⟩ := hstage r hr task' hr'
    have hsleeps₀ : f.Sleeps r := ⟨task, hr₀, hback hasleep⟩
    rcases hdrained hdrained' with hold | howed' | hnone
    · exact Or.inr ⟨hold, hsleeps₀⟩
    · exact Or.inl howed'
    · exact absurd hsleeps₀ (hnone r hr)

/-- A queue that a freed slot has drained was about to be. -/
theorem draining_of_len {i : Inner} (hdrained : i.isDrained = true)
    (hlen : i.len = Word.wrapSub f.queue.cfg.usizeBits f.queue.inner.len 1)
    (hclosed : i.closed = f.queue.inner.closed) : f.Draining := by
  obtain ⟨hc, hzero⟩ := (Bool.and_eq_true _ _).mp hdrained
  exact ⟨hclosed ▸ hc, hlen ▸ of_decide_eq_true hzero⟩

/-- The reserves stand where they stood. -/
theorem stage_same {l : Ledger} {b : Turn} (hcursor : f.queue.Cursor)
    (hwf : f.queue.toLedger.Wf) (hm : Ledger.Moved f.queue.toLedger (.turn b) l)
    {task' : ReserveTask} (hr : f.reserves.get? r = some task') :
    ∃ task, f.reserves.get? r = some task ∧ (task'.stage = .asleep → task.stage = .asleep) ∧
      ∀ t, l.Available t → task'.stage.passed (l.pc r) t = true →
        task.stage.passed (f.queue.pc r) t = true :=
  ⟨task', hr, id, fun _ havailable => passed_stage hcursor hwf hm havailable⟩

/-- A turn that is about no reserve, nor about what reserves wait for. -/
theorem Attentive.quiet {l : Ledger} {b : Turn} (h : f.Attentive) (hcursor : f.queue.Cursor)
    (hwf : f.queue.toLedger.Wf) (hm : Ledger.Moved f.queue.toLedger (.turn b) l)
    (hqueue : f'.queue.toLedger = l) (hitems : f'.items = f.items)
    (hreserves : f'.reserves = f.reserves) (hb : b.drains = false) (hrelease : ∀ g, b ≠ .release g)
    (howed : f.Owed → f'.Owed) : f'.Attentive :=
  h.turn hcursor hwf hm hqueue hitems
    (fun _ _ _ hr => stage_same hcursor hwf hm (hreserves ▸ hr))
    (fun g _ hb => absurd hb (hrelease g))
    (fun hdrained => Or.inl (Ledger.drained_turn hm hb hdrained)) howed

/-- A turn that has nothing to do with pushes and acks. -/
theorem Owed.turn {l : Ledger} {b : Turn} (h : f.Owed) (hwf : f.queue.toLedger.Wf)
    (hm : Ledger.Moved f.queue.toLedger (.turn b) l) (hqueue : f'.queue.toLedger = l)
    (hnotifying : f'.notifying = f.notifying) (hroom : f'.closingRoom = f.closingRoom)
    (hitems : f'.closingItems = f.closingItems)
    (hpushes : ∀ k task, f.pushes.get? k = some task → task.stage = .writing →
      f.queue.HasLanded k → f'.pushes.get? k = some task)
    (hacks : ∀ g, f.acks.get? g = some ⟨true, .done true⟩ →
      f'.acks.get? g = some ⟨true, .done true⟩) : f'.Owed := by
  refine h.mono hnotifying.ge hroom.ge hitems.ge (fun k task hk hstage hlanded => ?_) hacks
  refine ⟨hpushes k task hk hstage hlanded, ?_⟩
  rw [hqueue]
  exact hlanded.turn hwf hm

/-- A turn that leaves the pushes and the acks alone. -/
theorem Owed.turn_same {l : Ledger} {b : Turn} (h : f.Owed) (hwf : f.queue.toLedger.Wf)
    (hm : Ledger.Moved f.queue.toLedger (.turn b) l) (hqueue : f'.queue.toLedger = l)
    (hnotifying : f'.notifying = f.notifying) (hroom : f'.closingRoom = f.closingRoom)
    (hitems : f'.closingItems = f.closingItems) (hpushes : f'.pushes = f.pushes)
    (hacks : f'.acks = f.acks) : f'.Owed :=
  h.turn hwf hm hqueue hnotifying hroom hitems (fun _ _ hk _ _ => hpushes ▸ hk)
    fun _ hg => hacks ▸ hg

/-- A turn of the reserve `r`, which is awake after it. -/
theorem Attentive.reserveTurn {l : Ledger} {b : Turn} {r : ℕ} {task task' : ReserveTask}
    (h : f.Attentive) (hcursor : f.queue.Cursor) (hwf : f.queue.toLedger.Wf)
    (hm : Ledger.Moved f.queue.toLedger (.turn b) l) (hb : b.drains = false)
    (hrelease : ∀ g, b ≠ .release g) (hr : f.reserves.get? r = some task)
    (hawake : task'.stage ≠ .asleep)
    (hback : ∀ t, l.Available t → task'.stage.passed (l.pc r) t = true →
      task.stage.passed (f.queue.pc r) t = true) :
    ({ f with queue := { f.queue with toLedger := l }
              reserves := f.reserves.insert r task' } : Facade).Attentive := by
  refine h.turn hcursor hwf hm rfl rfl (fun r' _ task₁ hr' => ?_)
    (fun g _ heq => absurd heq (hrelease g))
    (fun hd => Or.inl (Ledger.drained_turn hm hb hd))
    fun howed => howed.turn_same hwf hm rfl rfl rfl rfl rfl rfl
  rcases SortedMap.of_get?_insert hr' with ⟨rfl, rfl⟩ | ⟨-, hr'⟩
  · exact ⟨task, hr, fun hasleep => absurd hasleep hawake, hback⟩
  · exact stage_same hcursor hwf hm hr'

/-- A push gives back its slot: if that drains the queue, nobody sleeps or somebody is told. -/
theorem Attentive.gaveBack {l : Ledger} {seq : ℕ} (h : f.Attentive) (hcursor : f.queue.Cursor)
    (hwf : f.queue.toLedger.Wf) (hm : Ledger.Moved f.queue.toLedger (.turn (.giveBack seq)) l)
    (hqueue : f'.queue.toLedger = l) (hitems : f'.items = f.items)
    (hreserves : f'.reserves = f.reserves) (hheard : f.Heard (.queue (.turn (.giveBack seq))))
    (howed : f.Owed → f'.Owed) : f'.Attentive := by
  refine h.turn hcursor hwf hm hqueue hitems
    (fun _ _ _ hr => stage_same hcursor hwf hm (hreserves ▸ hr)) (by simp) (fun hdrained => ?_) howed
  cases hm with
  | giveBack => exact Or.inr ((hheard (draining_of_len hdrained rfl rfl)).imp howed id)

/-- A guard is released with nobody told. -/
theorem Attentive.released {l : Ledger} {g : ℕ} (h : f.Attentive) (hcursor : f.queue.Cursor)
    (hwf : f.queue.toLedger.Wf) (hm : Ledger.Moved f.queue.toLedger (.turn (.release g)) l)
    (hqueue : f'.queue.toLedger = l) (hitems : f'.items = f.items)
    (hreserves : f'.reserves = f.reserves) (hheard : f.Heard (.queue (.turn (.release g))))
    (howed : f.Owed → f'.Owed) : f'.Attentive := by
  refine h.turn hcursor hwf hm hqueue hitems
    (fun _ _ _ hr => stage_same hcursor hwf hm (hreserves ▸ hr)) (fun g' gd hb hg hstored => ?_)
    (fun hd => Or.inl (Ledger.drained_turn hm rfl hd)) howed
  obtain rfl := Turn.release.inj hb
  exact (hheard gd hg hstored).imp howed id

theorem Heard.write {b : Act} (h : f.Heard (.queue b)) (hturn : ∀ b', b ≠ .turn b') {w : Write}
    (hw : f.queue.writes.get? t = some w) (hgone : f.pushes.get? w.call = none)
    (hstores : f.Stores b t) : (f.Told fun r => f.Passed r t) ∨
      ∃ t' w' task, f.queue.writes.get? t' = some w' ∧ f.pushes.get? w'.call = some task ∧
        f.Stores b t' := by
  have hcond : ∀ e ∈ f.queue.writes.entries, f.pushes.get? e.2.call = none → f.Stores b e.1 →
      (f.Told fun r => f.Passed r e.1) ∨
        ∃ e' ∈ f.queue.writes.entries, f.pushes.get? e'.2.call ≠ none ∧ f.Stores b e'.1 := by
    cases b with
    | turn b' => exact absurd rfl (hturn b')
    | commit | enter | flush | record | wake | retry => exact h
  refine (hcond _ (SortedMap.get?_eq_some.mp hw) hgone hstores).imp id ?_
  rintro ⟨⟨t', w'⟩, hw', hlive, hstores'⟩
  obtain ⟨task, hk⟩ := Option.ne_none_iff_exists'.mp hlive
  exact ⟨t', w', task, SortedMap.get?_eq_some.mpr hw', hk, hstores'⟩

/-- The commit of a write whose push is there makes a notification owed. -/
theorem Attentive.write {D : Discipline} {s : Session} {b : Act} (h : f.Attentive)
    (hlinks : f.PushLinks) (hcoupled : Coupled f.queue) (hclean : ∀ o, D.outcome o → o.Clean)
    (hok : D.act f.queue b) (hheard : f.Heard (.queue b)) (hturn : ∀ b', b ≠ .turn b')
    (hs : f.queue.step b = some s) : ({ f with queue := s } : Facade).Attentive := by
  obtain ⟨hc, -, hstored⟩ := hcoupled.committed hok hturn hs
  have hinner := hc.inner
  have howed : f.Owed → ({ f with queue := s } : Facade).Owed := fun howed =>
    howed.mono (le_refl _) (le_refl _) (le_refl _)
      (fun k task hk _ hlanded => ⟨hk, hlanded.committed hc⟩) fun _ hg => hg
  have hlands : ∀ {t w task}, s.toLedger.Lands t w → f.queue.writes.get? t = some w →
      f.pushes.get? w.call = some task → ({ f with queue := s } : Facade).Owed := by
    intro t w task hlands hw hk
    refine owed_iff.mpr (Or.inr (Or.inr (Or.inr (Or.inl ⟨_, task, hk, ?_, hlands.hasLanded⟩))))
    exact hlinks.writing t w task hw hk
  refine h.next (fun r hr => hr) (fun r hr t havailable hpassed => ?_)
    (fun r hr hdrained hsleeps => Or.inr ⟨hinner ▸ hdrained, hsleeps⟩) howed
  obtain ⟨⟨v, hv⟩, hfree⟩ := havailable
  obtain ⟨task, hr', hpassed⟩ := hpassed
  have hpc : s.pc r = f.queue.pc r := hc.pcs r
  have hpassed₀ : f.Passed r t := ⟨task, hr', hpc ▸ hpassed⟩
  rcases hold : f.queue.items.get? t with _ | v₀
  · rcases hstored hclean t v hv with hv₀ | ⟨w, hw, hland⟩
    · rw [hold] at hv₀
      cases hv₀
    · rcases hk : f.pushes.get? w.call with _ | task'
      · rcases hheard.write hturn hw hk ⟨hold, s, hs, by simp [hv]⟩ with (howed' | hnone) |
          ⟨t', w', task', hw', hk', hnew, s', hs', hstores⟩
        · exact Or.inl (howed howed')
        · exact absurd hpassed₀ (hnone r hr)
        · obtain rfl := Option.some.inj (hs.symm.trans hs')
          obtain ⟨v', hv'⟩ := Option.ne_none_iff_exists'.mp hstores
          rcases hstored hclean t' v' hv' with hv₀ | ⟨w'', hw'', hland'⟩
          · rw [hnew] at hv₀
            cases hv₀
          · obtain rfl := Option.some.inj (hw'.symm.trans hw'')
            exact Or.inl (hlands hland' hw' hk')
      · exact Or.inl (hlands hland hw hk)
  · exact Or.inr ⟨⟨⟨v₀, hold⟩, hinner ▸ hfree⟩, hpassed₀⟩

theorem Proceeds.attentive {D : Discipline} {s : Session} {b : Act} (h : f.Attentive)
    (hlinks : f.PushLinks) (hcoupled : Coupled f.queue) (hcursor : f.queue.Cursor)
    (hown : f.queue.OwnCalls) (hclean : ∀ o, D.outcome o → o.Clean) (hok : D.act f.queue b)
    (hheard : f.Heard (.queue b)) (hs : f.queue.step b = some s) (hp : f.Proceeds s b f') :
    f'.Attentive := by
  have hwf := hcoupled.wf
  have hpushes : ∀ k task, f.pushes.get? k = some task → task.stage = .writing →
      f.queue.HasLanded k → f.pushes.get? k = some task := fun _ _ hk _ _ => hk
  have hacks : ∀ {g stage live}, f.acks.get? g = some ⟨live, stage⟩ → stage ≠ .done true →
      ∀ g', f.acks.get? g' = some ⟨true, .done true⟩ → g' ≠ g := by
    rintro g stage live hg hstage g' hg' rfl
    obtain ⟨-, rfl⟩ := AckTask.mk.inj (Option.some.inj (hg.symm.trans hg'))
    exact hstage rfl
  cases hp with
  | write hturn => exact h.write hlinks hcoupled hclean hok hheard hturn hs
  | @attempt k waits value hk =>
    obtain ⟨l, hm, rfl⟩ := moved_of_turn hs
    refine h.quiet hcursor hwf hm rfl rfl rfl rfl (by simp)
      fun howed => howed.turn hwf hm rfl rfl rfl rfl (fun k' task hk' hstage _ => ?_) fun _ hg => hg
    refine (SortedMap.get?_insert_ne _ _ ?_).trans hk'
    rintro rfl
    obtain rfl := Option.some.inj (hk.symm.trans hk')
    cases hstage
  | attemptAlone | seeksOn | checksOn =>
    obtain ⟨l, hm, rfl⟩ := moved_of_turn hs
    exact h.quiet hcursor hwf hm rfl rfl rfl rfl (by simp)
      fun howed => howed.turn_same hwf hm rfl rfl rfl rfl rfl rfl
  | @giveBack seq w waits value hw hk =>
    obtain ⟨l, hm, rfl⟩ := moved_of_turn hs
    refine h.gaveBack hcursor hwf hm rfl rfl rfl hheard fun howed =>
      howed.turn hwf hm rfl rfl rfl rfl (fun k task hk' _ hlanded => ?_) fun _ hg => hg
    refine (SortedMap.get?_insert_ne _ _ ?_).trans hk'
    rintro rfl
    cases hm with
    | giveBack hw₀ hstage =>
      obtain rfl := Option.some.inj (hw.symm.trans hw₀)
      exact hown.not_landed hw hstage hlanded
  | giveBackAlone =>
    obtain ⟨l, hm, rfl⟩ := moved_of_turn hs
    exact h.gaveBack hcursor hwf hm rfl rfl rfl hheard fun howed =>
      howed.turn_same hwf hm rfl rfl rfl rfl rfl rfl
  | @begins r live hr =>
    obtain ⟨l, hm, rfl⟩ := moved_of_turn hs
    refine h.reserveTurn hcursor hwf hm rfl (by simp) hr (by simp) fun t havailable hpassed => ?_
    have hold := passed_stage hcursor hwf hm havailable hpassed
    cases hm with
    | reserve hnone => simp [ReserveStage.passed, Ledger.pc, hnone] at hold
  | @ended r ok hr hend =>
    obtain ⟨l, hm, rfl⟩ := moved_of_turn hs
    refine h.reserveTurn hcursor hwf hm rfl (by simp) hr (by cases ok <;> simp)
      fun t havailable hpassed => ?_
    cases hm with
    | found => rw [SortedMap.get?_insert_self] at hend; cases hend
    | ended r ok hc hnone =>
      cases ok with
      | true =>
        obtain ⟨v, hv⟩ := havailable.1
        have hlt := hwf.seek_none hc (hnone rfl) hv
        simp [ReserveStage.passed, Ledger.pc, hc, ReservePc.position, hlt]
      | false => cases hpassed
  | endedAlone =>
    obtain ⟨l, hm, rfl⟩ := moved_of_turn hs
    exact h.turn hcursor hwf hm rfl rfl
      (fun _ _ _ hr => stage_same hcursor hwf hm (SortedMap.of_get?_erase hr).2) (by simp)
      (fun hd => Or.inl (Ledger.drained_turn hm rfl hd))
      fun howed => howed.turn_same hwf hm rfl rfl rfl rfl rfl rfl
  | @found r g hg hr hend =>
    obtain ⟨l, hm, rfl⟩ := moved_of_turn hs
    exact h.reserveTurn hcursor hwf hm rfl (by simp) hr (by simp)
      fun t _ hpassed => (by cases hpassed)
  | foundAlone =>
    obtain ⟨l, hm, rfl⟩ := moved_of_turn hs
    exact h.turn hcursor hwf hm rfl rfl
      (fun _ _ _ hr => stage_same hcursor hwf hm (SortedMap.of_get?_erase hr).2) (by simp)
      (fun hd => Or.inl (Ledger.drained_turn hm rfl hd))
      fun howed => howed.turn_same hwf hm rfl rfl rfl rfl rfl rfl
  | @ack g o live hg =>
    obtain ⟨l, hm, rfl⟩ := moved_of_turn hs
    exact h.quiet hcursor hwf hm rfl rfl rfl rfl (by simp)
      fun howed => howed.turn hwf hm rfl rfl rfl rfl hpushes fun g' hg' =>
        (SortedMap.get?_insert_ne _ _ (hacks hg (by simp) g' hg')).trans hg'
  | @record g hg =>
    refine (owed_iff.mpr ?_).attentive
    exact Or.inr (Or.inr (Or.inr (Or.inr ⟨g, SortedMap.get?_insert_self _ _ _⟩)))
  | @recordAlone g hg =>
    obtain ⟨l, hm, rfl⟩ := moved_of_turn hs
    have howed : f.Owed →
        ({ f with queue := { f.queue with toLedger := l }, acks := f.acks.erase g } : Facade).Owed :=
      fun howed => howed.turn hwf hm rfl rfl rfl rfl hpushes fun g' hg' =>
        (SortedMap.get?_erase_ne _ (hacks hg (by simp) g' hg')).trans hg'
    refine h.turn hcursor hwf hm rfl rfl (fun _ _ _ hr => stage_same hcursor hwf hm hr) (by simp)
      (fun hdrained => ?_) howed
    cases hm with
    | record =>
      have hdraining := draining_of_len hdrained Inner.recordAck_len Inner.recordAck_closed
      exact Or.inr ((hheard ⟨_, hg, rfl⟩ hdraining).imp howed id)
  | releaseDoomed =>
    obtain ⟨l, hm, rfl⟩ := moved_of_turn hs
    refine h.released hcursor hwf hm rfl rfl rfl hheard fun howed =>
      howed.turn_same hwf hm rfl rfl rfl rfl rfl rfl
  | @release g hg =>
    obtain ⟨l, hm, rfl⟩ := moved_of_turn hs
    refine h.released hcursor hwf hm rfl rfl rfl hheard fun howed =>
      howed.turn hwf hm rfl rfl rfl rfl hpushes fun g' hg' =>
        (SortedMap.get?_insert_ne _ _ (hacks hg (by simp) g' hg')).trans hg'
  | @releaseAlone g hg =>
    obtain ⟨l, hm, rfl⟩ := moved_of_turn hs
    refine h.released hcursor hwf hm rfl rfl rfl hheard fun howed =>
      howed.turn hwf hm rfl rfl rfl rfl hpushes fun g' hg' =>
        (SortedMap.get?_erase_ne _ (hacks hg (by simp) g' hg')).trans hg'

/-! ## One reserve at a time -/

/-- The reserves in progress after a step were in progress before. -/
theorem OneLive.back (h : f.OneLive)
    (hback : ∀ r stage, f'.reserves.get? r = some ⟨true, stage⟩ →
      ∃ stage₀, f.reserves.get? r = some ⟨true, stage₀⟩) : f'.OneLive := by
  intro r r' stage stage' hr hr'
  obtain ⟨stage₀, hr₀⟩ := hback r stage hr
  obtain ⟨stage₀', hr₀'⟩ := hback r' stage' hr'
  exact h r r' stage₀ stage₀' hr₀ hr₀'

theorem OneLive.insert (h : f.OneLive) {live : Bool} {stage stage' : ReserveStage}
    (hr : f.reserves.get? r = some ⟨live, stage⟩)
    (hreserves : f'.reserves = f.reserves.insert r ⟨live, stage'⟩) : f'.OneLive := by
  refine h.back fun r' stage₁ hr' => ?_
  rw [hreserves] at hr'
  rcases SortedMap.of_get?_insert hr' with ⟨rfl, heq⟩ | ⟨-, hr'⟩
  · obtain ⟨rfl, -⟩ := ReserveTask.mk.inj heq
    exact ⟨stage, hr⟩
  · exact ⟨stage₁, hr'⟩

theorem OneLive.erase (h : f.OneLive) (hreserves : f'.reserves = f.reserves.erase r) :
    f'.OneLive := by
  refine h.back fun r' stage₁ hr' => ?_
  rw [hreserves] at hr'
  exact ⟨stage₁, (SortedMap.of_get?_erase hr').2⟩

/-- A reserve begins when none is in progress. -/
theorem oneLive_scan (hnone : ∀ r stage, f.reserves.get? r ≠ some ⟨true, stage⟩) :
    f.scan.OneLive := by
  have hself : ∀ r stage, f.scan.reserves.get? r = some ⟨true, stage⟩ → r = f.next := by
    intro r stage hr
    rcases SortedMap.of_get?_insert hr with ⟨heq, -⟩ | ⟨-, hr⟩
    · exact heq
    · exact absurd hr (hnone r stage)
  exact fun r r' stage stage' hr hr' => (hself r stage hr).trans (hself r' stage' hr').symm

/-- Nothing is live next to the reserve in progress. -/
theorem OneLive.alone (h : f.OneLive) {stage : ReserveStage}
    (hr : f.reserves.get? r = some ⟨true, stage⟩) :
    ∀ r' stage', (f.reserves.erase r).get? r' ≠ some ⟨true, stage'⟩ := by
  intro r' stage' hr'
  obtain ⟨hne, hr'⟩ := SortedMap.of_get?_erase hr'
  exact hne (h r' r stage' stage hr' hr)

theorem OneReserve.none_live (h : f.OneReserve .reserve) :
    ∀ r stage, f.reserves.get? r ≠ some ⟨true, stage⟩ := by
  intro r stage hr
  cases h _ (SortedMap.get?_eq_some.mp hr)

theorem Stepped.oneLive (h : f.OneLive) (hone : f.OneReserve a) (hstep : f.Stepped a f') :
    f'.OneLive := by
  cases hstep with
  | reserve => exact oneLive_scan hone.none_live
  | rescan hr => exact oneLive_scan (h.alone hr)
  | reserved | none | failed | dropFound | dropReserve => exact h.erase rfl
  | sleeps hr => exact h.insert hr rfl
  | dropScan hr =>
    refine h.back fun r' stage hr' => ?_
    rcases SortedMap.of_get?_insert hr' with ⟨-, heq⟩ | ⟨-, hr'⟩
    · cases heq
    · exact ⟨stage, hr'⟩
  | queue hs hp =>
    cases hp with
    | begins hr | ended ok hr | found hg hr => exact h.insert hr rfl
    | endedAlone | foundAlone => exact h.erase rfl
    | write | attempt | attemptAlone | giveBack | giveBackAlone | seeksOn | checksOn | ack | record
    | recordAlone | releaseDoomed | release | releaseAlone => exact h
  | push | pushed | full | refused | retry | dropPush | ack | acked | ackFailed | dropAcked
  | dropAck | nack | notifyItems | close | closeRoom | closeItems => exact h

/-- At most one reserve waits. -/
theorem ReserveLinks.single (h : f.ReserveLinks) (hone : f.OneLive) :
    ∀ i ∈ f.items.waiting, ∀ j ∈ f.items.waiting, i = j := by
  intro i hi j hj
  obtain ⟨stage, hr⟩ := h.waiting i hi
  obtain ⟨stage', hr'⟩ := h.waiting j hj
  exact hone i j stage stage' hr hr'

/-- When the reserve in progress is over, none waits. -/
theorem ReserveLinks.drop_nil (h : f.ReserveLinks) (hone : f.OneLive) {stage : ReserveStage}
    (hr : f.reserves.get? r = some ⟨true, stage⟩) : (f.items.drop r).waiting = [] := by
  refine List.eq_nil_iff_forall_not_mem.mpr fun r' hr' => ?_
  obtain ⟨hwaiting, hne⟩ := Notify.waiting_drop hr'
  obtain ⟨stage', hr₀⟩ := h.waiting r' hwaiting
  exact hne (hone r' r stage' stage hr₀ hr)

/-- A scan that was just started misses nothing. -/
theorem attentive_scan (hitems : f.items.waiting = []) : f.scan.Attentive := by
  intro r hr hmissed
  have hself : r = f.next := by
    rcases Notify.waiting_enable hr with hr | rfl
    · rw [hitems] at hr
      cases hr
    · rfl
  subst hself
  have hstage : ∀ task ∈ f.scan.reserves.get? f.next, task.stage = .starting := by
    intro task hr
    obtain rfl := Option.some.inj ((SortedMap.get?_insert_self _ _ _).symm.trans hr)
    rfl
  rcases missed_iff.mp hmissed with ⟨t, -, task, hr, hpassed⟩ | ⟨-, task, hr, hasleep⟩
  · rw [hstage task hr] at hpassed
    cases hpassed
  · rw [hstage task hr] at hasleep
    cases hasleep

theorem Stepped.attentive {D : Discipline} (h : f.Attentive) (hlinks : f.PushLinks)
    (hreserves : f.ReserveLinks) (hlive : f.OneLive) (hcoupled : Coupled f.queue)
    (hcursor : f.queue.Cursor) (hown : f.queue.OwnCalls) (hclean : ∀ o, D.outcome o → o.Clean)
    (hok : f.Keeps D a) (hone : f.OneReserve a) (hheard : f.Heard a) (hstep : f.Stepped a f') :
    f'.Attentive := by
  have hwf := hcoupled.wf
  have hnotify := hreserves.items.notifyOne_single (hreserves.single hlive)
  -- a reserve that ends is the only one that waits
  have hended : ∀ {r : ℕ} {stage : ReserveStage}, f.reserves.get? r = some ⟨true, stage⟩ →
      f'.items = f.items.drop r → f'.Attentive :=
    fun hr hitems => attentive_of_nil (hitems ▸ hreserves.drop_nil hlive hr)
  have hpushes : ∀ k task, f.pushes.get? k = some task → task.stage = .writing →
      f.queue.HasLanded k → f.pushes.get? k = some task ∧ f.queue.HasLanded k :=
    fun _ _ hk _ hlanded => ⟨hk, hlanded⟩
  have hstays : ∀ {k : ℕ} {task : PushTask}, f.pushes.get? k = some task → task.stage ≠ .writing →
      ∀ k' task', f.pushes.get? k' = some task' → task'.stage = .writing → k' ≠ k := by
    rintro k task hk hstage k' task' hk' hstage' rfl
    obtain rfl := Option.some.inj (hk.symm.trans hk')
    exact hstage hstage'
  have hsame : f'.items = f.items → f'.queue = f.queue → f'.reserves = f.reserves →
      (f.Owed → f'.Owed) → f'.Attentive := by
    intro hitems hqueue hreserves howed
    refine h.next (fun r hr => hitems ▸ hr) (fun r _ t havailable hpassed => Or.inr ?_)
      (fun r _ hdrained hsleeps => Or.inr ?_) howed
    · rw [hqueue] at havailable
      rw [Passed, hqueue, hreserves] at hpassed
      exact ⟨havailable, hpassed⟩
    · rw [hqueue] at hdrained
      rw [Sleeps, hreserves] at hsleeps
      exact ⟨hdrained, hsleeps⟩
  cases hstep with
  | @push value waits s hs =>
    obtain ⟨l, hm, rfl⟩ := moved_of_turn hs
    refine h.quiet hcursor hwf hm rfl rfl rfl rfl (by simp)
      fun howed => howed.turn hwf hm rfl rfl rfl rfl (fun k task hk _ _ => ?_) fun _ hg => hg
    exact (SortedMap.get?_insert_ne _ _ (hlinks.numbered k task hk).ne).trans hk
  | @retry k waits value s hk hready hs =>
    obtain ⟨l, hm, rfl⟩ := moved_of_turn hs
    refine h.quiet hcursor hwf hm rfl rfl rfl rfl (by simp)
      fun howed => howed.turn hwf hm rfl rfl rfl rfl (fun k' task hk' hstage _ => ?_) fun _ hg => hg
    refine (SortedMap.get?_insert_ne _ _ (hlinks.numbered k' task hk').ne).trans ?_
    exact (SortedMap.get?_erase_ne _ (hstays hk (by simp) k' task hk' hstage)).trans hk'
  | pushed => exact attentive_of_nil hnotify
  | @full k value hk =>
    refine hsame rfl rfl rfl fun howed => howed.mono (le_refl _) (le_refl _) (le_refl _)
      (fun k' task hk' hstage hlanded => ⟨?_, hlanded⟩) fun _ hg => hg
    exact (SortedMap.get?_insert_ne _ _ (hstays hk (by simp) k' task hk' hstage)).trans hk'
  | @refused k task e hk hstage =>
    refine hsame rfl rfl rfl fun howed => howed.mono (le_refl _) (le_refl _) (le_refl _)
      (fun k' task' hk' hstage' hlanded => ⟨?_, hlanded⟩) fun _ hg => hg
    exact (SortedMap.get?_erase_ne _ (hstays hk (by simp [hstage]) k' task' hk' hstage')).trans hk'
  | dropPush hk =>
    rcases hheard _ hk with howed | hnone
    · exact howed.attentive
    · exact fun r hr hmissed => absurd hmissed (hnone r hr)
  | reserve =>
    refine attentive_scan (List.eq_nil_iff_forall_not_mem.mpr fun r hr => ?_)
    obtain ⟨stage, hr'⟩ := hreserves.waiting r hr
    exact hone.none_live r stage hr'
  | reserved hr | none hr | failed hr | dropScan hr | dropFound hr | dropReserve hr =>
    exact hended hr rfl
  | @sleeps r hr hleft =>
    refine h.next (fun r' hr' => hr') (fun r' _ t havailable hpassed => Or.inr ⟨havailable, ?_⟩)
      (fun r' _ hdrained _ => ?_) fun howed => howed.mono (le_refl _) (le_refl _) (le_refl _)
        hpushes fun _ hg => hg
    · obtain ⟨task, hr', hpassed⟩ := hpassed
      rcases SortedMap.of_get?_insert hr' with ⟨rfl, -⟩ | ⟨-, hr'⟩
      · exact ⟨_, hr, rfl⟩
      · exact ⟨task, hr', hpassed⟩
    · -- it found the queue not drained as it went to sleep
      rw [hleft] at hdrained
      cases hdrained
  | @rescan r hr hready =>
    refine attentive_scan (List.eq_nil_iff_forall_not_mem.mpr fun r' hr' => ?_)
    obtain ⟨hwaiting, hne⟩ := Notify.waiting_forget.mp hr'
    obtain ⟨stage, hr₀⟩ := hreserves.waiting r' hwaiting
    exact hne (hlive r' r stage _ hr₀ hr)
  | @ack g hg hnone =>
    refine hsame rfl rfl rfl fun howed => howed.mono (le_refl _) (le_refl _) (le_refl _) hpushes
      fun g' hg' => (SortedMap.get?_insert_ne _ _ ?_).trans hg'
    rintro rfl
    rw [hnone] at hg'
    cases hg'
  | acked | nack => exact (owed_iff.mpr (Or.inl (Nat.succ_pos _))).attentive
  | @ackFailed g hg =>
    refine hsame rfl rfl rfl fun howed => howed.mono (le_refl _) (le_refl _) (le_refl _) hpushes
      fun g' hg' => (SortedMap.get?_erase_ne _ ?_).trans hg'
    rintro rfl
    cases hg.symm.trans hg'
  | dropAcked =>
    rcases hheard with howed | hnone
    · exact howed.attentive
    · exact fun r hr hmissed => absurd hmissed (hnone r hr)
  | @dropAck g stage hg hstage =>
    refine hsame rfl rfl rfl fun howed => howed.mono (le_refl _) (le_refl _) (le_refl _) hpushes
      fun g' hg' => (SortedMap.get?_insert_ne _ _ ?_).trans hg'
    rintro rfl
    obtain ⟨-, rfl⟩ := AckTask.mk.inj (Option.some.inj (hg.symm.trans hg'))
    exact hstage true rfl
  | close => exact (owed_iff.mpr (Or.inr (Or.inl (Nat.succ_pos _)))).attentive
  | closeRoom =>
    exact (owed_iff.mpr (Or.inr (Or.inr (Or.inl (Nat.succ_pos _))))).attentive
  | notifyItems => exact attentive_of_nil hnotify
  | closeItems => exact attentive_of_nil rfl
  | queue hs hp =>
    exact hp.attentive h hlinks hcoupled hcursor hown hclean (hok _ rfl) hheard hs

/-- At rest nobody is about to notify. -/
theorem not_owed_of_still (hstill : f.Still) : ¬f.Owed := by
  obtain ⟨hpushes, -, hacks, -, hnotifying, hroom, hitems, -⟩ := hstill
  rintro (h | h | h | ⟨e, he, hstage, -⟩ | ⟨e, he, -⟩)
  · omega
  · omega
  · omega
  · rw [hpushes e he] at hstage
    cases hstage
  · rw [hacks] at he
    cases he

/-- At rest no reserve sleeps with work to do. -/
theorem Attentive.of_still (h : f.Attentive) (hreserves : f.ReserveLinks) (hstill : f.Still)
    (hidle : f.items.Idle) {task : ReserveTask} (hr : f.reserves.get? r = some task) :
    (∀ t v, f.queue.items.get? t = some v → t ∈ f.queue.inner.reserved) ∧
      ¬(f.queue.inner.closed = true ∧ f.queue.inner.len = 0) := by
  obtain rfl : task = ⟨true, .asleep⟩ := hstill.2.1 _ (SortedMap.get?_eq_some.mp hr)
  have hwaits : r ∈ f.items.waiting := hidle.waiting (hreserves.known r .asleep hr)
  have hmissed : ¬f.Missed r := fun hmissed => not_owed_of_still hstill (h r hwaits hmissed)
  rw [missed_iff] at hmissed
  refine ⟨fun t v hv => ?_, fun ⟨hclosed, hlen⟩ => hmissed (Or.inr ⟨?_, _, hr, rfl⟩)⟩
  · by_contra hfree
    exact hmissed (Or.inl ⟨t, ⟨⟨v, hv⟩, hfree⟩, _, hr, rfl⟩)
  · simp [Inner.isDrained, hclosed, hlen]

/-- What the wakes of the consumer rest on. -/
structure Attended (f : Facade) : Prop where
  pushes : f.PushLinks
  reserves : f.ReserveLinks
  oneLive : f.OneLive
  attentive : f.Attentive

/-- No future is dropped, commits that fail have applied nothing, one reserve is in progress
at a time, and nothing happens unannounced that a waiting reserve misses. -/
def KeepsItems (f : Facade) (a : AsyncAct) : Prop := f.Completes a ∧ f.OneReserve a ∧ f.Heard a

instance (f : Facade) : DecidablePred f.KeepsItems :=
  fun a => inferInstanceAs (Decidable (f.Completes a ∧ f.OneReserve a ∧ f.Heard a))

end Facade

/-- What a run with clean failures keeps of the ledger. -/
structure Ledger.Sound (l : Ledger) : Prop where
  cursor : l.Cursor
  kept : l.Kept
  own : l.OwnCalls

theorem Ledger.sound_opened {b : Builder} {l : Ledger} (h : FreshLedger b l) : l.Sound where
  cursor := Ledger.cursor_opened h
  kept := Ledger.kept_opened h
  own := Ledger.ownCalls_opened h

theorem Ledger.Sound.moved {l l' : Ledger} {m : Move} (h : l.Sound) (hwf : l.Wf)
    (hclean : cleanFailures.move l m) (hm : Ledger.Moved l m l') : l'.Sound :=
  ⟨h.cursor.moved hwf (Discipline.move_below hclean) hm (h.kept.not_deleted hm),
    h.kept.moved h.cursor hwf hclean hm, h.own.moved hm⟩

theorem Facade.attended_opened {b : Builder} {s : Session} (h : FreshLedger b s.toLedger) :
    (Facade.opened s).Attended where
  pushes := Facade.pushLinks_opened h
  reserves := Facade.reserveLinks_opened s
  oneLive := Facade.oneLive_opened s
  attentive := Facade.attentive_opened s

theorem Facade.Attended.stepped {f f' : Facade} {a : AsyncAct} (h : f.Attended)
    (hcoupled : Coupled f.queue) (hsound : f.queue.Sound) (hok : f.Keeps cleanFailures a)
    (hone : f.OneReserve a) (hheard : f.Heard a) (hstep : f.Stepped a f') : f'.Attended where
  pushes := hstep.pushLinks h.pushes hcoupled hsound.own hok
  reserves := hstep.reserveLinks h.reserves
  oneLive := hstep.oneLive h.oneLive hone
  attentive := hstep.attentive h.attentive h.pushes h.reserves h.oneLive hcoupled hsound.cursor
    hsound.own (fun _ ho => ho) hok hone hheard

/-- **The consumer sleeps only when there is nothing to do.** In every run without dropped
futures, with one reserve at a time, in which nothing a waiting reserve misses happens
unannounced: when nothing is in progress but sleeping pushes and reserves and no wake is on
its way, a reserve sleeps only while every stored item is reserved and the queue is not
drained. -/
theorem reserve_sleeps_only_when_idle {b : Builder} {st : Store} {s₀ : Session} {f : Facade}
    {as : List AsyncAct} (hopen : Opens b st s₀)
    (hrun : Run Facade.step Facade.KeepsItems (Facade.opened s₀) as f) (hstill : f.Still)
    (hidle : f.items.Idle) {r : ℕ} {task : ReserveTask} (hr : f.reserves.get? r = some task) :
    (∀ t v, f.queue.items.get? t = some v → t ∈ f.queue.inner.reserved) ∧
      ¬(f.queue.inner.closed = true ∧ f.queue.inner.len = 0) := by
  obtain ⟨hfresh, -⟩ := hopen.fresh
  obtain ⟨-, -, hattended⟩ := Facade.invariant (D := cleanFailures) (I := Ledger.Sound)
    (J := Facade.Attended) hrun hopen.coupled (Ledger.sound_opened hfresh)
    (Facade.attended_opened hfresh) (fun f a h => h.1.1)
    (fun l m l' hwf hsound hclean hm => hsound.moved hwf hclean hm)
    (fun f a f' hcoupled hsound hattended hok hstep _ =>
      hattended.stepped hcoupled hsound hok.1.1 hok.2.1 hok.2.2 hstep)
  exact hattended.attentive.of_still hattended.reserves hstill hidle hr

/-- A reserve sleeps while another task holds the only item. The nack wakes it, and it takes
the item. The ack fails while no reserve waits; the item is handed out again, and the next
reserve sleeps. -/
def handedAround : List AsyncAct :=
  [.push [1] true, .queue (.turn (.attempt 1)), .queue (.commit 0 .ok), .pushed 1,
    .reserve, .queue (.turn (.reserve 0)), .queue (.turn (.seek 0 true)),
    .queue (.turn (.check 0 0)), .reserved 0,
    .reserve, .queue (.turn (.reserve 1)), .queue (.turn (.seek 1 true)),
    .queue (.turn (.check 1 1)), .queue (.turn (.seek 1 true)), .reserved 1,
    .nack 0, .notifyItems, .rescan 1, .queue (.turn (.reserve 2)), .queue (.turn (.seek 2 true)),
    .queue (.turn (.check 2 1)), .reserved 2,
    .ack 1, .queue (.turn (.ack 1 .errClean)), .queue (.turn (.release 1)), .acked 1,
    .reserve, .queue (.turn (.reserve 3)), .queue (.turn (.seek 3 true)),
    .queue (.turn (.check 3 2)), .reserved 3,
    .reserve, .queue (.turn (.reserve 4)), .queue (.turn (.seek 4 true)),
    .queue (.turn (.check 4 3)), .queue (.turn (.seek 4 true)), .reserved 4]

theorem reserve_sleeps_only_when_idle_handed :
    ∃ f, Run Facade.step Facade.KeepsItems (Facade.opened (Session.fresh .default64))
      handedAround f ∧ f.Still ∧ f.items.Idle ∧ f.reserves.get? 4 = some ⟨true, .asleep⟩ ∧
      (∀ t v, f.queue.items.get? t = some v → t ∈ f.queue.inner.reserved) ∧
      ¬(f.queue.inner.closed = true ∧ f.queue.inner.len = 0) := by
  have hrun : ∃ f, Run Facade.step Facade.KeepsItems (Facade.opened (Session.fresh .default64))
      handedAround f ∧ f.Still ∧ f.items.Idle ∧ f.reserves.get? 4 = some ⟨true, .asleep⟩ := by
    decide
  obtain ⟨f, hrun, hstill, hidle, hr⟩ := hrun
  exact ⟨f, hrun, hstill, hidle, hr,
    reserve_sleeps_only_when_idle (opens_fresh _) hrun hstill hidle hr⟩

/-- The only item is in hand while a reserve sleeps. Its ack fails: the guard is dropped in
the closure, the future returns the error, and nobody wakes the reserve. -/
theorem reserve_sleeps_next_to_an_item :
    ∃ f, Run Facade.step (fun f a => f.Completes a ∧ f.OneReserve a)
        (Facade.opened (Session.fresh .default64))
      [.push [1] true, .queue (.turn (.attempt 1)), .queue (.commit 0 .ok), .pushed 1,
        .reserve, .queue (.turn (.reserve 0)), .queue (.turn (.seek 0 true)),
        .queue (.turn (.check 0 0)), .reserved 0,
        .reserve, .queue (.turn (.reserve 1)), .queue (.turn (.seek 1 true)),
        .queue (.turn (.check 1 1)), .queue (.turn (.seek 1 true)), .reserved 1,
        .ack 0, .queue (.turn (.ack 0 .errClean)), .queue (.turn (.release 0)), .acked 0] f ∧
      f.Still ∧ f.items.Idle ∧ f.reserves.get? 1 = some ⟨true, .asleep⟩ ∧
      f.queue.items.get? 0 = some [1] ∧ 0 ∉ f.queue.inner.reserved := by decide

/-- A push is on its way when the queue is closed, and a reserve sleeps. The push fails and
gives back the last slot: the queue is drained, and nobody wakes the reserve. -/
example :
    ∃ f, Run Facade.step (fun f a => f.Completes a ∧ f.OneReserve a)
        (Facade.opened (Session.fresh .default64))
      [.push [1] true, .queue (.turn (.attempt 1)), .reserve, .queue (.turn (.reserve 0)),
        .queue (.turn (.seek 0 true)), .close, .closeRoom, .closeItems, .reserved 0, .rescan 0,
        .queue (.turn (.reserve 1)), .queue (.turn (.seek 1 true)), .reserved 1,
        .queue (.commit 0 .errClean), .queue (.turn (.giveBack 0)), .pushed 1] f ∧
      f.Still ∧ f.items.Idle ∧ f.reserves.get? 1 = some ⟨true, .asleep⟩ ∧
      f.queue.inner.isDrained = true := by decide

end PersistentQueue
