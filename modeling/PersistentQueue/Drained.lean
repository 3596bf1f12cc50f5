import PersistentQueue.Exact
import PersistentQueue.Scan
import PersistentQueue.Tasks

/-!
# Drained means drained

The queue is drained when it is closed and `len` is zero. `len` counts the stored items, the
claims that have not landed and the acks that are not recorded, so then there is none of
these, and on a closed queue nothing is claimed any more: the state is final. Every item
there ever was has been acked by then, and no scan finds anything (`Session.Finished`).

`AsyncConsumer::reserve` looks whether the queue is drained after its scan has found
nothing. That is the right order: from a drained queue there is no way back.
-/

namespace PersistentQueue

namespace Ledger

variable {l l' : Ledger} {m : Move} {m₀ : SortedMap ℕ Bytes} {r t : ℕ}

theorem closed_mono (hm : Moved l m l') (h : l.inner.closed = true) : l'.inner.closed = true := by
  cases hm with
  | record => exact Inner.recordAck_closed.trans h
  | close => rfl
  | call | turnedAway | waits | claim | giveBack | reserve | ended | found | skipped | handedOut
  | remove | release | put | returned | gaveUp => exact h

/-- What `len` counts is not there when it is zero. -/
theorem Steady.nothing_left (h : l.Steady) (hlen : l.inner.len = 0) :
    (∀ t, l.items.get? t = none) ∧ (∀ t w, l.writes.get? t = some w → w.stage = .landed) ∧
      ∀ g gd, l.guards.get? g = some gd → gd.pc ≠ .deleted := by
  rw [h.len_eq, load, Nat.add_eq_zero_iff, Nat.add_eq_zero_iff] at hlen
  obtain ⟨⟨hitems, hwrites⟩, hguards⟩ := hlen
  refine ⟨fun t => ?_, fun t w hw => ?_, fun g gd hg hpc => ?_⟩
  · rcases ht : l.items.get? t with _ | v
    · rfl
    · cases SortedMap.sum_eq_zero_iff.mp hitems t v ht
  · by_contra hstage
    have hzero := SortedMap.sum_eq_zero_iff.mp hwrites t w hw
    rw [Write.pending, if_neg hstage] at hzero
    cases hzero
  · have hzero := SortedMap.sum_eq_zero_iff.mp hguards g gd hg
    rw [Guard.unrecorded, if_pos hpc] at hzero
    cases hzero

/-- The queue is drained, and since the state `l₀` nothing was claimed or handed out. -/
structure Over (l₀ l : Ledger) : Prop where
  closed : l.inner.closed = true
  len : l.inner.len = 0
  claimed : ∀ k t v, .claimed k t v ∈ thisSession l.log → .claimed k t v ∈ thisSession l₀.log
  handedOut : ∀ t v, .handedOut t v ∈ thisSession l.log → .handedOut t v ∈ thisSession l₀.log

/-- **From a drained queue there is no way back.** -/
theorem Over.moved {l₀ : Ledger} (h : l₀.Over l) (hwf : l.Wf) (hl : l.Steady) (hl' : l'.Steady)
    (hm : Moved l m l') : l₀.Over l' := by
  have hempty := (hl.nothing_left h.len).1
  have hnoclaim : ∀ {c}, ¬l.Claims m c := by
    rintro c ⟨k, -, -, hopen, -⟩
    rw [h.closed] at hopen
    cases hopen
  refine ⟨closed_mono hm h.closed, ?_, fun k t v hmem => h.claimed k t v ?_,
    fun t v hmem => h.handedOut t v ?_⟩
  · -- only a claim makes the count grow
    obtain ⟨d, hd, hdown⟩ := shift_moved hwf hm
    have hload := hd.balance fun _ => 1
    rw [hl.exclusive.balance, hl'.exclusive.balance, ← hl.len_eq, ← hl'.len_eq, h.len] at hload
    rcases hdown with hdown | ⟨c, hclaims, -⟩
    · have hone := hdown fun _ => 1
      omega
    · exact absurd hclaims hnoclaim
  · rcases mem_session hm hmem with hold | ⟨c, rfl, hc, -⟩
    · exact hold
    · cases hm with
      | turnedAway | waits => exact hmem
      | claim hc hroom hopen => exact absurd ⟨_, rfl, hc, hopen, hroom⟩ hnoclaim
  · rcases mem_session hm hmem with hold | ⟨r, g, behind, -, hr, hfree⟩
    · exact hold
    · have hstored := (hl.exclusive.take hr hfree).1
      rw [hempty t] at hstored
      cases hstored

end Ledger

/-- The queue is drained for good. It was opened with the items `m₀`, and `s` is an earlier
state. -/
structure Session.Finished (m₀ : SortedMap ℕ Bytes) (s' s : Session) : Prop where
  drained : s'.inner.isDrained = true
  /-- no entry is stored -/
  empty : ∀ t, s'.items.get? t = none
  /-- no push holds a claim whose commit has not landed -/
  landed : ∀ t w, s'.writes.get? t = some w → w.stage = .landed
  no_claim : ∀ k t v, .claimed k t v ∈ thisSession s'.log → .claimed k t v ∈ thisSession s.log
  /-- every item recovered at open or landed by a push was removed by an ack -/
  acked : ∀ t v, (m₀.get? t = some v ∨ ∃ old, .put t v old true ∈ thisSession s'.log) →
    Deleted s'.log t ∧ .acked t ∈ thisSession s'.log
  /-- the next seek of any reserve call, unless it fails, is its last -/
  returns_none : ∀ r c, s'.reserves.get? r = some c → s'.ReturnsNone r
  hands_nothing : ∀ t v, .handedOut t v ∈ thisSession s'.log → .handedOut t v ∈ thisSession s.log

namespace Session

variable {s s' : Session} {m₀ : SortedMap ℕ Bytes} {r : ℕ}

/-- In an empty store a seek ends the call. -/
theorem returnsNone_of_empty (hwf : s.toLedger.Wf) (hempty : ∀ t, s.items.get? t = none)
    {cursor : ℕ} {behind : Finset ℕ} (hr : s.reserves.get? r = some ⟨.seeking cursor, behind⟩) :
    s.ReturnsNone r := by
  have hended : s.toLedger.turn (.seek r true) =
      some { s.toLedger with reserves := s.reserves.erase r } := by
    simp only [Ledger.turn, hr, if_true]
    split
    · next key value hseek =>
      split
      · next hkey =>
        have hstored := (hwf.found hr hseek hkey).1
        rw [hempty] at hstored
        cases hstored
      · rfl
    · rfl
  exact ⟨_, congrArg (Option.map _) hended, SortedMap.get?_erase_self _ _⟩

/-- The facts of the last state, from those of its ledger. -/
theorem finished_of_over (hwf : s'.toLedger.Wf) (hsteady : s'.toLedger.Steady)
    (hremains : s'.toLedger.Remains m₀) (hover : s.toLedger.Over s'.toLedger) :
    s'.Finished m₀ s := by
  obtain ⟨hempty, hlanded, hrecorded⟩ := hsteady.nothing_left hover.len
  have hacked : ∀ {t}, Deleted s'.log t → .acked t ∈ thisSession s'.log := by
    intro t hd
    refine (hremains.recorded t hd).resolve_right ?_
    rintro ⟨g, gd, hg, hpc, -⟩
    exact hrecorded g gd hg hpc
  refine ⟨?_, hempty, hlanded, hover.claimed, fun t v hitem => ?_, fun r c hr => ?_,
    hover.handedOut⟩
  · simp [Inner.isDrained, hover.closed, hover.len]
  · have hgone : s'.items.get? t ≠ some v := by simp [hempty t]
    have hd : Deleted s'.log t := by
      rcases hitem with hitem | ⟨old, hput⟩
      · exact (hremains.recovered t v hitem).resolve_left hgone
      · exact (hremains.landed t v old hput).resolve_left hgone
    exact ⟨hd, hacked hd⟩
  · obtain ⟨pc, behind⟩ := c
    cases pc with
    | seeking cursor => exact returnsNone_of_empty hwf hempty hr
    | checking t v =>
      -- what it has found is stored, or about to be recorded
      rcases hsteady.exclusive.found r t v behind hr with hstored | ⟨g, gd, hg, -, hpc⟩
      · rw [hempty] at hstored
        cases hstored
      · exact absurd hpc (hrecorded g gd hg)

/-- Along a run from a drained state. -/
theorem finished_of_run {b : Builder} {st : Store} {s₀ : Session} {as as' : List Act}
    (hopen : Opens b st s₀) (hrun : Run Session.step soloConsumer.act s₀ as s)
    (hdrained : s.inner.isDrained = true) (hrun' : Run Session.step soloConsumer.act s as' s') :
    s'.Finished s₀.items s := by
  obtain ⟨⟨hsolo, hremains⟩, hcoupled⟩ := hopen.coupled.invariant
    (I := fun l => (l.OneCall ∧ l.Steady) ∧ l.Remains s₀.items) hrun
    ⟨Ledger.solo_opened hopen.fresh.1, Ledger.remains_opened hopen.fresh.1⟩
    fun l m l' hwf ⟨hsolo, hremains⟩ hmove hm =>
      ⟨Ledger.solo_moved hsolo hwf hmove hm,
        hremains.moved hsolo.2.kept hwf (soloConsumer_clean hmove) hm⟩
  have hover : s.toLedger.Over s.toLedger := by
    simp only [Inner.isDrained, Bool.and_eq_true, decide_eq_true_eq] at hdrained
    exact ⟨hdrained.1, hdrained.2, fun _ _ _ h => h, fun _ _ h => h⟩
  obtain ⟨⟨⟨-, hsteady⟩, hremains', hover'⟩, hcoupled'⟩ := hcoupled.invariant
    (I := fun l => (l.OneCall ∧ l.Steady) ∧ l.Remains s₀.items ∧ s.toLedger.Over l) hrun'
    ⟨hsolo, hremains, hover⟩
    fun l m l' hwf ⟨hsolo, hremains, hover⟩ hmove hm => by
      have hsolo' := Ledger.solo_moved hsolo hwf hmove hm
      exact ⟨hsolo', hremains.moved hsolo.2.kept hwf (soloConsumer_clean hmove) hm,
        hover.moved hwf hsolo.2 hsolo'.2 hm⟩
  exact finished_of_over hcoupled'.wf hsteady hremains' hover'

end Session

/-- The next poll of the reserve returns `Ok(None)`. -/
def Facade.ReturnsNone (f : Facade) (r : ℕ) : Prop :=
  f.reserves.get? r = some ⟨true, .nothing⟩ ∧
    ∃ f', f.step (.reserved r) = some f' ∧ f'.reserves.get? r = none

instance (f : Facade) (r : ℕ) : Decidable (f.ReturnsNone r) :=
  decidable_of_iff (f.reserves.get? r = some ⟨true, .nothing⟩ ∧
      (f.step (.reserved r)).any fun f' => decide (f'.reserves.get? r = none))
    (by simp only [Facade.ReturnsNone, Option.any_eq_true, decide_eq_true_eq])

/-- It has looked whether the queue is drained. -/
theorem Facade.ReturnsNone.drained {f : Facade} {r : ℕ} (h : f.ReturnsNone r) :
    f.queue.inner.isDrained = true := by
  obtain ⟨hr, f', hstep, hend⟩ := h
  cases Facade.stepped_of_step hstep with
  | none hr' hdrained => exact hdrained
  | reserved hr' | failed hr' => cases hr.symm.trans hr'
  | sleeps hr' hleft =>
    rw [SortedMap.get?_insert_self] at hend
    cases hend

/-- **Drained means drained**, when reserve, ack, nack and drop calls do not overlap and a
commit that fails has applied nothing. A queue that is drained once is so in every later
state: nothing is stored, claimed or handed out any more, and everything there was has been
acked. `AsyncConsumer::reserve` returns `None` only from there. -/
theorem drained_means_drained {b : Builder} {st : Store} {s₀ : Session} (hopen : Opens b st s₀) :
    (∀ as s as' s', Run Session.step soloConsumer.act s₀ as s → s.inner.isDrained = true →
      Run Session.step soloConsumer.act s as' s' → s'.Finished s₀.items s) ∧
    ∀ as f as' f' r,
      Run Facade.step (Facade.Keeps soloConsumer) (Facade.opened s₀) as f → f.ReturnsNone r →
      Run Facade.step (Facade.Keeps soloConsumer) f as' f' →
        f'.queue.Finished s₀.items f.queue := by
  refine ⟨fun as s as' s' hrun hdrained hrun' => ?_, fun as f as' f' r hrun hnone hrun' => ?_⟩
  · exact Session.finished_of_run hopen hrun hdrained hrun'
  · -- the facade looks at the queue it runs
    obtain ⟨bs, hbs⟩ := Facade.queue_run hrun
    obtain ⟨bs', hbs'⟩ := Facade.queue_run hrun'
    exact Session.finished_of_run hopen hbs hnone.drained hbs'

/-- Two pushes are on their way when the queue is closed. One of them lands and the other
fails; the item is acked, and the queue is drained. A reserve that begins then returns `None`,
and so does a reserve of the facade. -/
theorem drained_means_drained_in_flight :
    (∃ s, Run Session.step soloConsumer.act (Session.fresh .default64)
      [.turn (.call [1] true), .turn (.call [2] true), .turn (.attempt 1), .turn (.attempt 2),
        .turn .close, .turn (.reserve 0), .turn (.seek 0 true), .commit 1 .ok, .commit 0 .errClean,
        .turn (.reserve 0), .turn (.seek 0 true), .turn (.check 0 0), .turn (.giveBack 0),
        .turn (.ack 0 .ok), .turn (.record 0)] s ∧ s.inner.isDrained = true ∧
      ∃ s', Run Session.step soloConsumer.act s
        [.turn (.call [3] true), .turn (.attempt 11), .turn (.reserve 1)] s' ∧
        s'.Finished SortedMap.empty s ∧ s'.ReturnsNone 1) ∧
    ∃ f, Run Facade.step (Facade.Keeps soloConsumer) (Facade.opened (Session.fresh .default64))
      [.push [1] true, .queue (.turn (.attempt 1)), .close, .reserve,
        .queue (.commit 0 .errClean), .queue (.turn (.giveBack 0)), .queue (.turn (.reserve 0)),
        .queue (.turn (.seek 0 true))] f ∧ f.ReturnsNone 0 ∧
      f.queue.Finished SortedMap.empty f.queue := by
  have hruns : ∃ s, Run Session.step soloConsumer.act (Session.fresh .default64)
      [.turn (.call [1] true), .turn (.call [2] true), .turn (.attempt 1), .turn (.attempt 2),
        .turn .close, .turn (.reserve 0), .turn (.seek 0 true), .commit 1 .ok, .commit 0 .errClean,
        .turn (.reserve 0), .turn (.seek 0 true), .turn (.check 0 0), .turn (.giveBack 0),
        .turn (.ack 0 .ok), .turn (.record 0)] s ∧ s.inner.isDrained = true ∧
      ∃ s', Run Session.step soloConsumer.act s
        [.turn (.call [3] true), .turn (.attempt 11), .turn (.reserve 1)] s' ∧
        s'.reserves.get? 1 = some ⟨.seeking 0, ∅⟩ := by decide
  have hfacade : ∃ f, Run Facade.step (Facade.Keeps soloConsumer)
      (Facade.opened (Session.fresh .default64))
      [.push [1] true, .queue (.turn (.attempt 1)), .close, .reserve,
        .queue (.commit 0 .errClean), .queue (.turn (.giveBack 0)), .queue (.turn (.reserve 0)),
        .queue (.turn (.seek 0 true))] f ∧ f.ReturnsNone 0 := by decide
  refine ⟨?_, ?_⟩
  · obtain ⟨s, hrun, hdrained, s', hrun', hr⟩ := hruns
    have hfinished := (drained_means_drained (opens_fresh _)).1 _ s _ s' hrun hdrained hrun'
    exact ⟨s, hrun, hdrained, s', hrun', hfinished, hfinished.returns_none 1 _ hr⟩
  · obtain ⟨f, hrun, hnone⟩ := hfacade
    exact ⟨f, hrun, hnone,
      (drained_means_drained (opens_fresh _)).2 _ f [] f 0 hrun hnone (.nil f)⟩

end PersistentQueue
