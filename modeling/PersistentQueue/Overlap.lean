import PersistentQueue.Exact

/-!
# An ack inside a scan

`reserve` looks at the store, and then at the reserved set. An ack deletes from the store,
and then from the reserved set. So a scan that has found an item whose ack is between its
two steps finds the item free if the ack is recorded before the scan looks it up: it hands
out a guard for an item that is gone, and the ack of that guard takes the item off the
counters a second time.

An ack that is recorded while a scan is about to look its item up is all there is to it.
When none is, an acked item is never handed out again, whatever else overlaps, and no ack
underflows a counter as long as the sizes of the items add up to a `usize` (`acked_once`);
after one, the scan's next step hands it out (`overlap_hands_out`).
-/

namespace PersistentQueue

/-- No ack is recorded while a reserve call is about to look its item up. -/
def Turn.Apart (l : Ledger) : Turn → Prop
  | .record g => ∀ gd ∈ l.guards.get? g, ¬l.BeingChecked gd.seq
  | _ => True

instance (l : Ledger) : DecidablePred (Turn.Apart l)
  | .record g => inferInstanceAs (Decidable (∀ gd ∈ l.guards.get? g, ¬l.BeingChecked gd.seq))
  | .call _ _ | .attempt _ | .giveBack _ | .close | .reserve _ | .seek _ _ | .check _ _
  | .ack _ _ | .release _ => isTrue trivial

/-- The runs with clean failures in which no ack is recorded while a reserve call is about to
look its item up. -/
def apart : Discipline where
  turn l a := a.CleanFailure ∧ a.Apart l
  outcome o := o.Clean
  retry _ _ _ := True
  split _ h := h.split

/-- No ack's commit fails, and a reserve call begins when none is in progress. -/
def Turn.OneReserve (l : Ledger) : Turn → Prop
  | .ack _ o => o = .ok
  | .reserve _ => l.reserves.entries = []
  | _ => True

instance (l : Ledger) : DecidablePred (Turn.OneReserve l)
  | .ack _ o => inferInstanceAs (Decidable (o = .ok))
  | .reserve _ => inferInstanceAs (Decidable (l.reserves.entries = []))
  | .call _ _ | .attempt _ | .giveBack _ | .close | .seek _ _ | .check _ _ | .record _
  | .release _ => isTrue trivial

/-- The runs with one reserve call at a time in which no commit fails. -/
def oneReserve : Discipline where
  turn l a := a.OneReserve l
  outcome o := o = .ok
  retry _ _ _ := True
  split _ h := Outcome.split_ok h

instance (s : Session) : DecidablePred (apart.act s) :=
  apart.decideAct (fun l a => inferInstanceAs (Decidable (a.CleanFailure ∧ a.Apart l)))
    (fun o => inferInstanceAs (Decidable o.Clean)) (fun _ _ _ => instDecidableTrue) s

instance (s : Session) : DecidablePred (oneReserve.act s) :=
  oneReserve.decideAct (fun l a => inferInstanceAs (Decidable (a.OneReserve l)))
    (fun o => inferInstanceAs (Decidable (o = .ok))) (fun _ _ _ => instDecidableTrue) s

/-- What is acked is done with: no guard has it or is given it, and it is taken off the
counters once, which do not go below zero. -/
structure AckedOnce (l : Ledger) : Prop where
  /-- no guard has an item whose ack was recorded -/
  unguarded : ∀ t, .acked t ∈ thisSession l.log → ∀ g gd, l.guards.get? g = some gd → gd.seq ≠ t
  /-- no guard was given one -/
  handed_first : ∀ t v, ¬Earlier (.acked t) (.handedOut t v) (thisSession l.log)
  /-- no ack is recorded twice -/
  acked_once : ∀ t, ¬Earlier (.acked t) (.acked t) (thisSession l.log)
  /-- recording an ack does not underflow -/
  record : ∀ g gd, l.guards.get? g = some gd → gd.pc = .deleted →
    1 ≤ l.inner.len ∧ gd.value.length ≤ l.inner.bytes

theorem apart_clean {l : Ledger} {m : Move} (h : apart.move l m) : cleanFailures.move l m :=
  (within_cleanFailures (D := apart) (fun _ _ ha => ha.1) fun _ ho => ho).move h

/-- What the accounting rests on is kept when records stay apart from scans. -/
theorem Ledger.Steady.apart {l l' : Ledger} {m : Move} (h : l.Steady) (hwf : l.Wf)
    (hmove : apart.move l m) (hm : Moved l m l') : l'.Steady := by
  refine h.moved hwf (apart_clean hmove) ?_ hm
  rintro g gd rfl hg
  exact hmove.2.2 gd hg

/-- **An acked item is done with**, in every run in which no ack is recorded while a scan is
about to look its item up, as long as the sizes of the items add up to a `usize`. -/
theorem acked_once {b : Builder} {st : Store} {s₀ s : Session} {as : List Act}
    (hopen : Opens b st s₀) (hrun : Run Session.step apart.act s₀ as s)
    (hfits : s.load List.length < 2 ^ s.cfg.usizeBits) : AckedOnce s.toLedger := by
  have hsteady : s.toLedger.Steady :=
    (hopen.invariant (I := Ledger.Steady) hrun (fun l hl => Ledger.steady_opened hl)
      fun l m l' hwf hl hmove hm => hl.apart hwf hmove hm).1
  exact ⟨hsteady.exclusive.unguarded, hsteady.exclusive.handed_first, hsteady.exclusive.acked_once,
    fun _ _ hg hpc => hsteady.no_underflow hfits fun _ => Ledger.le_load_of_guard hg hpc⟩

/-- An item is acked while a scan that has found another one is about to look that up. -/
theorem acked_once_apart :
    ∃ s, Run Session.step apart.act (Session.fresh .default64)
      [.turn (.call [1] true), .turn (.attempt 1), .commit 0 .ok, .turn (.call [2] true),
        .turn (.attempt 5), .commit 1 .ok, .turn (.reserve 0), .turn (.seek 0 true),
        .turn (.check 0 0), .turn (.ack 0 .ok), .turn (.reserve 0), .turn (.seek 0 true),
        .turn (.record 0), .turn (.check 0 1)] s ∧ AckedOnce s.toLedger := by
  have hrun : ∃ s, Run Session.step apart.act (Session.fresh .default64)
      [.turn (.call [1] true), .turn (.attempt 1), .commit 0 .ok, .turn (.call [2] true),
        .turn (.attempt 5), .commit 1 .ok, .turn (.reserve 0), .turn (.seek 0 true),
        .turn (.check 0 0), .turn (.ack 0 .ok), .turn (.reserve 0), .turn (.seek 0 true),
        .turn (.record 0), .turn (.check 0 1)] s ∧
      s.load List.length < 2 ^ s.cfg.usizeBits := Run.exists_of_exec_any (by decide)
  obtain ⟨s, hrun, hfits⟩ := hrun
  exact ⟨s, hrun, acked_once (opens_fresh _) hrun hfits⟩

/-- After an ack is recorded inside the scan that has found its item, the scan hands the item
out. -/
theorem overlap_hands_out {s : Session} {g g' r : ℕ} {gd : Guard} {v : Bytes} {behind : Finset ℕ}
    (hg : s.guards.get? g = some gd) (hpc : gd.pc = .deleted)
    (hr : s.reserves.get? r = some ⟨.checking gd.seq v, behind⟩)
    (hfree : s.guards.get? g' = none) :
    ∃ s', Run Session.step oneReserve.act s [.turn (.record g), .turn (.check r g')] s' ∧
      ¬AckedOnce s'.toLedger := by
  obtain ⟨seq, value, pc⟩ := gd
  obtain rfl : pc = .deleted := hpc
  have hnone : (s.guards.erase g).get? g' = none := SortedMap.get?_erase_of_none hfree
  refine ⟨_, .cons ⟨trivial, trivial⟩ (t := { s with
    inner := s.inner.recordAck s.cfg seq value
    guards := s.guards.erase g
    log := .acked seq :: s.log }) ?_ (.cons ⟨trivial, trivial⟩ (t := { s with
      inner := (s.inner.recordAck s.cfg seq value).reserve seq
      reserves := s.reserves.erase r
      guards := (s.guards.erase g).insert g' { seq, value := v, pc := .held }
      log := .handedOut seq v :: .acked seq :: s.log }) ?_ (.nil _)), fun h => ?_⟩
  · simp only [Session.step, Ledger.turn, hg]
    rfl
  · simp only [Session.step, Ledger.turn, hr, hnone, Inner.recordAck_reserved,
      Finset.notMem_erase, if_false]
    rfl
  · refine h.handed_first seq v ?_
    simp only [thisSession_cons, ne_eq, reduceCtorEq, not_false_eq_true]
    exact Earlier.of_mem List.mem_cons_self

/-- An item is reserved and acked; a scan that found it before the ack was recorded looks it
up after, and its guard is acked too. -/
def doubleAck : List Act :=
  [.turn (.call [7] true), .turn (.attempt 1), .commit 0 .ok, .turn (.reserve 0),
    .turn (.seek 0 true), .turn (.check 0 0), .turn (.reserve 1), .turn (.seek 1 true),
    .turn (.ack 0 .ok), .turn (.record 0), .turn (.check 1 1), .turn (.ack 1 .ok),
    .turn (.record 1)]

/-- The one item is subtracted from `len` twice. -/
theorem acked_twice :
    ∃ s, Run Session.step oneReserve.act (Session.fresh .default64) doubleAck s ∧
      s.inner.len = 2 ^ 64 - 1 ∧ ¬AckedOnce s.toLedger := by
  have hrun : ∃ s, Run Session.step oneReserve.act (Session.fresh .default64) doubleAck s ∧
      s.inner.len = 2 ^ 64 - 1 ∧ Earlier (.acked 0) (.handedOut 0 [7]) (thisSession s.log) :=
    Run.exists_of_exec_any (by decide)
  obtain ⟨s, hrun, hlen, hearlier⟩ := hrun
  exact ⟨s, hrun, hlen, fun h => h.handed_first 0 [7] hearlier⟩

end PersistentQueue
