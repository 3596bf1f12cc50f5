import PersistentQueue.Session

/-!
# What the counters count

`len` and `bytes` move when a slot is claimed, given back or freed by an ack; the store
moves when commits take effect. In between stand the claims that have not landed and the
acks that have deleted and not recorded. `Ledger.load` is the total of the three for a
size `f` of a value: one for `len`, the length for `bytes`.

A commit can also break the balance: an error that took effect, a `Put` over an entry, a
delete that found nothing. `Event.drift` is by how much, read off the history, and the
counters are always the load plus the drift, as machine words (`Ledger.Counted`). There is
no hypothesis on faults or interleavings here, so this settles when the counters are those
of the store while no call is in progress: when what is stored fits in a `usize` and the
drift is nil (`counters_match_iff`).
-/

namespace PersistentQueue

/-- By how much a commit moved the store away from what the counters credit it with. -/
def Event.drift (f : Bytes → ℕ) : Event → ℤ
  | .put _ value old ok => (old.elim 0 f : ℕ) - if ok then 0 else (f value : ℤ)
  | .removed _ value old ok => (old.elim 0 f : ℕ) - if ok then (f value : ℤ) else 0
  | _ => 0

/-- The drift of a session. -/
def drift (f : Bytes → ℕ) (log : List Event) : ℤ := ((thisSession log).map (Event.drift f)).sum

@[simp] theorem drift_cons {f : Bytes → ℕ} {e : Event} {log : List Event} (he : e ≠ .opened) :
    drift f (e :: log) = e.drift f + drift f log := by
  simp only [drift]
  rw [thisSession_cons he, List.map_cons, List.sum_cons]

/-- The slot of a claim that has not landed. -/
def Write.pending (f : Bytes → ℕ) (w : Write) : ℕ := if w.stage = .landed then 0 else f w.value

/-- The slot of an item whose ack has deleted it and not recorded that. -/
def Guard.unrecorded (f : Bytes → ℕ) (gd : Guard) : ℕ := if gd.pc = .deleted then f gd.value else 0

namespace Ledger

variable {l l' : Ledger} {m : Move} {f : Bytes → ℕ}

/-- The size of the stored items, the claims that have not landed, and the acks that have
deleted and not recorded. -/
def load (l : Ledger) (f : Bytes → ℕ) : ℕ :=
  l.items.sum (fun _ v => f v) + l.writes.sum (fun _ w => w.pending f) +
    l.guards.sum (fun _ gd => gd.unrecorded f)

/-- What a counter stands at. -/
def balance (l : Ledger) (f : Bytes → ℕ) : ℤ := l.load f + drift f l.log

/-- What the commits so far have put and deleted is what the counters credit them with. -/
def NoDrift (l : Ledger) : Prop := drift (fun _ => 1) l.log = 0 ∧ drift List.length l.log = 0

instance (l : Ledger) : Decidable l.NoDrift := inferInstanceAs (Decidable (_ ∧ _))

/-- A counter and its balance move together, by `d`. -/
structure Shift (l l' : Ledger) (d : (Bytes → ℕ) → ℤ) : Prop where
  balance : ∀ f, l'.balance f = l.balance f + d f
  len : (l'.inner.len : ZMod (2 ^ l.cfg.usizeBits)) = l.inner.len + d fun _ => 1
  bytes : (l'.inner.bytes : ZMod (2 ^ l.cfg.usizeBits)) = l.inner.bytes + d List.length

theorem shift_zero (hbalance : ∀ f, l'.balance f = l.balance f) (hlen : l'.inner.len = l.inner.len)
    (hbytes : l'.inner.bytes = l.inner.bytes) : Shift l l' 0 := by
  refine ⟨fun f => ?_, ?_, ?_⟩
  · simp [hbalance]
  · simp [hlen]
  · simp [hbytes]

/-- An attempt on an open queue with room claims. -/
theorem turn_attempt {k : ℕ} {c : Call} (hc : l.calls.get? k = some c)
    (hopen : l.inner.closed = false)
    (hroom : l.cfg.admits l.inner.len l.inner.bytes c.value.length = true) :
    l.turn (.attempt k) = some (l.claim k c.value) := by
  simp only [turn, hc, hopen, hroom, if_true, Bool.false_eq_true, if_false]

/-- A claim is pending. -/
theorem load_claim (hnone : l.writes.get? l.inner.tail = none) (k : ℕ) (v : Bytes) :
    (l.claim k v).load f = l.load f + f v := by
  have hwrites := SortedMap.sum_insert_of_none (fun _ w => Write.pending f w)
    { call := k, value := v, stage := .fresh } hnone
  simp only [Write.pending, reduceCtorEq, if_false] at hwrites
  simp only [load, items, claim, Write.pending]
  omega

/-- The commit of a write: it lands, or it stays pending. -/
theorem balance_put (hwf : l.Wf) {seq : ℕ} {w : Write} (hw : l.writes.get? seq = some w)
    (hstage : w.stage = .fresh ∨ w.stage = .tried) (durable : Bool) (o : Outcome) :
    (l.put seq w durable o).balance f = l.balance f := by
  have hlt := hwf.lt_u64Size (hwf.write_lt seq w hw)
  have hwrites := SortedMap.sum_insert_add l.writes seq (fun _ w => w.pending f)
    { w with stage := if o.isOk then .landed else .tried }
  have hitems := SortedMap.sum_insert_add l.items seq (fun _ v => f v) w.value
  have hpending : w.pending f = f w.value := by
    rcases hstage with h | h <;> simp [Write.pending, h]
  simp only [hw, Option.elim_some, hpending] at hwrites
  have hget := get_entryKey (l := l) hlt
  simp only [balance, load]
  rw [items_put hlt]
  simp only [put]
  by_cases hok : o.isOk = true
  · have ho := Outcome.applies_of_isOk hok
    simp only [hok, ho, if_true, drift_cons, ne_eq, reduceCtorEq, not_false_eq_true,
      Event.drift, hget, Write.pending] at hwrites ⊢
    have helim : (l.items.get? seq).elim 0 (fun v => f v) = (l.items.get? seq).elim 0 f := rfl
    omega
  · by_cases ho : o.applies = true
    · simp only [hok, ho, if_true, if_false, drift_cons, ne_eq, reduceCtorEq, not_false_eq_true,
        Event.drift, hget, Write.pending, Bool.false_eq_true] at hwrites ⊢
      have helim : (l.items.get? seq).elim 0 (fun v => f v) = (l.items.get? seq).elim 0 f := rfl
      omega
    · simp only [hok, ho, if_false, Write.pending, Bool.false_eq_true, reduceCtorEq] at hwrites ⊢
      omega

/-- The commit of an ack's delete: the slot waits to be recorded, or the guard is dropped. -/
theorem balance_remove (hwf : l.Wf) {g : ℕ} {gd : Guard} (hg : l.guards.get? g = some gd)
    (hpc : gd.pc = .held) (o : Outcome) : (l.remove g gd o).balance f = l.balance f := by
  have hlt := hwf.lt_u64Size (hwf.guard_lt g gd hg)
  have hguards := SortedMap.sum_insert_add l.guards g (fun _ gd => gd.unrecorded f)
    { gd with pc := if o.isOk then .deleted else .failed }
  have hitems := SortedMap.sum_erase_elim l.items gd.seq (fun _ v => f v)
  have hheld : gd.unrecorded f = 0 := by simp [Guard.unrecorded, hpc]
  simp only [hg, Option.elim_some, hheld] at hguards
  have hget := get_entryKey (l := l) hlt
  simp only [balance, load]
  rw [items_remove hlt]
  simp only [remove]
  by_cases hok : o.isOk = true
  · have ho := Outcome.applies_of_isOk hok
    simp only [hok, ho, if_true, drift_cons, ne_eq, reduceCtorEq, not_false_eq_true,
      Event.drift, hget, Guard.unrecorded] at hguards ⊢
    have helim : (l.items.get? gd.seq).elim 0 (fun v => f v) = (l.items.get? gd.seq).elim 0 f := rfl
    omega
  · by_cases ho : o.applies = true
    · simp only [hok, ho, if_true, if_false, drift_cons, ne_eq, reduceCtorEq, not_false_eq_true,
        Event.drift, hget, Guard.unrecorded, Bool.false_eq_true] at hguards ⊢
      have helim : (l.items.get? gd.seq).elim 0 (fun v => f v) = (l.items.get? gd.seq).elim 0 f := rfl
      omega
    · simp only [hok, ho, if_false, Guard.unrecorded, Bool.false_eq_true, reduceCtorEq, drift_cons,
        ne_eq, not_false_eq_true, Event.drift] at hguards ⊢
      omega

/-- The move is an attempt that claims a slot. -/
def Claims (l : Ledger) (m : Move) (c : Call) : Prop :=
  ∃ k, m = .turn (.attempt k) ∧ l.calls.get? k = some c ∧ l.inner.closed = false ∧
    l.cfg.admits l.inner.len l.inner.bytes c.value.length = true

/-- Every move shifts the counters by what it shifts the balance: down, or up by the value
that it claims a slot for. -/
theorem shift_moved (hwf : l.Wf) (hm : Moved l m l') :
    ∃ d, Shift l l' d ∧ ((∀ f, d f ≤ 0) ∨ ∃ c, l.Claims m c ∧ ∀ f, d f = f c.value) := by
  have hzero : ∀ {l' : Ledger}, Shift l l' 0 →
      ∃ d, Shift l l' d ∧ ((∀ f, d f ≤ 0) ∨ ∃ c, l.Claims m c ∧ ∀ f, d f = f c.value) :=
    fun h => ⟨0, h, Or.inl fun _ => le_refl _⟩
  cases hm with
  | turnedAway | waits | close | reserve | ended | found | skipped =>
    exact hzero (shift_zero (fun _ => rfl) rfl rfl)
  | call => exact hzero (shift_zero (fun f => by simp [balance, load, items, Event.drift]) rfl rfl)
  | @claim k c hc hroom hopen =>
    refine ⟨fun f => f c.value, ⟨fun f => ?_, ?_, ?_⟩,
      Or.inr ⟨c, ⟨k, rfl, hc, hopen, hroom⟩, fun _ => rfl⟩⟩
    · have hnone : l.writes.get? l.inner.tail = none := by
        rcases hw : l.writes.get? l.inner.tail with _ | w
        · rfl
        · exact absurd (hwf.write_lt _ w hw) (lt_irrefl _)
      rw [balance, load_claim hnone]
      simp only [balance, claim, drift_cons, ne_eq, reduceCtorEq, not_false_eq_true, Event.drift]
      omega
    · simp [claim, Inner.claim]
    · simp [claim, Inner.claim]
  | @giveBack seq w hw hstage =>
    refine ⟨fun f => -f w.value, ⟨fun f => ?_, ?_, ?_⟩, Or.inl fun f => by simp⟩
    · have hwrites := SortedMap.sum_erase_add (fun _ w => Write.pending f w) hw
      simp only [Write.pending, hstage, reduceCtorEq, if_false] at hwrites
      simp only [balance, load, items, Write.pending]
      omega
    · simp [Inner.giveBack, sub_eq_add_neg]
    · simp [Inner.giveBack, sub_eq_add_neg]
  | @handedOut r g seq value behind hr hmem hg =>
    refine hzero (shift_zero (fun f => ?_) rfl rfl)
    have hguards := SortedMap.sum_insert_of_none (fun _ gd => Guard.unrecorded f gd)
      { seq, value, pc := .held } hg
    simp only [Guard.unrecorded, reduceCtorEq, if_false, add_zero] at hguards
    simp only [balance, load, items, drift_cons, ne_eq, reduceCtorEq, not_false_eq_true,
      Event.drift, Guard.unrecorded, hguards]
    omega
  | remove hg hpc o => exact hzero (shift_zero (fun f => balance_remove hwf hg hpc o) rfl rfl)
  | @record g gd hg hpc =>
    refine ⟨fun f => -f gd.value, ⟨fun f => ?_, ?_, ?_⟩, Or.inl fun f => by simp⟩
    · have hguards := SortedMap.sum_erase_add (fun _ gd => Guard.unrecorded f gd) hg
      simp only [Guard.unrecorded, hpc, if_true] at hguards
      simp only [balance, load, items, drift_cons, ne_eq, reduceCtorEq, not_false_eq_true,
        Event.drift, Guard.unrecorded]
      omega
    · simp [sub_eq_add_neg]
    · simp [sub_eq_add_neg]
  | @release g gd hg hpc =>
    refine hzero (shift_zero (fun f => ?_) rfl rfl)
    have hguards := SortedMap.sum_erase_add (fun _ gd => Guard.unrecorded f gd) hg
    simp only [Guard.unrecorded, hpc, if_false, add_zero] at hguards
    simp only [balance, load, items, Guard.unrecorded, hguards]
  | put hw hstage durable o =>
    exact hzero (shift_zero (fun f => balance_put hwf hw hstage durable o) rfl rfl)
  | @returned seq w hw hstage =>
    refine hzero (shift_zero (fun f => ?_) rfl rfl)
    have hwrites := SortedMap.sum_erase_add (fun _ w => Write.pending f w) hw
    simp only [Write.pending, hstage, if_true, add_zero] at hwrites
    simp [balance, load, items, returned, Event.drift, Write.pending, hwrites]
  | @gaveUp seq w hw hstage =>
    refine hzero (shift_zero (fun f => ?_) rfl rfl)
    have hwrites := SortedMap.sum_insert_of_some (fun _ w => Write.pending f w)
      { w with stage := .failed } hw
    simp only [Write.pending, hstage, reduceCtorEq, if_false] at hwrites
    simp only [balance, load, items, gaveUp, Write.pending]
    omega

/-- The counters are the balances, as machine words. -/
structure Counted (l : Ledger) : Prop where
  len : (l.inner.len : ZMod (2 ^ l.cfg.usizeBits)) = l.balance fun _ => 1
  bytes : (l.inner.bytes : ZMod (2 ^ l.cfg.usizeBits)) = l.balance List.length
  len_lt : l.inner.len < 2 ^ l.cfg.usizeBits
  bytes_lt : l.inner.bytes < 2 ^ l.cfg.usizeBits

theorem load_opened {b : Builder} (h : FreshLedger b l) (f : Bytes → ℕ) :
    l.load f = l.items.sum fun _ v => f v := by
  rw [h.opened]
  simp [load, opened, items]

theorem balance_opened {b : Builder} (h : FreshLedger b l) (f : Bytes → ℕ) :
    l.balance f = (l.items.sum fun _ v => f v : ℕ) := by
  have hdrift : drift f l.log = 0 := by
    rw [h.opened]
    rfl
  rw [balance, hdrift, add_zero, load_opened h]

theorem counted_opened {b : Builder} (h : FreshLedger b l) : l.Counted := by
  have hone := l.items.size_eq_sum.symm
  refine ⟨?_, ?_, ?_, ?_⟩
  · rw [balance_opened h, hone, h.recovered.len_eq, Int.cast_natCast]
  · rw [balance_opened h, h.recovered.bytes_eq, h.cfg_eq, Int.cast_natCast, ZMod.natCast_mod]
  · rw [h.recovered.len_eq, h.cfg_eq]
    exact h.fits
  · rw [h.recovered.bytes_eq, h.cfg_eq]
    exact Nat.mod_lt _ (Nat.two_pow_pos _)

theorem Counted.moved (h : l.Counted) (hwf : l.Wf) (hm : Moved l m l') : l'.Counted := by
  obtain ⟨d, hd, -⟩ := shift_moved hwf hm
  have hcfg := cfg_moved hm
  refine ⟨?_, ?_, ?_, ?_⟩
  · rw [hcfg, hd.balance, hd.len, h.len, Int.cast_add]
  · rw [hcfg, hd.balance, hd.bytes, h.bytes, Int.cast_add]
  · rw [hcfg]
    cases hm with
    | claim => exact Word.wrapAdd_lt _ _ _
    | giveBack => exact Word.wrapSub_lt _ _ _
    | record => exact Inner.recordAck_len ▸ Word.wrapSub_lt _ _ _
    | _ => exact h.len_lt
  · rw [hcfg]
    cases hm with
    | claim => exact Word.wrapAdd_lt _ _ _
    | giveBack => exact Word.wrapSub_lt _ _ _
    | record => exact Inner.recordAck_bytes ▸ Word.wrapSub_lt _ _ _
    | _ => exact h.bytes_lt

end Ledger

/-- No call is in progress; guards may be held. -/
def Ledger.NoCall (l : Ledger) : Prop :=
  l.calls.entries = [] ∧ l.writes.entries = [] ∧ l.reserves.entries = [] ∧
    ∀ e ∈ l.guards.entries, e.2.pc = .held

instance (l : Ledger) : Decidable l.NoCall :=
  inferInstanceAs (Decidable (_ ∧ _ ∧ _ ∧ _))

theorem Ledger.NoCall.load {l : Ledger} (h : l.NoCall) (f : Bytes → ℕ) :
    l.load f = l.items.sum fun _ v => f v := by
  obtain ⟨-, hwrites, -, hguards⟩ := h
  have hg : l.guards.sum (fun _ gd => gd.unrecorded f) = l.guards.sum fun _ _ => 0 :=
    SortedMap.sum_congr fun g gd hg => by
      have hpc : gd.pc = .held := hguards _ (SortedMap.get?_eq_some.mp hg)
      simp [Guard.unrecorded, hpc]
  rw [Ledger.load]
  rw [hg]
  simp [SortedMap.sum, hwrites]

/-- The counters of every run. -/
theorem Opens.counted {b : Builder} {st : Store} {s₀ s : Session} {D : Discipline} {as : List Act}
    (h : Opens b st s₀) (hrun : Run Session.step D.act s₀ as s) : s.toLedger.Counted :=
  (h.invariant hrun (fun _ hl => Ledger.counted_opened hl)
    fun _ _ _ hwf hl _ hm => hl.moved hwf hm).1

/-- The counters are those of the store: the number of the entries and their total length. -/
def Ledger.Matches (l : Ledger) : Prop :=
  l.inner.len = l.items.size ∧ l.inner.bytes = l.items.sum fun _ v => v.length

/-- What the counters count in the store can be counted. -/
def Ledger.StoreFits (l : Ledger) : Prop :=
  l.items.size < 2 ^ l.cfg.usizeBits ∧ l.items.sum (fun _ v => v.length) < 2 ^ l.cfg.usizeBits

/-- **When the counters are those of the store.** In every run, whatever commits come to and
however calls overlap: when no call is in progress, `len` and `bytes` are those of the store
exactly if what is stored fits in a `usize` and the drift of the commits so far is nil. -/
theorem counters_match_iff {b : Builder} {st : Store} {s₀ s : Session} {as : List Act}
    (hopen : Opens b st s₀) (hrun : Run Session.step anyRun.act s₀ as s) (hquiet : s.NoCall) :
    s.Matches ↔ s.StoreFits ∧
      (drift (fun _ => 1) s.log : ZMod (2 ^ s.cfg.usizeBits)) = 0 ∧
        (drift List.length s.log : ZMod (2 ^ s.cfg.usizeBits)) = 0 := by
  have hcounted := hopen.counted hrun
  have hone := s.items.size_eq_sum.symm
  have hlen : s.inner.len = s.items.size ↔ s.items.size < 2 ^ s.cfg.usizeBits ∧
      (drift (fun _ => 1) s.log : ZMod (2 ^ s.cfg.usizeBits)) = 0 := by
    refine Word.eq_iff_of_cast hcounted.len_lt ?_
    rw [hcounted.len, Ledger.balance, hquiet.load, hone]
  have hbytes : s.inner.bytes = s.items.sum (fun _ v => v.length) ↔
      s.items.sum (fun _ v => v.length) < 2 ^ s.cfg.usizeBits ∧
        (drift List.length s.log : ZMod (2 ^ s.cfg.usizeBits)) = 0 := by
    refine Word.eq_iff_of_cast hcounted.bytes_lt ?_
    rw [hcounted.bytes, Ledger.balance, hquiet.load]
  rw [Ledger.Matches, hlen, hbytes, Ledger.StoreFits]
  exact and_and_and_comm

/-- A push that fails without effect, and one that succeeds. -/
def failedThenPushed : List Act :=
  [.turn (.call [7] true), .turn (.attempt 1), .commit 0 .errClean, .turn (.giveBack 0),
    .turn (.call [8, 9] true), .turn (.attempt 3), .commit 1 .ok]

theorem counters_match_iff_clean :
    ∃ s, Run Session.step anyRun.act (Session.fresh .default64) failedThenPushed s ∧ s.NoCall ∧
      (s.Matches ↔ s.StoreFits ∧
        (drift (fun _ => 1) s.log : ZMod (2 ^ s.cfg.usizeBits)) = 0 ∧
          (drift List.length s.log : ZMod (2 ^ s.cfg.usizeBits)) = 0) := by
  have hrun : ∃ s, Run Session.step anyRun.act (Session.fresh .default64) failedThenPushed s ∧
      s.NoCall := Run.exists_of_exec_any (by decide)
  obtain ⟨s, hrun, hquiet⟩ := hrun
  exact ⟨s, hrun, hquiet, counters_match_iff (opens_fresh _) hrun hquiet⟩

/-- A push whose commit reports a failure after it took effect; the item it left behind is
then handed out and acked. -/
def failedButApplied : List Act :=
  [.turn (.call [7] true), .turn (.attempt 1), .commit 0 (.err [true]), .turn (.giveBack 0),
    .turn (.reserve 0), .turn (.seek 0 true), .turn (.check 0 0), .turn (.ack 0 .ok),
    .turn (.record 0)]

/-- The slot of the item is subtracted twice, and `len` of the empty queue underflows. -/
theorem counters_do_not_match :
    ∃ s, Run Session.step anyRun.act (Session.fresh .default64) failedButApplied s ∧
      s.NoCall ∧ s.items.size = 0 ∧ s.inner.len = 2 ^ 64 - 1 ∧ ¬s.Matches := by
  have hrun : ∃ s, Run Session.step anyRun.act (Session.fresh .default64) failedButApplied s ∧
      s.NoCall ∧ s.items.size = 0 ∧ s.inner.len = 2 ^ 64 - 1 :=
    Run.exists_of_exec_any (by decide)
  obtain ⟨s, hrun, hquiet, hsize, hlen⟩ := hrun
  refine ⟨s, hrun, hquiet, hsize, hlen, fun hmatch => ?_⟩
  have := hmatch.1
  rw [hsize, hlen] at this
  cases this

end PersistentQueue
