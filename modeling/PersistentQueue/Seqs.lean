import PersistentQueue.Recovery
import PersistentQueue.Ledger

/-!
# The sequence numbers in play

`Ledger.Wf` says that every seq the queue deals with, stored, claimed, looked at, handed
out or acked, is below `tail`, and that the store holds no half entry keys. It holds in
every run in which no push claims the last `u64` (`Below`), whatever commits come to, and
it is what lets seqs stand for the entries of the byte map.
-/

namespace PersistentQueue

namespace Ledger

variable {l l' : Ledger} {m : Move} {k seq : ℕ} {w : Write} {durable : Bool} {o : Outcome}

/-! ## What a commit does to the items -/

/-- The items after the commit of one write. -/
theorem items_put (hseq : seq < u64Size) :
    (l.put seq w durable o).items =
      if o.applies then l.items.insert seq w.value else l.items := by
  have hput := items_apply (m := l.store.live) hseq (some w.value)
  simp only [items, put, Store.commit_one_live, Op.update]
  split
  · exact hput
  · rfl

theorem get?_items_put (hseq : seq < u64Size) (t : ℕ) :
    (l.put seq w durable o).items.get? t =
      if o.applies = true ∧ t = seq then some w.value else l.items.get? t := by
  rw [items_put hseq]
  by_cases ho : o.applies = true
  · simp only [ho, if_true, true_and]
    exact SortedMap.get?_insert _ _ _ _
  · simp only [ho, false_and, if_false, Bool.false_eq_true]

/-- The items after the commit of an ack's delete. -/
theorem items_remove {g : ℕ} {gd : Guard} (hseq : gd.seq < u64Size) :
    (l.remove g gd o).items = if o.applies then l.items.erase gd.seq else l.items := by
  have hdelete := items_apply (m := l.store.live) hseq none
  simp only [items, remove, Store.commit_one_live, Op.update]
  split
  · exact hdelete
  · rfl

theorem get?_items_remove {g : ℕ} {gd : Guard} (hseq : gd.seq < u64Size) (t : ℕ) :
    (l.remove g gd o).items.get? t =
      if o.applies = true ∧ t = gd.seq then none else l.items.get? t := by
  rw [items_remove hseq]
  by_cases ho : o.applies = true
  · simp only [ho, if_true, true_and]
    exact SortedMap.get?_erase _ _ _
  · simp only [ho, false_and, if_false, Bool.false_eq_true]

/-- What the store's `get` says about an entry. -/
theorem get_entryKey (hseq : seq < u64Size) : l.store.get (entryKey seq) = l.items.get? seq :=
  (get?_items hseq).symm

/-- A scan's seek over well-keyed entries is a search of the items. -/
theorem seek_items {cursor : ℕ} (hcursor : cursor < u64Size) {key : Key} {value : Bytes}
    (h : l.store.seek (entryKey cursor) = some (key, value)) (hkey : isEntry key = true) :
    l.items.seek cursor = some (seqOf key, value) :=
  seek_isEntry (entryKey_bound hcursor) h hkey

/-! ## Every seq is below the tail -/

/-- The push is let in. -/
def LetsIn (l : Ledger) (k : ℕ) : Prop :=
  l.inner.closed = false ∧
    ∃ c ∈ l.calls.get? k, l.cfg.admits l.inner.len l.inner.bytes c.value.length = true

instance (l : Ledger) (k : ℕ) : Decidable (l.LetsIn k) :=
  inferInstanceAs (Decidable (_ ∧ ∃ c ∈ l.calls.get? k, _))

/-- No push claims the last `u64`. -/
def Below (l : Ledger) : Move → Prop
  | .turn (.attempt k) => l.LetsIn k → l.inner.tail < u64Max
  | _ => True

instance (l : Ledger) : DecidablePred l.Below
  | .turn (.attempt k) => inferInstanceAs (Decidable (l.LetsIn k → l.inner.tail < u64Max))
  | .turn (.call _ _) | .turn (.giveBack _) | .turn .close | .turn (.reserve _)
  | .turn (.seek _ _) | .turn (.check _ _) | .turn (.ack _ _) | .turn (.record _)
  | .turn (.release _) | .put _ _ _ | .returned _ | .gaveUp _ => isTrue trivial

/-- The tail only grows. -/
theorem tail_mono (hbelow : l.Below m) (hm : Moved l m l') : l.inner.tail ≤ l'.inner.tail := by
  cases hm with
  | claim hc hroom hopen =>
    have hlt : l.inner.tail < u64Max := hbelow ⟨hopen, _, hc, hroom⟩
    exact (Nat.le_succ _).trans (u64Succ_of_lt hlt).ge
  | record => exact (Inner.recordAck_tail).ge
  | _ => exact le_refl _

/-- A claim takes the tail to the next seq. -/
theorem claimed_tail (hbelow : l.Below (.turn (.attempt k))) (hm : Moved l (.turn (.attempt k)) l')
    {v : Bytes} (hclaim : l' = l.claim k v) :
    l.inner.tail < u64Max ∧ l'.inner.tail = l.inner.tail + 1 := by
  have hlog := congrArg (fun l => l.log.length) hclaim
  cases hm with
  | turnedAway | waits =>
    simp only [claim, List.length_cons] at hlog
    omega
  | claim hc hroom hopen =>
    have hlt : l.inner.tail < u64Max := hbelow ⟨hopen, _, hc, hroom⟩
    exact ⟨hlt, u64Succ_of_lt hlt⟩

/-- How a move brings a write to its stage. -/
inductive WriteMoved (l l' : Ledger) : ℕ → Move → Write → Prop
  | stays {t : ℕ} {m : Move} {w : Write} (hw : l.writes.get? t = some w)
      (hput : ∀ durable o, m ≠ .put t durable o) : WriteMoved l l' t m w
  | claims {k : ℕ} {c : Call} (hc : l.calls.get? k = some c) (hclaim : l' = l.claim k c.value) :
    WriteMoved l l' l.inner.tail (.turn (.attempt k))
      { call := k, value := c.value, stage := .fresh }
  | commits {t : ℕ} {w : Write} (hw : l.writes.get? t = some w)
      (hstage : w.stage = .fresh ∨ w.stage = .tried) (durable : Bool) (o : Outcome) :
    WriteMoved l l' t (.put t durable o)
      { w with stage := if o.isOk then .landed else .tried }
  | givesUp {t : ℕ} {w : Write} (hw : l.writes.get? t = some w) (hstage : w.stage = .tried) :
    WriteMoved l l' t (.gaveUp t) { w with stage := .failed }

/-- A move does one of these to a write that is there after it. -/
theorem writeMoved (hm : Moved l m l') {t : ℕ} {w : Write} (hw : l'.writes.get? t = some w) :
    WriteMoved l l' t m w := by
  cases hm with
  | claim hc =>
    rcases SortedMap.of_get?_insert hw with ⟨rfl, rfl⟩ | ⟨-, hw⟩
    · exact .claims hc rfl
    · exact .stays hw (by simp)
  | put hw₀ hstage durable o =>
    rcases SortedMap.of_get?_insert hw with ⟨rfl, rfl⟩ | ⟨hne, hw⟩
    · exact .commits hw₀ hstage durable o
    · exact .stays hw fun d o' heq => hne (Move.put.inj heq).1.symm
  | gaveUp hw₀ hstage =>
    rcases SortedMap.of_get?_insert hw with ⟨rfl, rfl⟩ | ⟨-, hw⟩
    · exact .givesUp hw₀ hstage
    · exact .stays hw (by simp)
  | giveBack | returned => exact .stays (SortedMap.of_get?_erase hw).2 (by simp)
  | call | turnedAway | waits | close | reserve | ended | found | skipped | handedOut | remove
  | record | release => exact .stays hw (by simp)

/-- A write was there before with its call and its value, or its push has just claimed it. -/
theorem of_writes (hm : Moved l m l') {t : ℕ} {w' : Write} (hw : l'.writes.get? t = some w') :
    (∃ w, l.writes.get? t = some w ∧ w'.call = w.call ∧ w'.value = w.value) ∨
      ∃ k c, m = .turn (.attempt k) ∧ l.calls.get? k = some c ∧ t = l.inner.tail ∧
        w' = { call := k, value := c.value, stage := .fresh } ∧ l' = l.claim k c.value := by
  cases writeMoved hm hw with
  | stays hw₀ | commits hw₀ | givesUp hw₀ => exact Or.inl ⟨_, hw₀, rfl, rfl⟩
  | claims hc hclaim => exact Or.inr ⟨_, _, rfl, hc, rfl, rfl, hclaim⟩

/-- A seq with no write gets one only when it is claimed. -/
theorem writes_none (hm : Moved l m l') {t : ℕ} (ht : t ≠ l.inner.tail)
    (hnone : l.writes.get? t = none) : l'.writes.get? t = none := by
  rcases hw : l'.writes.get? t with _ | w'
  · rfl
  · rcases of_writes hm hw with ⟨w, hold, -⟩ | ⟨k, c, -, -, htail, -⟩
    · rw [hnone] at hold
      cases hold
    · exact absurd htail ht

/-- A guard was there before with its item, and an ack may have moved it on, or a scan has
just handed it out. -/
theorem of_guards (hm : Moved l m l') {g : ℕ} {gd' : Guard} (hg : l'.guards.get? g = some gd') :
    (∃ gd, l.guards.get? g = some gd ∧ gd'.seq = gd.seq ∧ gd'.value = gd.value ∧
      (gd' = gd ∨ ∃ o, m = .turn (.ack g o) ∧ gd.pc = .held ∧
        gd'.pc = if o.isOk then .deleted else .failed)) ∨
      ∃ r behind, m = .turn (.check r g) ∧
        l.reserves.get? r = some ⟨.checking gd'.seq gd'.value, behind⟩ ∧
        gd'.seq ∉ l.inner.reserved ∧ gd'.pc = .held ∧
        .handedOut gd'.seq gd'.value ∈ thisSession l'.log := by
  cases hm with
  | handedOut hr hmem =>
    rcases SortedMap.of_get?_insert hg with ⟨rfl, rfl⟩ | ⟨-, hg⟩
    · exact Or.inr ⟨_, _, rfl, hr, hmem, rfl, by simp⟩
    · exact Or.inl ⟨gd', hg, rfl, rfl, Or.inl rfl⟩
  | remove hg₀ hpc₀ o =>
    rcases SortedMap.of_get?_insert hg with ⟨rfl, rfl⟩ | ⟨-, hg⟩
    · exact Or.inl ⟨_, hg₀, rfl, rfl, Or.inr ⟨o, rfl, hpc₀, rfl⟩⟩
    · exact Or.inl ⟨gd', hg, rfl, rfl, Or.inl rfl⟩
  | record | release => exact Or.inl ⟨gd', (SortedMap.of_get?_erase hg).2, rfl, rfl, Or.inl rfl⟩
  | call | turnedAway | waits | claim | giveBack | close | reserve | ended | found | skipped
  | put | returned | gaveUp => exact Or.inl ⟨gd', hg, rfl, rfl, Or.inl rfl⟩

/-- A guard is past its delete because it was before, or because that has just committed. -/
theorem of_guard_deleted (hm : Moved l m l') {g : ℕ} {gd' : Guard}
    (hg : l'.guards.get? g = some gd') (hpc : gd'.pc = .deleted) :
    l.guards.get? g = some gd' ∨ ∃ gd o, m = .turn (.ack g o) ∧ l.guards.get? g = some gd ∧
      gd.pc = .held ∧ o.isOk = true ∧ gd'.seq = gd.seq := by
  rcases of_guards hm hg with ⟨gd, hold, hseq, -, rfl | ⟨o, hturn, hheld, hpc'⟩⟩ |
    ⟨r, behind, -, -, -, hheld, -⟩
  · exact Or.inl hold
  · rw [hpc] at hpc'
    cases hok : o.isOk
    · simp [hok] at hpc'
    · exact Or.inr ⟨gd, o, hturn, hold, hheld, hok, hseq⟩
  · rw [hpc] at hheld
    cases hheld

/-- A guard whose delete has committed stays as it is until its ack is recorded. -/
theorem guard_stays (hm : Moved l m l') {g : ℕ} {gd : Guard} (hg : l.guards.get? g = some gd)
    (hpc : gd.pc = .deleted) (hrecord : m ≠ .turn (.record g)) :
    l'.guards.get? g = some gd := by
  cases hm with
  | handedOut hr hmem hnone =>
    refine (SortedMap.get?_insert_ne _ _ ?_).trans hg
    rintro rfl
    rw [hnone] at hg
    cases hg
  | remove hg₀ hpc₀ =>
    refine (SortedMap.get?_insert_ne _ _ ?_).trans hg
    rintro rfl
    obtain rfl := Option.some.inj (hg.symm.trans hg₀)
    rw [hpc] at hpc₀
    cases hpc₀
  | record =>
    refine (SortedMap.get?_erase_ne _ ?_).trans hg
    rintro rfl
    exact hrecord rfl
  | release hg₀ hpc₀ =>
    refine (SortedMap.get?_erase_ne _ ?_).trans hg
    rintro rfl
    obtain rfl := Option.some.inj (hg.symm.trans hg₀)
    exact hpc₀ hpc
  | call | turnedAway | waits | claim | giveBack | close | reserve | ended | found | skipped
  | put | returned | gaveUp => exact hg

/-- A call is numbered by the length of the history at its start. -/
theorem of_calls (hm : Moved l m l') {k : ℕ} {c : Call} (hc : l'.calls.get? k = some c) :
    l.calls.get? k = some c ∨ k = l.log.length ∧ l'.log.length = l.log.length + 1 := by
  cases hm with
  | call =>
    rcases SortedMap.of_get?_insert hc with ⟨rfl, -⟩ | ⟨-, hc⟩
    · exact Or.inr ⟨rfl, rfl⟩
    · exact Or.inl hc
  | turnedAway | claim => exact Or.inl (SortedMap.of_get?_erase hc).2
  | waits | giveBack | close | reserve | ended | found | skipped | handedOut | remove | record
  | release | put | returned | gaveUp => exact Or.inl hc

theorem length_mono (hm : Moved l m l') : l.log.length ≤ l'.log.length := by
  obtain ⟨es, heq, -⟩ := moved_log hm
  rw [heq, List.length_append]
  omega

theorem call_lt_moved (hm : Moved l m l')
    (h : ∀ k c, l.calls.get? k = some c → k < l.log.length) :
    ∀ k c, l'.calls.get? k = some c → k < l'.log.length := by
  intro k c hc
  rcases of_calls hm hc with hc | ⟨rfl, hlen⟩
  · exact (h k c hc).trans_le (length_mono hm)
  · omega

/-- Every seq in play is below the tail, and the keys are those the queue writes. -/
structure Wf (l : Ledger) : Prop where
  keyed : WellKeyed l.store.live
  tail_le : l.inner.tail ≤ u64Max
  head_le : l.inner.head ≤ l.inner.tail
  above_lt : ∀ t ∈ l.inner.ackedAbove, t < l.inner.tail
  stored_lt : ∀ t v, l.items.get? t = some v → t < l.inner.tail
  write_lt : ∀ t w, l.writes.get? t = some w → t < l.inner.tail
  position_le : ∀ r c, l.reserves.get? r = some c → c.pc.position ≤ l.inner.tail
  checking_lt : ∀ r t v b, l.reserves.get? r = some ⟨.checking t v, b⟩ → t < l.inner.tail
  guard_lt : ∀ g gd, l.guards.get? g = some gd → gd.seq < l.inner.tail

theorem Wf.lt_u64Max (h : l.Wf) {t : ℕ} (ht : t < l.inner.tail) : t < u64Max :=
  lt_of_lt_of_le ht h.tail_le

theorem Wf.lt_u64Size (h : l.Wf) {t : ℕ} (ht : t < l.inner.tail) : t < u64Size :=
  lt_u64Size_of_lt_u64Max (h.lt_u64Max ht)

/-- A cursor is an entry's seq, and a seek from it is a search of the items. -/
theorem Wf.seek_items (h : l.Wf) {r cursor : ℕ} {behind : Finset ℕ} {key : Key} {value : Bytes}
    (hr : l.reserves.get? r = some ⟨.seeking cursor, behind⟩)
    (hseek : l.store.seek (entryKey cursor) = some (key, value)) (hkey : isEntry key = true) :
    l.items.seek cursor = some (seqOf key, value) := by
  have hle : cursor ≤ l.inner.tail := h.position_le r _ hr
  have htail := h.tail_le
  exact Ledger.seek_items (by unfold u64Max u64Size at *; omega) hseek hkey

/-- What a scan found. -/
theorem Wf.found (h : l.Wf) {r cursor : ℕ} {behind : Finset ℕ} {key : Key} {value : Bytes}
    (hr : l.reserves.get? r = some ⟨.seeking cursor, behind⟩)
    (hseek : l.store.seek (entryKey cursor) = some (key, value)) (hkey : isEntry key = true) :
    l.items.get? (seqOf key) = some value ∧ cursor ≤ seqOf key ∧
      ∀ t v, l.items.get? t = some v → cursor ≤ t → seqOf key ≤ t :=
  SortedMap.seek_eq_some.mp (h.seek_items hr hseek hkey)

theorem notice_pc (c : ReserveCall) (seq : ℕ) : (c.notice seq).pc = c.pc := by
  rw [ReserveCall.notice]
  split <;> rfl

/-- A commit of a write leaves the reserve calls where they stand. -/
theorem reserves_put {r : ℕ} {c : ReserveCall}
    (h : (l.put seq w durable o).reserves.get? r = some c) :
    ∃ c₀, l.reserves.get? r = some c₀ ∧ c.pc = c₀.pc := by
  simp only [put] at h
  split at h
  · rw [SortedMap.get?_mapVal] at h
    obtain ⟨c₀, hc₀, rfl⟩ := Option.map_eq_some_iff.mp h
    exact ⟨c₀, hc₀, notice_pc c₀ seq⟩
  · exact ⟨c, h, rfl⟩

/-- An item is stored because it was before, or because a commit has just put it. -/
theorem Wf.of_items (h : l.Wf) (hm : Moved l m l') {t : ℕ} {v : Bytes}
    (ht : l'.items.get? t = some v) :
    l.items.get? t = some v ∨ ∃ w durable o, m = .put t durable o ∧
      l.writes.get? t = some w ∧ o.applies = true ∧ v = w.value := by
  cases hm with
  | @put seq w hw hstage durable o =>
    rw [get?_items_put (h.lt_u64Size (h.write_lt seq w hw))] at ht
    split at ht
    · next hand =>
      obtain ⟨happ, rfl⟩ := hand
      exact Or.inr ⟨w, durable, o, rfl, hw, happ, (Option.some.inj ht).symm⟩
    · exact Or.inl ht
  | @remove g gd hg hpc o =>
    rw [get?_items_remove (h.lt_u64Size (h.guard_lt g gd hg))] at ht
    split at ht
    · cases ht
    · exact Or.inl ht
  | call | turnedAway | waits | claim | giveBack | close | reserve | ended | found | skipped
  | handedOut | record | release | returned | gaveUp => exact Or.inl ht

/-- What is not stored is stored by a commit that puts it, and by no other move. -/
theorem Wf.items_none (h : l.Wf) (hm : Moved l m l') {t : ℕ} (hnone : l.items.get? t = none)
    (hput : ∀ w durable o, m = .put t durable o → l.writes.get? t = some w →
      o.applies = false) : l'.items.get? t = none := by
  rcases ht : l'.items.get? t with _ | v
  · rfl
  · rcases h.of_items hm ht with hold | ⟨w, durable, o, hput', hw, happ, -⟩
    · rw [hnone] at hold
      cases hold
    · rw [hput w durable o hput' hw] at happ
      cases happ

/-- How a move brings a scan to where it stands. -/
inductive ScanMoved (l : Ledger) (r : ℕ) : Move → ReservePc → Prop
  | stays {m : Move} {pc : ReservePc} {behind : Finset ℕ}
      (hr : l.reserves.get? r = some ⟨pc, behind⟩) : ScanMoved l r m pc
  | begins : ScanMoved l r (.turn (.reserve r)) (.seeking l.inner.head)
  | finds {cursor t : ℕ} {v : Bytes} {behind : Finset ℕ}
      (hr : l.reserves.get? r = some ⟨.seeking cursor, behind⟩)
      (ht : l.items.get? t = some v)
      (hfirst : ∀ s w, l.items.get? s = some w → cursor ≤ s → t ≤ s) :
    ScanMoved l r (.turn (.seek r true)) (.checking t v)
  | skips (g : ℕ) {t : ℕ} {v : Bytes} {behind : Finset ℕ}
      (hr : l.reserves.get? r = some ⟨.checking t v, behind⟩) (hmem : t ∈ l.inner.reserved) :
    ScanMoved l r (.turn (.check r g)) (.seeking (u64Succ t))

/-- A move does one of these to a scan that is in progress after it. -/
theorem Wf.scanMoved (h : l.Wf) (hm : Moved l m l') {r : ℕ} {c : ReserveCall}
    (hc : l'.reserves.get? r = some c) : l.ScanMoved r m c.pc := by
  cases hm with
  | reserve =>
    rcases SortedMap.of_get?_insert hc with ⟨rfl, rfl⟩ | ⟨-, hc⟩
    · exact .begins
    · exact .stays hc
  | found hr hseek hkey =>
    rcases SortedMap.of_get?_insert hc with ⟨rfl, rfl⟩ | ⟨-, hc⟩
    · obtain ⟨hstored, -, hfirst⟩ := h.found hr hseek hkey
      exact .finds hr hstored hfirst
    · exact .stays hc
  | skipped g hr hmem =>
    rcases SortedMap.of_get?_insert hc with ⟨rfl, rfl⟩ | ⟨-, hc⟩
    · exact .skips g hr hmem
    · exact .stays hc
  | ended | handedOut => exact .stays (SortedMap.of_get?_erase hc).2
  | put =>
    -- a commit that a scan notices leaves it where it is
    obtain ⟨c₀, hc₀, hpc⟩ := reserves_put hc
    exact hpc ▸ .stays hc₀
  | call | turnedAway | waits | claim | giveBack | close | remove | record | release | returned
  | gaveUp => exact .stays hc

/-- A scan that is in progress was so before, unless it begins. -/
theorem Wf.of_reserves (h : l.Wf) (hm : Moved l m l') {r : ℕ} {c : ReserveCall}
    (hnew : m ≠ .turn (.reserve r)) (hc : l'.reserves.get? r = some c) :
    ∃ c₀, l.reserves.get? r = some c₀ := by
  have hscan := h.scanMoved hm hc
  generalize c.pc = pc at hscan
  cases hscan with
  | stays hr | finds hr | skips _ hr => exact ⟨_, hr⟩
  | begins => exact absurd rfl hnew

/-- A scan found its item before, or it has just found it stored. -/
theorem Wf.of_found (h : l.Wf) (hm : Moved l m l') {r t : ℕ} {v : Bytes} {b : Finset ℕ}
    (hr : l'.reserves.get? r = some ⟨.checking t v, b⟩) :
    (∃ b₀, l.reserves.get? r = some ⟨.checking t v, b₀⟩) ∨
      m = .turn (.seek r true) ∧ l.items.get? t = some v := by
  cases h.scanMoved hm hr with
  | stays hr₀ => exact Or.inl ⟨_, hr₀⟩
  | finds hr₀ hstored => exact Or.inr ⟨rfl, hstored⟩

/-- A scan goes past a stored item when it begins above it, or the item is reserved. -/
theorem Wf.of_passed (h : l.Wf) (hm : Moved l m l') {r t : ℕ} {c : ReserveCall} {v : Bytes}
    (hc : l'.reserves.get? r = some c) (ht : l.items.get? t = some v)
    (hlt : t < c.pc.position) :
    (∃ c₀, l.reserves.get? r = some c₀ ∧ t < c₀.pc.position) ∨
      m = .turn (.reserve r) ∧ t < l.inner.head ∨
      ∃ g, m = .turn (.check r g) ∧ t ∈ l.inner.reserved := by
  have hscan := h.scanMoved hm hc
  generalize c.pc = pc at hlt hscan
  cases hscan with
  | stays hr => exact Or.inl ⟨_, hr, hlt⟩
  | begins => exact Or.inr (Or.inl ⟨rfl, hlt⟩)
  | finds hr _ hfirst =>
    -- the seek found the first item from the cursor on
    refine Or.inl ⟨_, hr, not_le.mp fun hle => ?_⟩
    exact absurd hlt (hfirst t v ht hle).not_gt
  | @skips g seq _ _ hr hmem =>
    simp only [ReservePc.position, u64Succ_of_lt (h.lt_u64Max (h.checking_lt _ _ _ _ hr))] at hlt
    rcases eq_or_lt_of_le (Nat.lt_succ_iff.mp hlt) with rfl | hlt
    · exact Or.inr (Or.inr ⟨g, rfl, hmem⟩)
    · exact Or.inl ⟨_, hr, hlt⟩

/-- A stored item stays as it is unless a commit puts it again or deletes it. -/
theorem Wf.item_stays (h : l.Wf) (hm : Moved l m l') {t : ℕ} {v : Bytes}
    (ht : l.items.get? t = some v) :
    l'.items.get? t = some v ∨
      (∃ w durable o, m = .put t durable o ∧ l.writes.get? t = some w ∧
        l'.items.get? t = some w.value) ∨
      ∃ g gd o, m = .turn (.ack g o) ∧ l.guards.get? g = some gd ∧ gd.pc = .held ∧
        o.applies = true ∧ gd.seq = t := by
  cases hm with
  | @put seq w hw hstage durable o hdurable =>
    have hput : (l.put seq w durable o).items.get? t = _ :=
      get?_items_put (h.lt_u64Size (h.write_lt seq w hw)) t
    split at hput
    · next hand =>
      obtain ⟨-, rfl⟩ := hand
      exact Or.inr (Or.inl ⟨w, durable, o, rfl, hw, hput⟩)
    · exact Or.inl (hput.trans ht)
  | @remove g gd hg hpc o =>
    have hremove : (l.remove g gd o).items.get? t = _ :=
      get?_items_remove (h.lt_u64Size (h.guard_lt g gd hg)) t
    split at hremove
    · next hand =>
      obtain ⟨happ, rfl⟩ := hand
      exact Or.inr (Or.inr ⟨g, gd, o, rfl, hg, hpc, happ, rfl⟩)
    · exact Or.inl (hremove.trans ht)
  | call | turnedAway | waits | claim | giveBack | close | reserve | ended | found | skipped
  | handedOut | record | release | returned | gaveUp => exact Or.inl ht

/-- A seq is acked above the head because it was before, or its ack is recorded. -/
theorem Wf.of_above (h : l.Wf) (hm : Moved l m l') {t : ℕ} (ht : t ∈ l'.inner.ackedAbove) :
    t ∈ l.inner.ackedAbove ∨ ∃ g gd, m = .turn (.record g) ∧ l.guards.get? g = some gd ∧
      gd.pc = .deleted ∧ gd.seq = t := by
  cases hm with
  | @record g gd hg hpc =>
    obtain ⟨-, -, habove⟩ := @Inner.recordAck_cursor l.cfg l.inner gd.seq gd.value
      (h.lt_u64Max (h.guard_lt g gd hg)) fun t ht => h.lt_u64Max (h.above_lt t ht)
    rcases habove t ht with rfl | hmem
    · exact Or.inr ⟨g, gd, rfl, hg, hpc, rfl⟩
    · exact Or.inl hmem
  | _ => exact Or.inl ht

/-- The head crosses a seq when the ack of it is recorded, or was before. -/
theorem Wf.of_head (h : l.Wf) (hm : Moved l m l') {t : ℕ} (ht : t < l'.inner.head) :
    t < l.inner.head ∨ t ∈ l.inner.ackedAbove ∨ ∃ g gd, m = .turn (.record g) ∧
      l.guards.get? g = some gd ∧ gd.pc = .deleted ∧ gd.seq = t := by
  cases hm with
  | @record g gd hg hpc =>
    by_cases hlt : t < l.inner.head
    · exact Or.inl hlt
    · obtain ⟨-, hcross, -⟩ := @Inner.recordAck_cursor l.cfg l.inner gd.seq gd.value
        (h.lt_u64Max (h.guard_lt g gd hg)) fun t ht => h.lt_u64Max (h.above_lt t ht)
      rcases hcross t (not_lt.mp hlt) ht with rfl | hmem
      · exact Or.inr (Or.inr ⟨g, gd, rfl, hg, hpc, rfl⟩)
      · exact Or.inr (Or.inl hmem)
  | _ => exact Or.inl ht

theorem wf_opened {cfg : Builder} {st : Store} {inner : Inner} {log : List Event}
    (hkeyed : WellKeyed st.live)
    (hbound : ∀ s v, (PersistentQueue.items st.live).get? s = some v → s < u64Max)
    (hinner : Recovered cfg (PersistentQueue.items st.live) inner) :
    (opened cfg st inner log).Wf where
  keyed := hkeyed
  tail_le := by
    rcases hinner.tail_pred with h | ⟨s, v, hs, h⟩
    · exact h ▸ Nat.zero_le _
    · have := hbound s v hs
      simp only [opened]
      omega
  head_le := by
    rcases hinner.head_eq with h | ⟨v, hv⟩
    · exact h.le
    · exact (hinner.lt_tail _ _ hv).le
  above_lt := fun t ht => by simp [opened, hinner.ackedAbove_eq] at ht
  stored_lt := hinner.lt_tail
  write_lt := fun _ _ h => by cases h
  position_le := fun _ _ h => by cases h
  checking_lt := fun _ _ _ _ h => by cases h
  guard_lt := fun _ _ h => by cases h

/-- A commit writes and deletes entry keys only. -/
theorem Wf.keyed_moved (h : l.Wf) (hm : Moved l m l') : WellKeyed l'.store.live := by
  cases hm with
  | put | remove =>
    simp only [put, remove, Store.commit_one_live]
    split
    · exact h.keyed.apply (fun _ => isEntry_entryKey _) _
    · exact h.keyed
  | call | turnedAway | waits | claim | giveBack | close | reserve | ended | found | skipped
  | handedOut | record | release | returned | gaveUp => exact h.keyed

/-- The cursor stays at or below the tail. -/
theorem Wf.cursor_moved (h : l.Wf) (hbelow : l.Below m) (hm : Moved l m l') :
    l'.inner.head ≤ l'.inner.tail ∧ ∀ t ∈ l'.inner.ackedAbove, t < l'.inner.tail := by
  have htail := tail_mono hbelow hm
  refine ⟨?_, fun t ht => ?_⟩
  · -- a head past the tail would have crossed the tail itself
    by_contra hgt
    rcases h.of_head hm (htail.trans_lt (not_le.mp hgt)) with hlt | hmem | ⟨g, gd, -, hg, -, heq⟩
    · exact absurd h.head_le hlt.not_ge
    · exact absurd (h.above_lt _ hmem) (lt_irrefl _)
    · exact absurd (h.guard_lt g gd hg) heq.not_lt
  · rcases h.of_above hm ht with hold | ⟨g, gd, -, hg, -, rfl⟩
    · exact (h.above_lt t hold).trans_le htail
    · exact (h.guard_lt g gd hg).trans_le htail

/-- A scan goes on from seqs below the tail. -/
theorem Wf.position_moved (h : l.Wf) (hm : Moved l m l') {r : ℕ} {c : ReserveCall}
    (hc : l'.reserves.get? r = some c) : c.pc.position ≤ l.inner.tail := by
  have hscan := h.scanMoved hm hc
  generalize c.pc = pc at hscan ⊢
  cases hscan with
  | stays hr => exact h.position_le r _ hr
  | begins => exact h.head_le
  | finds _ ht => exact (h.stored_lt _ _ ht).le
  | skips _ hr =>
    have hlt := h.checking_lt _ _ _ _ hr
    simp only [ReservePc.position, u64Succ_of_lt (h.lt_u64Max hlt)]
    omega

/-- A move keeps it. -/
theorem Wf.moved (h : l.Wf) (hbelow : l.Below m) (hm : Moved l m l') : l'.Wf := by
  have htail := tail_mono hbelow hm
  obtain ⟨hhead, habove⟩ := h.cursor_moved hbelow hm
  refine
    { keyed := h.keyed_moved hm, tail_le := ?_, head_le := hhead, above_lt := habove
      stored_lt := fun t v ht => ?_, write_lt := fun t w ht => ?_
      position_le := fun r c hc => (h.position_moved hm hc).trans htail
      checking_lt := fun r t v b hr => ?_, guard_lt := fun g gd hg => ?_ }
  · cases hm with
    | claim hc hroom hopen =>
      have hlt : l.inner.tail < u64Max := hbelow ⟨hopen, _, hc, hroom⟩
      simp only [claim, Inner.claim_tail, u64Succ_of_lt hlt]
      omega
    | record =>
      simp only [Inner.recordAck_tail]
      exact h.tail_le
    | _ => exact h.tail_le
  · rcases h.of_items hm ht with hold | ⟨w, -, -, -, hw, -⟩
    · exact (h.stored_lt t v hold).trans_le htail
    · exact (h.write_lt t w hw).trans_le htail
  · rcases of_writes hm ht with ⟨w₀, hold, -⟩ | ⟨k, c, rfl, -, rfl, -, hclaim⟩
    · exact (h.write_lt t w₀ hold).trans_le htail
    · -- the tail is past the seq it has just given out
      exact (Nat.lt_succ_self _).trans_eq (claimed_tail hbelow hm hclaim).2.symm
  · rcases h.of_found hm hr with ⟨b₀, hold⟩ | ⟨-, hstored⟩
    · exact (h.checking_lt r t v b₀ hold).trans_le htail
    · exact (h.stored_lt t v hstored).trans_le htail
  · rcases of_guards hm hg with ⟨gd₀, hold, hseq, -⟩ | ⟨r, behind, -, hr, -⟩
    · exact hseq ▸ (h.guard_lt g gd₀ hold).trans_le htail
    · exact (h.checking_lt _ _ _ _ hr).trans_le htail

theorem Wf.step (h : l.Wf) (hbelow : l.Below m) (hstep : l.step m = some l') : l'.Wf :=
  h.moved hbelow (moved_of_step hstep)

end Ledger

end PersistentQueue
