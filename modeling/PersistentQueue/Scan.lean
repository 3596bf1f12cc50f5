import PersistentQueue.NoLoss
import PersistentQueue.Guards

/-!
# One scan

A reserve call reads the head once and then looks at the store and at the reserved set in
turns, while producers commit and guards are acked, nacked and dropped around it. What it
can be held to is the state it was called in: an item that was stored and free then
(`Available`) stays stored and free until this call hands it out, because only a guard's
holder can delete it and only a scan can reserve it.

`Watch` is the loop invariant: none of the items that were available at the start is below
the scan's position. So the call returns the first of them or an older one, and it returns
`None` only if there were none: `reserve_misses_nothing`.
-/

namespace PersistentQueue

/-- A reserve call begins when none is in progress. -/
def Turn.OneScan (l : Ledger) : Turn → Prop
  | .reserve _ => l.reserves.entries = []
  | _ => True

/-- No reserve call begins. -/
def Turn.NoScan : Turn → Prop
  | .reserve _ => False
  | _ => True

instance (l : Ledger) : DecidablePred (Turn.OneScan l)
  | .reserve _ => inferInstanceAs (Decidable (l.reserves.entries = []))
  | .call _ _ | .attempt _ | .giveBack _ | .close | .seek _ _ | .check _ _ | .ack _ _
  | .record _ | .release _ => isTrue trivial

instance : DecidablePred Turn.NoScan
  | .reserve _ => isFalse id
  | .call _ _ | .attempt _ | .giveBack _ | .close | .seek _ _ | .check _ _ | .ack _ _
  | .record _ | .release _ => isTrue trivial

/-- The runs with clean failures and one reserve call at a time. -/
def oneScan : Discipline where
  turn l a := a.CleanFailure ∧ a.OneScan l
  outcome o := o.Clean
  retry _ _ _ := True
  split _ h := h.split

/-- The runs with clean failures in which no reserve call begins. -/
def noScan : Discipline where
  turn _ a := a.CleanFailure ∧ a.NoScan
  outcome o := o.Clean
  retry _ _ _ := True
  split _ h := h.split

instance (s : Session) : DecidablePred (oneScan.act s) :=
  oneScan.decideAct (fun l a => inferInstanceAs (Decidable (a.CleanFailure ∧ a.OneScan l)))
    (fun o => inferInstanceAs (Decidable o.Clean)) (fun _ _ _ => instDecidableTrue) s

instance (s : Session) : DecidablePred (noScan.act s) :=
  noScan.decideAct (fun _ a => inferInstanceAs (Decidable (a.CleanFailure ∧ a.NoScan)))
    (fun o => inferInstanceAs (Decidable o.Clean)) (fun _ _ _ => instDecidableTrue) s

theorem oneScan_clean {l : Ledger} {m : Move} (h : oneScan.move l m) : cleanFailures.move l m :=
  (within_cleanFailures (D := oneScan) (fun _ _ ha => ha.1) fun _ ho => ho).move h

/-- The bytes pushed in this session or recovered under the seq. -/
def Origin (m : SortedMap ℕ Bytes) (log : List Event) (t : ℕ) (v : Bytes) : Prop :=
  m.get? t = some v ∨ ∃ k, .claimed k t v ∈ thisSession log

namespace Ledger

variable {l l' : Ledger} {m : Move} {t r : ℕ} {v : Bytes} {A : Set ℕ}

/-! ## Where bytes come from -/

/-- What is stored, on its way, or found was pushed or recovered under its seq. -/
structure Traced (m₀ : SortedMap ℕ Bytes) (l : Ledger) : Prop where
  stored : ∀ t v, l.items.get? t = some v → Origin m₀ l.log t v
  write : ∀ t w, l.writes.get? t = some w → Origin m₀ l.log t w.value
  found : ∀ r t v b, l.reserves.get? r = some ⟨.checking t v, b⟩ → Origin m₀ l.log t v

theorem traced_opened {b : Builder} (h : FreshLedger b l) : l.Traced l.items := by
  refine ⟨fun t v ht => Or.inl ht, fun t w hw => ?_, fun r t v b hr => ?_⟩
  · rw [h.opened] at hw
    cases hw
  · rw [h.opened] at hr
    cases hr

theorem Traced.moved {m₀ : SortedMap ℕ Bytes} (h : l.Traced m₀) (hwf : l.Wf) (hm : Moved l m l') :
    l'.Traced m₀ := by
  have hmono : ∀ {t v}, Origin m₀ l.log t v → Origin m₀ l'.log t v :=
    fun horigin => horigin.imp id fun ⟨k, hk⟩ => ⟨k, session_mono hm hk⟩
  refine ⟨fun t v ht => ?_, fun t w hw => ?_, fun r t v b hr => ?_⟩
  · rcases hwf.of_items hm ht with hold | ⟨w, -, -, -, hw, -, rfl⟩
    · exact hmono (h.stored t v hold)
    · exact hmono (h.write t w hw)
  · rcases of_writes hm hw with ⟨w₀, hold, -, hvalue⟩ | ⟨k, c, -, -, rfl, rfl, rfl⟩
    · exact hvalue ▸ hmono (h.write t w₀ hold)
    · -- the claim is what the seq comes from
      exact Or.inr ⟨k, by simp [Ledger.claim]⟩
  · rcases hwf.of_found hm hr with ⟨b₀, hold⟩ | ⟨-, hstored⟩
    · exact hmono (h.found r t v b₀ hold)
    · exact hmono (h.stored t v hstored)

/-! ## The loop invariant -/

/-- The item is stored and nobody holds it. -/
def Available (l : Ledger) (t : ℕ) : Prop := (∃ v, l.items.get? t = some v) ∧ t ∉ l.inner.reserved

/-- While the call `r` runs, the items `A` are available, and its scan has not passed any. -/
structure Watch (A : Set ℕ) (r : ℕ) (l : Ledger) : Prop where
  only : ∀ r', r' ≠ r → l.reserves.get? r' = none
  available : ∀ c, l.reserves.get? r = some c → ∀ t ∈ A, l.Available t
  ahead : ∀ c, l.reserves.get? r = some c → ∀ t ∈ A, c.pc.position ≤ t

/-- An available item stays stored: to delete it takes a guard. -/
theorem Available.stored (h : l.Available t) (hpaired : l.Paired) (hwf : l.Wf)
    (hm : Moved l m l') : ∃ v, l'.items.get? t = some v := by
  obtain ⟨⟨v, hv⟩, hfree⟩ := h
  rcases hwf.item_stays hm hv with hstays | ⟨w, -, -, -, -, hput⟩ |
    ⟨g, gd, o, -, hg, -, -, rfl⟩
  · exact ⟨v, hstays⟩
  · exact ⟨w.value, hput⟩
  · exact absurd ((hpaired.reserved _).mpr ⟨g, gd, hg, rfl⟩) hfree

/-- What a move adds to the reserved set: the item its scan hands out. -/
theorem mem_reserved_moved (hm : Moved l m l') (ht : t ∈ l'.inner.reserved) :
    t ∈ l.inner.reserved ∨
      ∃ r c, l.reserves.get? r = some c ∧ c.pc.position = t ∧ l'.reserves.get? r = none := by
  cases hm with
  | handedOut hr =>
    rcases Finset.mem_insert.mp ht with rfl | ht
    · exact Or.inr ⟨_, _, hr, rfl, SortedMap.get?_erase_self _ _⟩
    · exact Or.inl ht
  | record =>
    simp only [Inner.recordAck_reserved] at ht
    exact Or.inl (Finset.mem_of_mem_erase ht)
  | release => exact Or.inl (Finset.mem_of_mem_erase ht)
  | call | turnedAway | waits | claim | giveBack | close | reserve | ended | found | skipped
  | remove | put | returned | gaveUp => exact Or.inl ht

theorem Watch.moved (h : l.Watch A r) (hpaired : l.Paired) (hwf : l.Wf) (hmove : noScan.move l m)
    (hm : Moved l m l') : l'.Watch A r := by
  have hnew : ∀ r', m ≠ .turn (.reserve r') := by
    rintro r' rfl
    exact hmove.2.2
  refine ⟨fun r' hne => ?_, fun c hc t ht => ?_, fun c hc t ht => ?_⟩
  · rcases hr' : l'.reserves.get? r' with _ | c
    · rfl
    · obtain ⟨c₀, hc₀⟩ := hwf.of_reserves hm (hnew r') hr'
      rw [h.only r' hne] at hc₀
      cases hc₀
  · obtain ⟨c₀, hc₀⟩ := hwf.of_reserves hm (hnew r) hc
    have havailable := h.available c₀ hc₀ t ht
    refine ⟨havailable.stored hpaired hwf hm, fun hmem => ?_⟩
    rcases mem_reserved_moved hm hmem with hmem | ⟨r', c', hc', -, hended⟩
    · exact havailable.2 hmem
    · -- the only scan there is has not ended
      by_cases hne : r' = r
      · rw [hne, hc] at hended
        cases hended
      · rw [h.only r' hne] at hc'
        cases hc'
  · obtain ⟨c₀, hc₀⟩ := hwf.of_reserves hm (hnew r) hc
    obtain ⟨⟨v, hv⟩, hfree⟩ := h.available c₀ hc₀ t ht
    by_contra hlt
    rcases hwf.of_passed hm hc hv (not_le.mp hlt) with ⟨c₁, hc₁, hpassed⟩ | ⟨hbegins, -⟩ |
      ⟨g, -, hmem⟩
    · exact absurd (h.ahead c₁ hc₁ t ht) hpassed.not_ge
    · exact hnew r hbegins
    · exact hfree hmem

/-- A seek that finds no entry leaves nothing stored from its cursor on. -/
theorem Wf.seek_none (h : l.Wf) {cursor : ℕ} {behind : Finset ℕ}
    (hr : l.reserves.get? r = some ⟨.seeking cursor, behind⟩)
    (hend : ∀ key value, l.store.seek (entryKey cursor) = some (key, value) → isEntry key = false)
    (ht : l.items.get? t = some v) : t < cursor := by
  by_contra hle
  have hcursor : cursor ≤ l.inner.tail := h.position_le r _ hr
  have htail := h.tail_le
  rcases hseek : l.items.seek cursor with _ | ⟨s, w⟩
  · exact hle (SortedMap.seek_eq_none.mp hseek t v ht)
  · have hfound : l.store.seek (entryKey cursor) = some (entryKey s, w) :=
      h.keyed.seek_eq_some (entryLow_le_entryKey cursor)
        (entryKey_bound (by unfold u64Max u64Size at *; omega)) hseek
    have hentry := hend _ _ hfound
    rw [isEntry_entryKey] at hentry
    cases hentry

end Ledger

namespace Session

/-- The call's next seek is its last: it returns `None`. -/
def ReturnsNone (s : Session) (r : ℕ) : Prop :=
  ∃ s', s.step (.turn (.seek r true)) = some s' ∧ s'.reserves.get? r = none

/-- The call's next check is its last: it returns a guard `g` for the item. -/
def HandsOut (s : Session) (r g t : ℕ) (v : Bytes) : Prop :=
  ∃ s', s.step (.turn (.check r g)) = some s' ∧ s'.reserves.get? r = none ∧
    s'.guards.get? g = some ⟨t, v, .held⟩

instance (s : Session) (r g t : ℕ) (v : Bytes) : Decidable (s.HandsOut r g t v) :=
  decidable_of_iff ((s.step (.turn (.check r g))).any fun s' =>
      decide (s'.reserves.get? r = none ∧ s'.guards.get? g = some ⟨t, v, .held⟩))
    (by simp only [HandsOut, Option.any_eq_true, decide_eq_true_eq])

end Session

/-- **A reserve call misses nothing that was available when it was called**, whatever
producers and the holders of guards do while it runs. If it returns `None`, nothing was
available; if it returns an item, no older one was, nobody else holds it, and its bytes are
those pushed or recovered under its seq. -/
theorem reserve_misses_nothing {b : Builder} {st : Store} {s₀ s s₁ s₂ : Session}
    {as as' : List Act} {r : ℕ} (hopen : Opens b st s₀)
    (hbefore : Run Session.step oneScan.act s₀ as s)
    (hbegin : Run Session.step oneScan.act s [.turn (.reserve r)] s₁)
    (hduring : Run Session.step noScan.act s₁ as' s₂) :
    (s₂.ReturnsNone r → ∀ t, ¬s.Available t) ∧
    ∀ g t v, s₂.HandsOut r g t v →
      (∀ t', t' < t → ¬s.Available t') ∧
      (∀ g' gd, s₂.guards.get? g' = some gd → gd.seq ≠ t) ∧ Origin s₀.items s₂.log t v := by
  -- what holds when the call begins
  have hfresh := hopen.fresh.1
  obtain ⟨⟨hcursor, hkept, hpaired, htraced⟩, hcoupled⟩ := hopen.coupled.invariant
    (I := fun l => l.Cursor ∧ l.Kept ∧ l.Paired ∧ l.Traced s₀.items) hbefore
    ⟨Ledger.cursor_opened hfresh, Ledger.kept_opened hfresh, Ledger.paired_opened hfresh,
      Ledger.traced_opened hfresh⟩
    fun l m l' hwf ⟨hcursor, hkept, hpaired, htraced⟩ hmove hm =>
      ⟨hcursor.moved hwf (Discipline.move_below hmove) hm (hkept.not_deleted hm),
        hkept.moved hcursor hwf (oneScan_clean hmove) hm, hpaired.moved hm, htraced.moved hwf hm⟩
  obtain ⟨hnone, hs₁⟩ : s.reserves.entries = [] ∧ s₁.toLedger =
      { s.toLedger with
        reserves := s.reserves.insert r { pc := .seeking s.inner.head, behind := ∅ } } := by
    cases hbegin with
    | cons hallowed hstep hnil =>
      cases hnil
      obtain ⟨l, hl, rfl⟩ := Option.map_eq_some_iff.mp hstep
      have hm : Ledger.Moved s.toLedger (.turn (.reserve r)) l := Ledger.moved_of_step hl
      cases hm with
      | reserve hr => exact ⟨hallowed.2.2, rfl⟩
  have hbegun : s₁.toLedger.Watch {t | s.Available t} r := by
    rw [hs₁]
    refine ⟨fun r' hne => ?_, fun c hc t ht => ht, fun c hc t ht => ?_⟩
    · exact (SortedMap.get?_insert_ne _ _ hne).trans (SortedMap.get?_of_entries_nil hnone r')
    · obtain rfl := Option.some.inj ((SortedMap.get?_insert_self _ _ _).symm.trans hc)
      obtain ⟨v, hv⟩ := ht.1
      exact hcursor.head_le hv
  -- and what holds while it runs
  have hcoupled₁ : Coupled s₁ := (hcoupled.run hbegin).1
  obtain ⟨⟨hwatch, hpaired₂, htraced₂⟩, hcoupled₂⟩ := hcoupled₁.invariant
    (I := fun l => l.Watch {t | s.Available t} r ∧ l.Paired ∧ l.Traced s₀.items) hduring
    ⟨hbegun, by rw [hs₁]; exact ⟨hpaired.distinct, hpaired.reserved⟩, by
      rw [hs₁]
      refine ⟨htraced.stored, htraced.write, fun r' t v b hr => ?_⟩
      rcases SortedMap.of_get?_insert hr with ⟨-, heq⟩ | ⟨-, hr⟩
      · cases heq
      · exact htraced.found r' t v b hr⟩
    fun l m l' hwf ⟨hwatch, hpaired, htraced⟩ hmove hm =>
      ⟨hwatch.moved hpaired hwf hmove hm, hpaired.moved hm, htraced.moved hwf hm⟩
  refine ⟨?_, ?_⟩
  · rintro ⟨s', hstep, hended⟩ t ht
    obtain ⟨l, hl, rfl⟩ := Option.map_eq_some_iff.mp hstep
    have hm : Ledger.Moved s₂.toLedger (.turn (.seek r true)) l := Ledger.moved_of_step hl
    cases hm with
    | found => rw [SortedMap.get?_insert_self] at hended; cases hended
    | ended r ok hr hend =>
      obtain ⟨v, hv⟩ := (hwatch.available _ hr t ht).1
      have hlt := hcoupled₂.wf.seek_none hr (hend rfl) hv
      exact absurd (hwatch.ahead _ hr t ht) hlt.not_ge
  · rintro g t v ⟨s', hstep, hended, hg⟩
    obtain ⟨l, hl, rfl⟩ := Option.map_eq_some_iff.mp hstep
    have hm : Ledger.Moved s₂.toLedger (.turn (.check r g)) l := Ledger.moved_of_step hl
    cases hm with
    | skipped => rw [SortedMap.get?_insert_self] at hended; cases hended
    | handedOut hr hmem hnone =>
      cases (SortedMap.get?_insert_self _ _ _).symm.trans hg
      refine ⟨fun t' hlt ht' => ?_, fun g' gd hg' heq => ?_, htraced₂.found _ _ _ _ hr⟩
      · exact absurd (hwatch.ahead _ hr t' ht') hlt.not_ge
      · exact hmem ((hpaired₂.reserved _).mpr ⟨g', gd, hg', heq⟩)

/-- Three items; the first is held when the call begins. While it runs, the first is acked,
and a fourth item is pushed. The call goes past the first and returns the second. -/
theorem reserve_misses_nothing_held :
    ∃ s, Run Session.step oneScan.act (Session.fresh .default64)
      [.turn (.call [1] true), .turn (.call [2] true), .turn (.call [3] true),
        .turn (.attempt 1), .turn (.attempt 2), .turn (.attempt 3), .commit 0 .ok, .commit 1 .ok,
        .commit 2 .ok, .turn (.reserve 0), .turn (.seek 0 true), .turn (.check 0 0)] s ∧
    ∃ s₁, Run Session.step oneScan.act s [.turn (.reserve 1)] s₁ ∧
    ∃ s₂, Run Session.step noScan.act s₁
      [.turn (.seek 1 true), .turn (.check 1 1), .turn (.call [4] true), .turn (.ack 0 .ok),
        .turn (.attempt 14), .turn (.record 0), .turn (.seek 1 true), .commit 3 .ok] s₂ ∧
      s₂.HandsOut 1 1 1 [2] ∧ (∀ t, t < 1 → ¬s.Available t) ∧ Origin SortedMap.empty s₂.log 1 [2] := by
  have hruns : ∃ s, Run Session.step oneScan.act (Session.fresh .default64)
      [.turn (.call [1] true), .turn (.call [2] true), .turn (.call [3] true),
        .turn (.attempt 1), .turn (.attempt 2), .turn (.attempt 3), .commit 0 .ok, .commit 1 .ok,
        .commit 2 .ok, .turn (.reserve 0), .turn (.seek 0 true), .turn (.check 0 0)] s ∧
      ∃ s₁, Run Session.step oneScan.act s [.turn (.reserve 1)] s₁ ∧
      ∃ s₂, Run Session.step noScan.act s₁
        [.turn (.seek 1 true), .turn (.check 1 1), .turn (.call [4] true), .turn (.ack 0 .ok),
          .turn (.attempt 14), .turn (.record 0), .turn (.seek 1 true), .commit 3 .ok] s₂ ∧
        s₂.HandsOut 1 1 1 [2] := by decide
  obtain ⟨s, hbefore, s₁, hbegin, s₂, hduring, hhands⟩ := hruns
  obtain ⟨hfirst, -, horigin⟩ :=
    (reserve_misses_nothing (opens_fresh _) hbefore hbegin hduring).2 1 1 [2] hhands
  exact ⟨s, hbefore, s₁, hbegin, s₂, hduring, hhands, hfirst, horigin⟩

end PersistentQueue
