import PersistentQueue.Overlap

/-!
# What the head tracks

`head` and `acked_above` are a low-water mark over the acks of the session: `head` is the first
seq, from the head recovered at open on, whose ack was not recorded (`Ledger.Marked`). That
holds in every run, whatever fails and whatever overlaps.

It is not the oldest item. A seq under which nothing is stored is never acked, and the head
does not get past it: a push that fails leaves such a seq behind, and so does a hole in the
entries recovered at open. While an older item is there nobody can tell; then the head stays
below the oldest item for good, and every later ack is remembered in `acked_above`.
`head_tracks_iff` says when the head is the oldest item, in every run and, when failures are
clean and no ack is recorded inside a scan of its item, in terms of these holes.
-/

namespace PersistentQueue

/-- The seq whose ack the event records. -/
def Event.ackedSeq : Event → Option ℕ
  | .acked t => some t
  | _ => none

namespace Ledger

variable {l l' : Ledger} {m : Move} {start t : ℕ} {v : Bytes}

/-- The acks recorded in this session, newest first. -/
def acks (l : Ledger) : List ℕ := (thisSession l.log).filterMap Event.ackedSeq

/-- The seqs under which an entry is stored. -/
def stored (l : Ledger) : Set ℕ := {t | ∃ v, l.items.get? t = some v}

/-- `head` is the least stored seq, or `tail` when none is, and `acked_above` has only seqs
above some stored one. -/
def HeadTracks (l : Ledger) : Prop := Tracks l.stored l.inner.tail l.inner.head l.inner.ackedAbove

/-- The queue was opened with the head at `start`. -/
structure Marked (start : ℕ) (l : Ledger) : Prop where
  mark : Watermark start l.acks l.inner.head l.inner.ackedAbove
  acks_lt : ∀ t ∈ l.acks, t < l.inner.tail
  stored_ge : ∀ t v, l.items.get? t = some v → start ≤ t
  write_ge : ∀ t w, l.writes.get? t = some w → start ≤ t
  found_ge : ∀ r t v b, l.reserves.get? r = some ⟨.checking t v, b⟩ → start ≤ t
  guard_ge : ∀ g gd, l.guards.get? g = some gd → start ≤ gd.seq

theorem mem_acks : t ∈ l.acks ↔ .acked t ∈ thisSession l.log := by
  rw [acks, List.mem_filterMap]
  constructor
  · rintro ⟨e, he, heq⟩
    cases e with
    | acked u =>
      obtain rfl := Option.some.inj heq
      exact he
    | opened | called | claimed | put | pushOk | handedOut | ackCalled | removed => cases heq
  · exact fun he => ⟨_, he, rfl⟩

/-- Only the last section of an ack records one. -/
theorem acks_eq (hm : Moved l m l') (hrecord : ∀ g, m ≠ .turn (.record g)) : l'.acks = l.acks := by
  obtain ⟨es, heq, hes⟩ := moved_session hm
  have hnone : es.filterMap Event.ackedSeq = [] := by
    refine List.filterMap_eq_nil_iff.mpr fun e he => ?_
    have hcause := hes e he
    cases e with
    | acked t =>
      obtain ⟨g, gd, rfl, -⟩ := hcause
      exact absurd rfl (hrecord g)
    | opened | called | claimed | put | pushOk | handedOut | ackCalled | removed => rfl
  rw [acks, acks, heq, List.filterMap_append, hnone, List.nil_append]

theorem marked_opened {b : Builder} (h : FreshLedger b l) : l.Marked l.inner.head := by
  have hacks : l.acks = [] := by
    rw [h.opened]
    rfl
  refine ⟨?_, fun t ht => ?_, fun t v ht => h.recovered.head_le t v ht, fun t w hw => ?_,
    fun r t v b hr => ?_, fun g gd hg => ?_⟩
  · rw [hacks, h.recovered.ackedAbove_eq]
    exact Watermark.init _
  · rw [hacks] at ht
    cases ht
  · rw [h.opened] at hw
    cases hw
  · rw [h.opened] at hr
    cases hr
  · rw [h.opened] at hg
    cases hg

/-- An ack moves the mark as a low-water mark moves. -/
theorem Marked.mark_moved (h : l.Marked start) (hwf : l.Wf) (hm : Moved l m l') :
    Watermark start l'.acks l'.inner.head l'.inner.ackedAbove := by
  have hacks : (∀ g, m ≠ .turn (.record g)) → l'.acks = l.acks := acks_eq hm
  cases hm with
  | @record g gd hg hpc =>
    have hacks : Ledger.acks { l with
        inner := l.inner.recordAck l.cfg gd.seq gd.value
        guards := l.guards.erase g
        log := .acked gd.seq :: l.log } = gd.seq :: l.acks := rfl
    rw [hacks]
    exact Inner.recordAck_mark h.mark (h.guard_ge g gd hg) (hwf.lt_u64Max (hwf.guard_lt g gd hg))
      fun t ht => hwf.lt_u64Max (hwf.above_lt t ht)
  | call | turnedAway | waits | claim | giveBack | close | reserve | ended | found | skipped
  | handedOut | remove | release | put | returned | gaveUp =>
    rw [hacks (by simp)]
    exact h.mark

theorem Marked.moved (h : l.Marked start) (hwf : l.Wf) (hbelow : l.Below m) (hm : Moved l m l') :
    l'.Marked start := by
  have hmark := h.mark_moved hwf hm
  have htail := tail_mono hbelow hm
  refine ⟨hmark, fun t ht => ?_, fun t v ht => ?_, fun t w hw => ?_, fun r t v b hr => ?_,
    fun g gd hg => ?_⟩
  · rcases mem_session hm (mem_acks.mp ht) with hold | ⟨g, gd, -, hg, -, rfl⟩
    · exact (h.acks_lt t (mem_acks.mpr hold)).trans_le htail
    · exact (hwf.guard_lt g gd hg).trans_le htail
  · rcases hwf.of_items hm ht with hold | ⟨w, -, -, -, hw, -⟩
    · exact h.stored_ge t v hold
    · exact h.write_ge t w hw
  · rcases of_writes hm hw with ⟨w₀, hold, -⟩ | ⟨-, -, -, -, rfl, -⟩
    · exact h.write_ge t w₀ hold
    · -- a new write is at the tail
      exact h.mark.start_le.trans hwf.head_le
  · rcases hwf.of_found hm hr with ⟨b₀, hold⟩ | ⟨-, hstored⟩
    · exact h.found_ge r t v b₀ hold
    · exact h.stored_ge t v hstored
  · rcases of_guards hm hg with ⟨gd₀, hold, hseq, -⟩ | ⟨r, behind, -, hr, -⟩
    · exact hseq ▸ h.guard_ge g gd₀ hold
    · exact h.found_ge r _ _ _ hr

/-- Nothing holds the head back. -/
structure Unbroken (start : ℕ) (l : Ledger) : Prop where
  /-- a seq with no entry whose ack was not recorded is above a stored one -/
  gaps : ∀ t, start ≤ t → t < l.inner.tail → t ∉ l.stored → t ∉ l.acks → ∃ u ∈ l.stored, u < t
  /-- so is an entry that was put back after its ack -/
  back : ∀ t ∈ l.stored, t ∈ l.acks → ∃ u ∈ l.stored, u < t
  /-- no ack was recorded again below the head -/
  once : ∀ t, ¬AckedAgain start l.acks t

theorem Marked.tracks_iff (h : l.Marked start) (hwf : l.Wf) : l.HeadTracks ↔ l.Unbroken start := by
  have hstored : ∀ t ∈ l.stored, start ≤ t ∧ t < l.inner.tail :=
    fun t ⟨v, ht⟩ => ⟨h.stored_ge t v ht, hwf.stored_lt t v ht⟩
  have hiff := h.mark.tracks_iff hstored h.acks_lt (h.mark.start_le.trans hwf.head_le)
  exact hiff.trans ⟨fun hand => ⟨hand.1, hand.2.1, hand.2.2⟩,
    fun hunbroken => ⟨hunbroken.gaps, hunbroken.back, hunbroken.once⟩⟩

/-! ## Holes -/

/-- No push has a claim, and no ack is in progress. -/
def NoPushOrAck (l : Ledger) : Prop :=
  l.writes.entries = [] ∧ ∀ e ∈ l.guards.entries, e.2.pc = .held

instance (l : Ledger) : Decidable l.NoPushOrAck := inferInstanceAs (Decidable (_ ∧ _))

/-- Something was recovered or has landed under the seq. -/
def Laid (m₀ : SortedMap ℕ Bytes) (l : Ledger) (t : ℕ) : Prop :=
  (∃ v, m₀.get? t = some v) ∨ ∃ v old, .put t v old true ∈ thisSession l.log

/-- There never was anything under the seq since the queue was opened in state `l₀`. -/
structure Hole (l₀ l : Ledger) (t : ℕ) : Prop where
  head_le : l₀.inner.head ≤ t
  lt_tail : t < l.inner.tail
  not_laid : ¬l.Laid l₀.items t

/-- What is stored or deleted was recovered or has landed. -/
structure LaidFirst (m₀ : SortedMap ℕ Bytes) (l : Ledger) : Prop where
  stored : ∀ t ∈ l.stored, l.Laid m₀ t
  deleted : ∀ t, Deleted l.log t → l.Laid m₀ t

theorem laidFirst_opened {b : Builder} (h : FreshLedger b l) : l.LaidFirst l.items := by
  exact ⟨fun t ht => Or.inl ht, fun t hd => absurd hd (h.not_deleted t)⟩

theorem LaidFirst.moved {m₀ : SortedMap ℕ Bytes} (h : l.LaidFirst m₀) (hexclusive : l.Exclusive)
    (hwf : l.Wf) (hclean : cleanFailures.move l m) (hm : Moved l m l') : l'.LaidFirst m₀ := by
  have hmono : ∀ {t}, l.Laid m₀ t → l'.Laid m₀ t :=
    fun hlaid => hlaid.imp id fun ⟨v, old, hput⟩ => ⟨v, old, session_mono hm hput⟩
  refine ⟨fun t ht => ?_, fun t hd => ?_⟩
  · obtain ⟨v, ht⟩ := ht
    rcases hwf.of_items hm ht with hold | ⟨w, durable, o, rfl, hw, happ, rfl⟩
    · exact hmono (h.stored t ⟨v, hold⟩)
    · cases hm with
      | put hw₀ =>
        have hok : o.isOk = true := Outcome.Clean.isOk_of_applies hclean.1 happ
        obtain rfl := Option.some.inj (hw.symm.trans hw₀)
        exact Or.inr ⟨w.value, l.store.get (entryKey t), by simp [put, happ, hok]⟩
  · rcases (moved_deleted hm).mp hd with hd | ⟨g, gd, o, -, hg, hpc, -, rfl⟩
    · exact hmono (h.deleted t hd)
    · -- an ack deletes what its guard holds
      exact hmono (h.stored gd.seq ⟨gd.value, hexclusive.held g gd hg (by simp [hpc])⟩)

/-- At rest a seq is stored, acked, or a hole. -/
theorem LaidFirst.gap_iff {m₀ : SortedMap ℕ Bytes} (h : l.LaidFirst m₀) (hremains : l.Remains m₀)
    (hcursor : l.Cursor) (hquiet : l.NoPushOrAck) :
    t ∉ l.stored ∧ t ∉ l.acks ↔ ¬l.Laid m₀ t := by
  have hacked : Deleted l.log t → t ∈ l.acks := by
    intro hd
    refine mem_acks.mpr ((hremains.recorded t hd).resolve_right ?_)
    rintro ⟨g, gd, hg, hpc, -⟩
    have hheld : gd.pc = .held := hquiet.2 _ (SortedMap.get?_eq_some.mp hg)
    rw [hpc] at hheld
    cases hheld
  constructor
  · rintro ⟨hstored, hacks⟩ (⟨v, hrecovered⟩ | ⟨v, old, hput⟩)
    · rcases hremains.recovered t v hrecovered with ht | hd
      · exact hstored ⟨v, ht⟩
      · exact hacks (hacked hd)
    · rcases hremains.landed t v old hput with ht | hd
      · exact hstored ⟨v, ht⟩
      · exact hacks (hacked hd)
  · intro hlaid
    refine ⟨fun ht => hlaid (h.stored t ht), fun ht => hlaid (h.deleted t ?_)⟩
    exact hcursor.acked_deleted t (mem_acks.mp ht)

/-- At rest only a hole can hold the head back. -/
theorem LaidFirst.unbroken_iff {l₀ : Ledger} (h : l.LaidFirst l₀.items)
    (hremains : l.Remains l₀.items) (hsteady : l.Steady) (hquiet : l.NoPushOrAck) :
    l.Unbroken l₀.inner.head ↔ ∀ t, Hole l₀ l t → ∃ u ∈ l.stored, u < t := by
  have hgap : ∀ t, t ∉ l.stored ∧ t ∉ l.acks ↔ ¬l.Laid l₀.items t :=
    fun t => h.gap_iff hremains hsteady.cursor hquiet
  constructor
  · rintro ⟨hgaps, -, -⟩ t ⟨hhead, htail, hlaid⟩
    obtain ⟨hstored, hacks⟩ := (hgap t).mpr hlaid
    exact hgaps t hhead htail hstored hacks
  · intro hholes
    refine ⟨fun t hhead htail hstored hacks => ?_, fun t ⟨v, ht⟩ hacks => ?_, fun t hagain => ?_⟩
    · exact hholes t ⟨hhead, htail, (hgap t).mp ⟨hstored, hacks⟩⟩
    · exact absurd (mem_acks.mp hacks) (hsteady.cursor.not_acked ht)
    · -- no ack is recorded twice
      obtain ⟨a, b, ha, hb, hearlier⟩ := (hagain.2 t hagain.1 (le_refl t)).of_filterMap
      have hevent : ∀ {e : Event}, e.ackedSeq = some t → e = .acked t := by
        rintro (_ | _ | _ | _ | _ | _ | _ | _ | _) heq <;> cases heq
        rfl
      rw [hevent ha, hevent hb] at hearlier
      exact absurd hearlier (hsteady.exclusive.acked_once t)

end Ledger

/-- **When the head is the oldest unacked item.** In every state of every run, whatever fails
and whatever overlaps, `head` is the least stored seq (or `tail`) and `acked_above` has only
seqs above a stored one exactly if the ledger is `Unbroken`. With clean failures and no ack
recorded inside a scan of its item that is, at rest, exactly if every hole is above a stored
seq: the holes are those of the entries recovered at open and the seqs of failed pushes. -/
theorem head_tracks_iff {b : Builder} {st : Store} {s₀ s : Session} {as : List Act}
    (hopen : Opens b st s₀) :
    (Run Session.step anyRun.act s₀ as s → (s.HeadTracks ↔ s.Unbroken s₀.inner.head)) ∧
    (Run Session.step apart.act s₀ as s → s.NoPushOrAck →
      (s.HeadTracks ↔ ∀ t, Ledger.Hole s₀.toLedger s.toLedger t → ∃ u ∈ s.stored, u < t)) := by
  have hany : ∀ {as s}, Run Session.step anyRun.act s₀ as s →
      (s.HeadTracks ↔ s.Unbroken s₀.inner.head) := by
    intro as s hrun
    obtain ⟨hmarked, hcoupled⟩ := hopen.coupled.invariant
      (I := Ledger.Marked s₀.inner.head) hrun (Ledger.marked_opened hopen.fresh.1)
      fun l m l' hwf hmarked hmove hm =>
        hmarked.moved hwf (Discipline.move_below hmove) hm
    exact hmarked.tracks_iff hcoupled.wf
  refine ⟨hany, fun hrun hquiet => ?_⟩
  have hfresh := hopen.fresh.1
  obtain ⟨⟨hsteady, hremains, hlaid⟩, -⟩ := hopen.coupled.invariant
    (I := fun l => l.Steady ∧ l.Remains s₀.items ∧ l.LaidFirst s₀.items) hrun
    ⟨Ledger.steady_opened hfresh, Ledger.remains_opened hfresh, Ledger.laidFirst_opened hfresh⟩
    fun l m l' hwf ⟨hsteady, hremains, hlaid⟩ hmove hm =>
      ⟨hsteady.apart hwf hmove hm, hremains.moved hsteady.kept hwf (apart_clean hmove) hm,
        hlaid.moved hsteady.exclusive hwf (apart_clean hmove) hm⟩
  exact (hany ((within_anyRun apart).run hrun)).trans (hlaid.unbroken_iff hremains hsteady hquiet)

/-- The second of three pushes fails, and the third item is acked before the first. The hole is
above the first item, and the head stands at that. -/
theorem head_tracks_above_a_hole :
    ∃ s, Run Session.step apart.act (Session.fresh .default64)
      [.turn (.call [1] true), .turn (.call [2] true), .turn (.call [3] true), .turn (.attempt 1),
        .turn (.attempt 2), .turn (.attempt 3), .commit 0 .ok, .commit 1 .errClean,
        .commit 2 .ok, .turn (.giveBack 1), .turn (.reserve 0), .turn (.seek 0 true),
        .turn (.check 0 0), .turn (.reserve 0), .turn (.seek 0 true), .turn (.check 0 1),
        .turn (.seek 0 true), .turn (.check 0 1), .turn (.ack 1 .ok), .turn (.record 1)] s ∧
      s.inner.ackedAbove = {2} ∧ s.HeadTracks := by
  have hrun : ∃ s, Run Session.step apart.act (Session.fresh .default64)
      [.turn (.call [1] true), .turn (.call [2] true), .turn (.call [3] true), .turn (.attempt 1),
        .turn (.attempt 2), .turn (.attempt 3), .commit 0 .ok, .commit 1 .errClean,
        .commit 2 .ok, .turn (.giveBack 1), .turn (.reserve 0), .turn (.seek 0 true),
        .turn (.check 0 0), .turn (.reserve 0), .turn (.seek 0 true), .turn (.check 0 1),
        .turn (.seek 0 true), .turn (.check 0 1), .turn (.ack 1 .ok), .turn (.record 1)] s ∧
      s.inner.ackedAbove = {2} ∧ s.NoPushOrAck ∧ s.items.get? 0 = some [1] ∧
      .put 0 [1] none true ∈ thisSession s.log := by decide
  obtain ⟨s, hrun, habove, hquiet, hstored, hput⟩ := hrun
  refine ⟨s, hrun, habove, ((head_tracks_iff (opens_fresh _)).2 hrun hquiet).mpr fun t hhole => ?_⟩
  refine ⟨0, ⟨[1], hstored⟩, Nat.pos_of_ne_zero ?_⟩
  rintro rfl
  exact hhole.not_laid (Or.inr ⟨[1], none, hput⟩)

/-- The first of two pushes fails, and the item of the second one is acked. The queue is empty
and at rest, the head stands at the failed push for good, and the ack is kept. -/
theorem head_stuck_at_a_failed_push :
    ∃ s, Run Session.step apart.act (Session.fresh .default64)
      [.turn (.call [1] true), .turn (.call [2] true), .turn (.attempt 1), .turn (.attempt 2),
        .commit 0 .errClean, .commit 1 .ok, .turn (.giveBack 0), .turn (.reserve 0),
        .turn (.seek 0 true), .turn (.check 0 0), .turn (.ack 0 .ok), .turn (.record 0)] s ∧
      s.NoPushOrAck ∧ s.items.entries = [] ∧ s.inner.head = 0 ∧ s.inner.tail = 2 ∧
      s.inner.ackedAbove = {1} ∧ ¬s.HeadTracks := by
  have hrun : ∃ s, Run Session.step apart.act (Session.fresh .default64)
      [.turn (.call [1] true), .turn (.call [2] true), .turn (.attempt 1), .turn (.attempt 2),
        .commit 0 .errClean, .commit 1 .ok, .turn (.giveBack 0), .turn (.reserve 0),
        .turn (.seek 0 true), .turn (.check 0 0), .turn (.ack 0 .ok), .turn (.record 0)] s ∧
      s.NoPushOrAck ∧ s.items.entries = [] ∧ s.inner.head = 0 ∧ s.inner.tail = 2 ∧
      s.inner.ackedAbove = {1} := by decide
  obtain ⟨s, hrun, hquiet, hempty, hhead, htail, habove⟩ := hrun
  refine ⟨s, hrun, hquiet, hempty, hhead, htail, habove, fun h => ?_⟩
  obtain ⟨u, ⟨v, hu⟩, -⟩ := h.above 1 (by simp [habove])
  rw [SortedMap.get?_of_entries_nil hempty] at hu
  cases hu

end PersistentQueue
