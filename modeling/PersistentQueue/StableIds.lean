import PersistentQueue.World

/-!
# Sequence numbers as ids

`Reserved::seq()` is meant as an id to dedupe on. Within a session seqs come from a tail
that only grows. An open derives the tail from the greatest stored entry, and once the
last items are acked nothing in the store remembers their seqs: the next push is given the
seq of an item that was delivered and acked before (`seq_reused`).

As long as every open finds an entry at or above all the seqs that a caller knows, of a push
that has returned `Ok` or of an item that was handed out, no push is given such a seq again,
no two pushes that returned `Ok` have the same seq, and each item has the seq it was claimed
with wherever it is handed out (`stable_ids`), whatever fails or crashes.
-/

namespace PersistentQueue

/-- The seqs of the pushes that returned `Ok`, newest first. -/
def okSeqs (log : List Event) : List ℕ :=
  log.filterMap fun
    | .pushOk _ seq _ => some seq
    | _ => none

/-- The seq that a caller learns: its push returned `Ok`, or the item was handed out, or acked. -/
def Event.known : Event → Option ℕ
  | .pushOk _ seq _ | .handedOut seq _ | .acked seq => some seq
  | _ => none

/-- The seqs that callers know, newest first. -/
def knownSeqs (log : List Event) : List ℕ := log.filterMap Event.known

/-- Any sessions; an open finds an entry at or above every seq that a caller knows. -/
def lastSeqKept : Regime where
  session := anyRun
  opens _ m log := ∀ t ∈ knownSeqs log, ∃ e ∈ m.entries, t ≤ e.1

/-- Any sessions. -/
def anySessions : Regime where
  session := anyRun
  opens _ _ _ := True

instance (w : World) : DecidablePred (lastSeqKept.deed w) :=
  lastSeqKept.decideDeed (fun s => inferInstanceAs (DecidablePred (anyRun.act s)))
    (fun _ m log => inferInstanceAs (Decidable (∀ t ∈ knownSeqs log, ∃ e ∈ m.entries, t ≤ e.1)))
    w

instance (w : World) : DecidablePred (anySessions.deed w) :=
  anySessions.decideDeed (fun s => inferInstanceAs (DecidablePred (anyRun.act s)))
    (fun _ _ _ => instDecidableTrue) w

/-- Seqs are ids: of pushes that returned `Ok`, and of items however often they are handed
out. -/
structure StableIds (log : List Event) : Prop where
  /-- no two pushes that returned `Ok` have the same seq -/
  distinct : (okSeqs log).Nodup
  /-- no push is given a seq that a caller knows -/
  fresh : ∀ e k t v, e.known = some t → ¬Earlier e (.claimed k t v) log
  /-- a push claims one seq -/
  once : ∀ k t t' v v', .claimed k t v ∈ log → .claimed k t' v' ∈ log → t = t' ∧ v = v'
  /-- an item is handed out with the seq and the bytes that its push claimed -/
  given : ∀ t v, .handedOut t v ∈ log → ∃ k, .claimed k t v ∈ log

namespace Ledger

variable {l l' : Ledger} {m : Move} {k t : ℕ} {v : Bytes}

/-- The seqs of `Ok` pushes grow when a push returns. -/
theorem okSeqs_moved (hm : Moved l m l') :
    okSeqs l'.log = okSeqs l.log ∨
      ∃ t w, m = .returned t ∧ l.writes.get? t = some w ∧ okSeqs l'.log = t :: okSeqs l.log := by
  cases hm with
  | returned hw => exact Or.inr ⟨_, _, rfl, hw, rfl⟩
  | put | remove =>
    refine Or.inl ?_
    simp only [put, remove]
    split <;> rfl
  | call | turnedAway | waits | claim | giveBack | close | reserve | ended | found | skipped
  | handedOut | record | release | gaveUp => exact Or.inl rfl

/-- The seqs that callers know are below the tail, and a write has a seq of its own. -/
structure Numbered (l : Ledger) : Prop where
  known_lt : ∀ e ∈ l.log, ∀ t, e.known = some t → t < l.inner.tail
  write_new : ∀ t w, l.writes.get? t = some w → t ∉ okSeqs l.log
  distinct : (okSeqs l.log).Nodup
  fresh : ∀ e k t v, e.known = some t → ¬Earlier e (.claimed k t v) l.log

/-- The seq of an `Ok` push is known. -/
theorem Numbered.ok_lt (h : l.Numbered) (ht : t ∈ okSeqs l.log) : t < l.inner.tail := by
  obtain ⟨e, he, heq⟩ := List.mem_filterMap.mp ht
  refine h.known_lt e he t ?_
  cases e with
  | pushOk => exact heq
  | opened | called | claimed | put | handedOut | ackCalled | removed | acked => cases heq

/-- What a caller gets to know in a move is the seq of a write, an item or a guard. -/
theorem Wf.known_lt (h : l.Wf) {e : Event} (he : Caused l m e) (ht : e.known = some t) :
    t < l.inner.tail ∧ ∀ k, m ≠ .turn (.attempt k) := by
  cases e with
  | pushOk =>
    obtain rfl := Option.some.inj ht
    obtain ⟨w, rfl, hw, -⟩ := he
    exact ⟨h.write_lt _ w hw, fun _ heq => by cases heq⟩
  | handedOut =>
    obtain rfl := Option.some.inj ht
    obtain ⟨r, g, behind, rfl, hr, -⟩ := he
    exact ⟨h.checking_lt r _ _ behind hr, fun _ heq => by cases heq⟩
  | acked =>
    obtain rfl := Option.some.inj ht
    obtain ⟨g, gd, rfl, hg, -, rfl⟩ := he
    exact ⟨h.guard_lt g gd hg, fun _ heq => by cases heq⟩
  | opened | called | claimed | put | ackCalled | removed => cases ht

theorem Numbered.moved (h : l.Numbered) (hwf : l.Wf) (hbelow : l.Below m) (hm : Moved l m l') :
    l'.Numbered := by
  have htail := tail_mono hbelow hm
  obtain ⟨es, hlog, hcaused⟩ := moved_log hm
  have hknown : ∀ e ∈ l'.log, ∀ t, e.known = some t → t < l'.inner.tail := by
    intro e he t ht
    rcases mem_log hm he with hold | hnew
    · exact (h.known_lt e hold t ht).trans_le htail
    · exact (hwf.known_lt hnew ht).1.trans_le htail
  have hfresh : ∀ e k t v, e.known = some t → ¬Earlier e (.claimed k t v) l'.log := by
    intro e k t v ht hearlier
    rw [hlog] at hearlier
    rcases hearlier.of_append with hold | ⟨hclaimed, he⟩
    · exact h.fresh e k t v ht hold
    · -- the seq of a claim is the tail, and the claim is all that its move does
      obtain ⟨c, rfl, -, rfl, -⟩ := hcaused _ hclaimed
      rcases he with he | he
      · exact (hwf.known_lt (hcaused _ he) ht).2 k rfl
      · exact lt_irrefl _ (h.known_lt e he _ ht)
  rcases okSeqs_moved hm with heq | ⟨t, w, rfl, hw, heq⟩
  · refine ⟨hknown, fun t w hw => ?_, ?_, hfresh⟩ <;> rw [heq] at *
    · intro hok
      rcases hold : l.writes.get? t with _ | w'
      · rw [writes_none hm (h.ok_lt hok).ne hold] at hw
        cases hw
      · exact h.write_new t w' hold hok
    · exact h.distinct
  · refine ⟨hknown, fun s w' hw' => ?_, ?_, hfresh⟩ <;> rw [heq] at *
    · cases hm with
      | returned =>
        obtain ⟨hne, hw'⟩ := SortedMap.of_get?_erase hw'
        exact fun hs => (List.mem_cons.mp hs).elim hne (h.write_new s w' hw')
    · exact List.nodup_cons.mpr ⟨h.write_new t w hw, h.distinct⟩

/-- Calls are numbered, each claims once, and what is handed out was claimed. -/
structure Identified (l : Ledger) : Prop where
  call_lt : ∀ k c, l.calls.get? k = some c → k < l.log.length
  call_new : ∀ k c, l.calls.get? k = some c → ∀ t v, .claimed k t v ∉ l.log
  claimed_lt : ∀ k t v, .claimed k t v ∈ l.log → k < l.log.length
  once : ∀ k t t' v v', .claimed k t v ∈ l.log → .claimed k t' v' ∈ l.log → t = t' ∧ v = v'
  found : ∀ r t v b, l.reserves.get? r = some ⟨.checking t v, b⟩ → ∃ k, .claimed k t v ∈ l.log
  given : ∀ t v, .handedOut t v ∈ l.log → ∃ k, .claimed k t v ∈ l.log

theorem Identified.moved (h : l.Identified) (hwf : l.Wf) (hsourced : l.Sourced)
    (hm : Moved l m l') : l'.Identified := by
  have hlen := length_mono hm
  have hmono : ∀ {t v}, (∃ k, .claimed k t v ∈ l.log) → ∃ k, .claimed k t v ∈ l'.log :=
    fun ⟨k, hk⟩ => ⟨k, log_mono hm hk⟩
  refine ⟨call_lt_moved hm h.call_lt, fun k c hc t v hk => ?_, fun k t v hk => ?_,
    fun k t t' v v' hk hk' => ?_, fun r t v b hr => ?_, fun t v hout => ?_⟩
  · rcases mem_log hm hk with hk | ⟨c', rfl, hc', rfl, rfl⟩
    · rcases of_calls hm hc with hc | ⟨rfl, -⟩
      · exact h.call_new k c hc t v hk
      · exact lt_irrefl _ (h.claimed_lt _ t v hk)
    · -- the call that claims is gone
      cases hm with
      | turnedAway | claim => exact (SortedMap.of_get?_erase hc).1 rfl
      | waits => exact h.call_new k c' hc' _ _ hk
  · rcases mem_log hm hk with hk | ⟨c, -, hc, -, -⟩
    · exact (h.claimed_lt k t v hk).trans_le hlen
    · exact (h.call_lt k c hc).trans_le hlen
  · rcases mem_log hm hk with hold | ⟨c, rfl, hc, rfl, rfl⟩ <;>
      rcases mem_log hm hk' with hold' | ⟨c', hturn, hc', rfl, rfl⟩
    · exact h.once k t t' v v' hold hold'
    · exact absurd hold (h.call_new k c' hc' t v)
    · exact absurd hold' (h.call_new k c hc t' v')
    · obtain rfl := Option.some.inj (hc.symm.trans hc')
      exact ⟨rfl, rfl⟩
  · rcases hwf.of_found hm hr with ⟨b₀, hold⟩ | ⟨-, hstored⟩
    · exact hmono (h.found r t v b₀ hold)
    · exact hmono (claimed_of_written hsourced.store hstored).2
  · rcases mem_log hm hout with hout | ⟨r, g, b, -, hr, -⟩
    · exact hmono (h.given t v hout)
    · exact hmono (h.found r t v b hr)

theorem stableIds (hnumbered : l.Numbered) (hids : l.Identified) : StableIds l.log :=
  ⟨hnumbered.distinct, hnumbered.fresh, hids.once, hids.given⟩

/-- An open that finds an entry at or above every known seq goes on above them. -/
theorem numbered_opened {b : Builder} (hfresh : FreshLedger b l)
    (hkept : lastSeqKept.opens b l.items l.log.tail) (h : StableIds l.log.tail) :
    l.Numbered := by
  have hlog := hfresh.log_eq
  have hseqs : okSeqs l.log = okSeqs l.log.tail := by
    rw [hlog]
    rfl
  refine ⟨fun e he t ht => ?_, fun t w hw => ?_, hseqs ▸ h.distinct, fun e k t v ht hlate => ?_⟩
  · rw [hlog] at he
    rcases List.mem_cons.mp he with rfl | he
    · cases ht
    · obtain ⟨⟨s, v⟩, hmem, hle⟩ := hkept t (List.mem_filterMap.mpr ⟨e, he, ht⟩)
      exact hle.trans_lt (hfresh.recovered.lt_tail s v (SortedMap.get?_eq_some.mpr hmem))
  · rw [hfresh.opened] at hw
    cases hw
  · rw [hlog] at hlate
    rcases Earlier.iff_cons.mp hlate with ⟨heq, -⟩ | hlate
    · cases heq
    · exact h.fresh e k t v ht hlate

theorem identified_opened {b : Builder} (hfresh : FreshLedger b l) (h : StableIds l.log.tail)
    (hlt : ∀ k t v, .claimed k t v ∈ l.log.tail → k < l.log.tail.length) : l.Identified := by
  have hlog := hfresh.log_eq
  have hmem : ∀ {e : Event}, e ≠ .opened → (e ∈ l.log ↔ e ∈ l.log.tail) := by
    intro e he
    rw [hlog, List.mem_cons]
    simp [he]
  refine ⟨fun k c hc => ?_, fun k c hc => ?_, fun k t v hk => ?_, fun k t t' v v' hk hk' => ?_,
    fun r t v b hr => ?_, fun t v hout => ?_⟩
  · rw [hfresh.opened] at hc
    cases hc
  · rw [hfresh.opened] at hc
    cases hc
  · rw [hlog, List.length_cons]
    exact (hlt k t v ((hmem (by simp)).mp hk)).trans (Nat.lt_succ_self _)
  · exact h.once k t t' v v' ((hmem (by simp)).mp hk) ((hmem (by simp)).mp hk')
  · rw [hfresh.opened] at hr
    cases hr
  · obtain ⟨k, hk⟩ := h.given t v ((hmem (by simp)).mp hout)
    exact ⟨k, (hmem (by simp)).mpr hk⟩

end Ledger

/-- **Seqs are stable ids**, over any number of sessions with any failures and crashes, if
every open finds an entry at or above every seq of a push that has returned `Ok` and of an item
that was handed out. -/
theorem stable_ids {ds : List Deed} {w : World}
    (hrun : Run World.step lastSeqKept.deed World.start ds w) : StableIds w.log := by
  have hall := World.invariant (I := fun l => l.Numbered ∧ l.Identified)
    (J := fun _ log => StableIds log ∧ ∀ (k t : ℕ) (v : Bytes), .claimed k t v ∈ log →
      k < log.length) hrun
    ⟨⟨List.nodup_nil, fun _ _ _ _ _ h => (by cases h.mem_left),
      fun _ _ _ _ _ h => (by cases h), fun _ _ h => (by cases h)⟩, fun _ _ _ h => (by cases h)⟩
    (fun _ _ _ _ h => h)
    (fun b l hfresh _ hkept h => ⟨Ledger.numbered_opened hfresh hkept h.1,
      Ledger.identified_opened hfresh h.1 h.2⟩)
    (fun l m l' hwf hsourced h hmove hm => ⟨h.1.moved hwf (Discipline.move_below hmove) hm,
      h.2.moved hwf hsourced hm⟩)
    (fun l _ _ h => ⟨Ledger.stableIds h.1 h.2, h.2.claimed_lt⟩) (fun _ _ _ h => h)
  cases w with
  | closed st log => exact hall.2.1
  | running s => exact Ledger.stableIds hall.2.2.1 hall.2.2.2

/-- The last item is still there when the queue is reopened after a crash. -/
theorem stable_ids_reopened :
    ∃ w, Run World.step lastSeqKept.deed World.start
      [.open Builder.default64 none, .act (.turn (.call [1] true)), .act (.turn (.attempt 1)),
        .act (.commit 0 .ok), .act (.turn (.call [2] true)), .act (.turn (.attempt 5)),
        .act (.commit 1 .ok), .act (.turn (.reserve 0)), .act (.turn (.seek 0 true)),
        .act (.turn (.check 0 0)), .act (.turn (.ack 0 .ok)), .act (.turn (.record 0)), .crash [],
        .open Builder.group64 none, .act (.turn (.call [3] true)),
        .act (.turn (.attempt 14))] w ∧ StableIds w.log := by
  refine Exists.imp (fun w hrun => ⟨hrun, stable_ids hrun⟩) ?_
  exact Run.exists_of_exec (by decide)

/-- The only item is acked, the queue is dropped and reopened, and another item is pushed. -/
def reopenedEmpty : List Deed :=
  [.open Builder.default64 none, .act (.turn (.call [1] true)), .act (.turn (.attempt 1)),
    .act (.commit 0 .ok), .act (.turn (.reserve 0)), .act (.turn (.seek 0 true)),
    .act (.turn (.check 0 0)), .act (.turn (.ack 0 .ok)), .act (.turn (.record 0)), .drop,
    .open Builder.default64 none, .act (.turn (.call [2] true)), .act (.turn (.attempt 10)),
    .act (.commit 0 .ok)]

/-- The second push is given the seq of the item that was delivered and acked before. -/
theorem seq_reused :
    ∃ w, Run World.step anySessions.deed World.start reopenedEmpty w ∧
      .pushOk 1 0 [1] ∈ w.log ∧ .acked 0 ∈ w.log ∧ .pushOk 10 0 [2] ∈ w.log ∧
      ¬StableIds w.log := by
  have hrun : ∃ w, Run World.step anySessions.deed World.start reopenedEmpty w ∧
      .pushOk 1 0 [1] ∈ w.log ∧ .acked 0 ∈ w.log ∧ .pushOk 10 0 [2] ∈ w.log ∧
      ¬(okSeqs w.log).Nodup := Run.exists_of_exec_any (by decide)
  obtain ⟨w, hrun, hfirst, hacked, hsecond, hdup⟩ := hrun
  exact ⟨w, hrun, hfirst, hacked, hsecond, fun h => hdup h.distinct⟩

end PersistentQueue
