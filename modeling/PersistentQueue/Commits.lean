import PersistentQueue.NoLoss

/-!
# What the sections of a write leave alone

Between its claim and its return a push commits its entry, on its own or in a batch. None
of that is under the queue's mutex, so the state there, the other calls and the guards stay
as they are, and a scan stays where it is. What changes is the store, and how far the
writes got: `Committed` says all that an act other than a turn can do to the ledger.
-/

namespace PersistentQueue

/-- The runs without turns. -/
def commitsOnly (outcome : Outcome → Prop) (h : ∀ o, outcome o → outcome o.head ∧ outcome o.tail) :
    Discipline where
  turn _ _ := False
  outcome := outcome
  retry _ _ _ := True
  split := h

/-- The push of the call returned `Ok`. -/
def Event.returns : Event → ℕ → Bool
  | .pushOk k _ _, k' => k == k'
  | _, _ => false

/-- The call's push returned `Ok`. -/
def PushedOk (log : List Event) (k : ℕ) : Prop := ∃ e ∈ thisSession log, e.returns k = true

instance (log : List Event) (k : ℕ) : Decidable (PushedOk log k) :=
  inferInstanceAs (Decidable (∃ e ∈ thisSession log, e.returns k = true))

namespace Ledger

variable {l l' l'' : Ledger} {m : Move} {t : ℕ}

/-- The write has landed, and its push may have returned. -/
def Lands (l : Ledger) (t : ℕ) (w : Write) : Prop :=
  (∃ w', l.writes.get? t = some w' ∧ w'.call = w.call ∧ w'.stage = .landed) ∨
    PushedOk l.log w.call

/-- What sections of writes do. -/
structure Committed (l l' : Ledger) : Prop where
  cfg : l'.cfg = l.cfg
  inner : l'.inner = l.inner
  calls : l'.calls = l.calls
  guards : l'.guards = l.guards
  pcs : ∀ r, (l'.reserves.get? r).map ReserveCall.pc = (l.reserves.get? r).map ReserveCall.pc
  log_le : l.log.length ≤ l'.log.length
  pushed : ∀ k, PushedOk l.log k → PushedOk l'.log k
  back : ∀ t w', l'.writes.get? t = some w' → ∃ w, l.writes.get? t = some w ∧ w'.call = w.call
  failed : ∀ t w, l.writes.get? t = some w → w.stage = .failed → l'.writes.get? t = some w
  landed : ∀ t w, l.writes.get? t = some w → w.stage = .landed → l'.Lands t w

theorem Committed.refl (l : Ledger) : Committed l l where
  cfg := rfl
  inner := rfl
  calls := rfl
  guards := rfl
  pcs := fun _ => rfl
  log_le := le_refl _
  pushed := fun _ h => h
  back := fun _ w h => ⟨w, h, rfl⟩
  failed := fun _ _ h _ => h
  landed := fun _ w h hstage => Or.inl ⟨w, h, rfl, hstage⟩

theorem Lands.committed {w : Write} (h : l.Lands t w) (hc : Committed l l') : l'.Lands t w := by
  rcases h with ⟨w', hw', hcall, hstage⟩ | hpushed
  · have hlands := hc.landed t w' hw' hstage
    rw [Lands, hcall] at hlands
    exact hlands
  · exact Or.inr (hc.pushed _ hpushed)

theorem Committed.trans (h : Committed l l') (h' : Committed l' l'') : Committed l l'' where
  cfg := h'.cfg.trans h.cfg
  inner := h'.inner.trans h.inner
  calls := h'.calls.trans h.calls
  guards := h'.guards.trans h.guards
  pcs := fun r => (h'.pcs r).trans (h.pcs r)
  log_le := h.log_le.trans h'.log_le
  pushed := fun k hk => h'.pushed k (h.pushed k hk)
  back := fun t w'' hw'' => by
    obtain ⟨w', hw', hcall'⟩ := h'.back t w'' hw''
    obtain ⟨w, hw, hcall⟩ := h.back t w' hw'
    exact ⟨w, hw, hcall'.trans hcall⟩
  failed := fun t w hw hstage => h'.failed t w (h.failed t w hw hstage) hstage
  landed := fun t w hw hstage => (h.landed t w hw hstage).committed h'

theorem pushedOk_mono {k : ℕ} (hm : Moved l m l') (h : PushedOk l.log k) : PushedOk l'.log k := by
  obtain ⟨e, he, hreturns⟩ := h
  exact ⟨e, session_mono hm he, hreturns⟩

/-- A push has returned `Ok` since when its write did. -/
theorem of_pushedOk {k : ℕ} (hm : Moved l m l') (h : PushedOk l'.log k) :
    PushedOk l.log k ∨
      ∃ t w, m = .returned t ∧ l.writes.get? t = some w ∧ w.stage = .landed ∧ w.call = k := by
  obtain ⟨e, he, hreturns⟩ := h
  rcases mem_session hm he with he | hcaused
  · exact Or.inl ⟨e, he, hreturns⟩
  · cases e with
    | pushOk k' seq value =>
      simp only [Event.returns] at hreturns
      obtain rfl := eq_of_beq hreturns
      obtain ⟨w, rfl, hw, hstage, rfl, -⟩ := hcaused
      exact Or.inr ⟨seq, w, rfl, hw, hstage, rfl⟩
    | opened | called | claimed | put | handedOut | ackCalled | removed | acked => cases hreturns

/-- One move of a write. -/
theorem committed_moved (hm : Moved l m l') (hturn : ∀ a, m ≠ .turn a) : Committed l l' := by
  have hpushed : ∀ k, PushedOk l.log k → PushedOk l'.log k :=
    fun k => pushedOk_mono hm
  have hlog := length_mono hm
  cases hm with
  | @put seq w hw hstage durable o =>
    refine ⟨rfl, rfl, rfl, rfl, fun r => ?_, hlog, hpushed, fun t w' hw' => ?_,
      fun t w' hw' hs => ?_, fun t w' hw' hs => Or.inl ?_⟩
    · simp only [put]
      split
      · rw [SortedMap.get?_mapVal, Option.map_map]
        refine congrArg (Option.map · _) (funext fun c => ?_)
        exact notice_pc c seq
      · rfl
    · rcases SortedMap.of_get?_insert hw' with ⟨rfl, rfl⟩ | ⟨-, hw'⟩
      · exact ⟨w, hw, rfl⟩
      · exact ⟨w', hw', rfl⟩
    · refine (SortedMap.get?_insert_ne _ _ ?_).trans hw'
      rintro rfl
      obtain rfl := Option.some.inj (hw.symm.trans hw')
      rcases hstage with h | h <;> rw [hs] at h <;> cases h
    · refine ⟨w', (SortedMap.get?_insert_ne _ _ ?_).trans hw', rfl, hs⟩
      rintro rfl
      obtain rfl := Option.some.inj (hw.symm.trans hw')
      rcases hstage with h | h <;> rw [hs] at h <;> cases h
  | @returned seq w hw hstage =>
    refine ⟨rfl, rfl, rfl, rfl, fun r => rfl, hlog, hpushed, fun t w' hw' => ?_,
      fun t w' hw' hs => ?_, fun t w' hw' hs => ?_⟩
    · exact ⟨w', (SortedMap.of_get?_erase hw').2, rfl⟩
    · refine (SortedMap.get?_erase_ne _ ?_).trans hw'
      rintro rfl
      obtain rfl := Option.some.inj (hw.symm.trans hw')
      rw [hs] at hstage
      cases hstage
    · by_cases hne : t = seq
      · subst hne
        obtain rfl := Option.some.inj (hw.symm.trans hw')
        exact Or.inr ⟨_, List.mem_cons_self, beq_self_eq_true _⟩
      · exact Or.inl ⟨w', (SortedMap.get?_erase_ne _ hne).trans hw', rfl, hs⟩
  | @gaveUp seq w hw hstage =>
    refine ⟨rfl, rfl, rfl, rfl, fun r => rfl, hlog, hpushed, fun t w' hw' => ?_,
      fun t w' hw' hs => ?_, fun t w' hw' hs => Or.inl ?_⟩
    · rcases SortedMap.of_get?_insert hw' with ⟨rfl, rfl⟩ | ⟨-, hw'⟩
      · exact ⟨w, hw, rfl⟩
      · exact ⟨w', hw', rfl⟩
    · refine (SortedMap.get?_insert_ne _ _ ?_).trans hw'
      rintro rfl
      obtain rfl := Option.some.inj (hw.symm.trans hw')
      rw [hs] at hstage
      cases hstage
    · refine ⟨w', (SortedMap.get?_insert_ne _ _ ?_).trans hw', rfl, hs⟩
      rintro rfl
      obtain rfl := Option.some.inj (hw.symm.trans hw')
      rw [hs] at hstage
      cases hstage
  | call | turnedAway | waits | claim | giveBack | close | reserve | ended | found | skipped
  | handedOut | remove | record | release => exact absurd rfl (hturn _)

/-- What is stored stays stored while writes commit. -/
theorem committed_kept (hwf : l.Wf) (hm : Moved l m l') (hturn : ∀ a, m ≠ .turn a) {v : Bytes}
    (ht : l.items.get? t = some v) : ∃ v', l'.items.get? t = some v' := by
  rcases hwf.item_stays hm ht with hstays | ⟨w, -, -, -, -, hput⟩ | ⟨g, gd, o, rfl, -⟩
  · exact ⟨v, hstays⟩
  · exact ⟨w.value, hput⟩
  · exact absurd rfl (hturn _)

/-- Where commits that fail apply nothing, what comes to be stored is a write that lands. -/
theorem committed_stored (hwf : l.Wf) (hm : Moved l m l') (hturn : ∀ a, m ≠ .turn a)
    (hclean : ∀ seq durable o, m = .put seq durable o → o.Clean) {v : Bytes}
    (ht : l'.items.get? t = some v) :
    l.items.get? t = some v ∨ ∃ w, l.writes.get? t = some w ∧ l'.Lands t w := by
  rcases hwf.of_items hm ht with hold | ⟨w, durable, o, rfl, hw, happ, -⟩
  · exact Or.inl hold
  · have hok := (hclean t durable o rfl).isOk_of_applies happ
    cases hm with
    | put hw' =>
      obtain rfl := Option.some.inj (hw.symm.trans hw')
      exact Or.inr ⟨w, hw, Or.inl ⟨_, SortedMap.get?_insert_self _ _ _, rfl, if_pos hok⟩⟩

end Ledger

namespace Coupled

variable {s s' : Session} {D : Discipline} {a : Act}

/-- **An act that is not a turn** only moves the store and the writes. -/
theorem committed (h : Coupled s) (hok : D.act s a) (hturn : ∀ b, a ≠ .turn b)
    (hstep : s.step a = some s') :
    Ledger.Committed s.toLedger s'.toLedger ∧
    (∀ t v, s.items.get? t = some v → ∃ v', s'.items.get? t = some v') ∧
    ((∀ o, D.outcome o → o.Clean) → ∀ t v, s'.items.get? t = some v →
      s.items.get? t = some v ∨ ∃ w, s.writes.get? t = some w ∧ s'.toLedger.Lands t w) := by
  have hallowed : (commitsOnly D.outcome D.split).act s a := by
    cases a with
    | turn b => exact absurd rfl (hturn b)
    | commit | flush => exact hok
    | retry => exact ⟨hok.1, trivial⟩
    | enter | record | wake => trivial
  obtain ⟨-, ms, hms⟩ := h.step hallowed hstep
  have hmove : ∀ {l m}, (commitsOnly D.outcome D.split).move l m → ∀ b, m ≠ .turn b := by
    rintro l m hm b rfl
    exact hm.2
  obtain ⟨-, hall⟩ := hms.invariant (I := fun l => l.Wf ∧ Ledger.Committed s.toLedger l ∧
      (∀ t v, s.items.get? t = some v → ∃ v', l.items.get? t = some v') ∧
      ((∀ o, D.outcome o → o.Clean) → ∀ t v, l.items.get? t = some v →
        s.items.get? t = some v ∨ ∃ w, s.writes.get? t = some w ∧ l.Lands t w))
    (fun l m l' ⟨hwf, hcommitted, hkept, hstored⟩ hm hl => by
      have hmoved := Ledger.moved_of_step hl
      have hnot := hmove hm
      have hone := Ledger.committed_moved hmoved hnot
      refine ⟨hwf.moved (Discipline.move_below hm) hmoved, hcommitted.trans hone,
        fun t v ht => ?_, fun hclean t v ht => ?_⟩
      · obtain ⟨v', hv'⟩ := hkept t v ht
        exact Ledger.committed_kept hwf hmoved hnot hv'
      · have hput : ∀ seq durable o, m = .put seq durable o → o.Clean := by
          rintro seq durable o rfl
          exact hclean o hm.1
        rcases Ledger.committed_stored hwf hmoved hnot hput ht with ht | ⟨w, hw, hlands⟩
        · rcases hstored hclean t v ht with ht | ⟨w, hw, hlands⟩
          · exact Or.inl ht
          · exact Or.inr ⟨w, hw, hlands.committed hone⟩
        · obtain ⟨w₀, hw₀, hcall⟩ := hcommitted.back t w hw
          rw [Ledger.Lands, hcall] at hlands
          exact Or.inr ⟨w₀, hw₀, hlands⟩)
    ⟨h.wf, .refl _, fun t v ht => ⟨v, ht⟩, fun _ t v ht => Or.inl ht⟩
  exact hall

end Coupled

end PersistentQueue
