import PersistentQueue.Facade

/-!
# Futures and the queue's calls

What every run of the facade keeps: ids are fresh, a future is known to the primitive it
waits on, and a push's future stands where its call in the queue stands. A run of the
facade is a run of the queue (`Facade.invariant`), so what is proved about the queue's runs
holds behind the facade.
-/

namespace PersistentQueue

namespace Ledger

variable {l l' : Ledger} {m : Move}

/-- Every call is numbered, claims at most one seq, and is over once it returned. -/
structure OwnCalls (l : Ledger) : Prop where
  call_lt : ∀ k c, l.calls.get? k = some c → k < l.log.length
  write_lt : ∀ t w, l.writes.get? t = some w → w.call < l.log.length
  apart : ∀ t w, l.writes.get? t = some w → l.calls.get? w.call = none
  distinct : ∀ t t' w w', l.writes.get? t = some w → l.writes.get? t' = some w' →
    w.call = w'.call → t = t'
  returned : ∀ k, PushedOk l.log k → k < l.log.length ∧ l.calls.get? k = none ∧
    ∀ t w, l.writes.get? t = some w → w.call ≠ k

theorem ownCalls_opened {b : Builder} (h : FreshLedger b l) : l.OwnCalls := by
  rw [h.opened]
  refine ⟨fun _ _ h => (by cases h), fun _ _ h => (by cases h), fun _ _ h => (by cases h),
    fun _ _ _ _ h => (by cases h), ?_⟩
  rintro k ⟨e, he, -⟩
  cases he

theorem OwnCalls.moved (h : l.OwnCalls) (hm : Moved l m l') : l'.OwnCalls := by
  have hlen := length_mono hm
  refine ⟨call_lt_moved hm h.call_lt, fun t w' hw' => ?_, fun t w' hw' => ?_,
    fun t₁ t₂ w₁ w₂ hw₁ hw₂ heq => ?_, fun k hk => ?_⟩
  · rcases of_writes hm hw' with ⟨w, hw, hcall, -⟩ | ⟨k, c, -, hc, -, rfl, -⟩
    · exact hcall ▸ (h.write_lt t w hw).trans_le hlen
    · exact (h.call_lt _ c hc).trans_le hlen
  · rcases of_writes hm hw' with ⟨w, hw, hcall, -⟩ | ⟨k, c, -, -, -, rfl, rfl⟩
    · rw [hcall]
      rcases hc : l'.calls.get? w.call with _ | c
      · rfl
      · rcases of_calls hm hc with hc | ⟨hnew, -⟩
        · rw [h.apart t w hw] at hc
          cases hc
        · exact absurd (h.write_lt t w hw) (by omega)
    · exact SortedMap.get?_erase_self _ _
  · rcases of_writes hm hw₁ with ⟨w, hw, hcall, -⟩ | ⟨k, c, -, hc, rfl, rfl, -⟩ <;>
      rcases of_writes hm hw₂ with ⟨w', hw', hcall', -⟩ | ⟨k', c', -, hc', rfl, rfl, -⟩
    · exact h.distinct t₁ t₂ w w' hw hw' (hcall ▸ hcall' ▸ heq)
    · have hnone := h.apart t₁ w hw
      rw [← hcall, heq, hc'] at hnone
      cases hnone
    · have hnone := h.apart t₂ w' hw'
      rw [← hcall', ← heq, hc] at hnone
      cases hnone
    · rfl
  · rcases of_pushedOk hm hk with hk | ⟨t, w, rfl, hw, -, rfl⟩
    · obtain ⟨hlt, hnone, hne⟩ := h.returned k hk
      refine ⟨hlt.trans_le hlen, ?_, fun t w' hw' => ?_⟩
      · rcases hc : l'.calls.get? k with _ | c
        · rfl
        · rcases of_calls hm hc with hc | ⟨hnew, -⟩
          · rw [hnone] at hc
            cases hc
          · omega
      · rcases of_writes hm hw' with ⟨w, hw, hcall, -⟩ | ⟨k', c, -, hc, -, rfl, -⟩
        · exact hcall ▸ hne t w hw
        · rintro rfl
          rw [hnone] at hc
          cases hc
    · cases hm with
      | returned hw₀ =>
        refine ⟨(h.write_lt t w hw).trans_le hlen, h.apart t w hw, fun t' w' hw' heq => ?_⟩
        obtain ⟨hne, hw'⟩ := SortedMap.of_get?_erase hw'
        exact hne (h.distinct t' t w' w hw' hw heq)

/-- The next call has a new number. -/
theorem OwnCalls.fresh (h : l.OwnCalls) : l.calls.get? l.log.length = none := by
  rcases hc : l.calls.get? l.log.length with _ | c
  · rfl
  · exact absurd (h.call_lt _ c hc) (lt_irrefl _)

end Ledger

namespace Facade

variable {f f' : Facade} {a : AsyncAct}

/-- The step's part in the queue. -/
def queueAct (f : Facade) : AsyncAct → Option Act
  | .push value _ => some (.turn (.call value false))
  | .retry k => (f.pushes.get? k).map fun task => .turn (.call task.value false)
  | .nack g => some (.turn (.release g))
  | .close => some (.turn .close)
  | .queue a => some a
  | .pushed _ | .dropPush _ | .reserve | .reserved _ | .rescan _ | .dropReserve _ | .ack _
  | .acked _ | .dropAck _ | .notifyItems | .closeRoom | .closeItems => none

/-- The step's part in the queue is allowed. -/
def Keeps (D : Discipline) (f : Facade) (a : AsyncAct) : Prop :=
  ∀ b ∈ f.queueAct a, D.act f.queue b

instance (D : Discipline) (f : Facade) (a : AsyncAct) [∀ b, Decidable (D.act f.queue b)] :
    Decidable (f.Keeps D a) :=
  inferInstanceAs (Decidable (∀ b ∈ f.queueAct a, D.act f.queue b))

/-- No future is dropped, and a commit that fails has applied nothing. -/
def Completes (f : Facade) (a : AsyncAct) : Prop := f.Keeps cleanFailures a ∧ a.drops = false

instance (f : Facade) (a : AsyncAct) : Decidable (f.Completes a) :=
  inferInstanceAs (Decidable (_ ∧ _))

theorem Proceeds.queue_eq {s : Session} {b : Act} (h : f.Proceeds s b f') : f'.queue = s := by
  cases h <;> rfl

/-- A step of the facade is an act of the queue, or leaves the queue alone. -/
theorem Stepped.acts (h : f.Stepped a f') :
    f.queueAct a = .none ∧ f'.queue = f.queue ∨
      ∃ b, f.queueAct a = some b ∧ f.queue.step b = some f'.queue := by
  cases h with
  | push waits hs => exact Or.inr ⟨_, rfl, hs⟩
  | retry hk hready hs => exact Or.inr ⟨_, congrArg (Option.map _) hk, hs⟩
  | nack hg hs => exact Or.inr ⟨_, rfl, hs⟩
  | close hs => exact Or.inr ⟨_, rfl, hs⟩
  | queue hs hp => exact Or.inr ⟨_, rfl, hp.queue_eq ▸ hs⟩
  | _ => exact Or.inl ⟨rfl, rfl⟩

/-- **The facade's invariant rule.** An invariant of the queue's ledger holds behind the
facade, and it may be used to prove one of the facade. -/
theorem invariant {D : Discipline} {ok : Facade → AsyncAct → Prop} {I : Ledger → Prop}
    {J : Facade → Prop} {f₀ : Facade} {as : List AsyncAct}
    (hrun : Run Facade.step ok f₀ as f) (hcoupled : Coupled f₀.queue)
    (hI : I f₀.queue.toLedger) (hJ : J f₀) (hkeeps : ∀ f a, ok f a → f.Keeps D a)
    (hmove : ∀ l m l', l.Wf → I l → D.move l m → Ledger.Moved l m l' → I l')
    (hstep : ∀ f a f', Coupled f.queue → I f.queue.toLedger → J f → ok f a → f.Stepped a f' →
      I f'.queue.toLedger → J f') :
    Coupled f.queue ∧ I f.queue.toLedger ∧ J f := by
  refine hrun.invariant (I := fun f => Coupled f.queue ∧ I f.queue.toLedger ∧ J f)
    (fun f a f' ⟨hcoupled, hI, hJ⟩ hok h => ?_) ⟨hcoupled, hI, hJ⟩
  have hstepped := stepped_of_step h
  have hnext : Coupled f'.queue ∧ I f'.queue.toLedger := by
    rcases hstepped.acts with ⟨-, heq⟩ | ⟨b, hb, hs⟩
    · rw [heq]
      exact ⟨hcoupled, hI⟩
    · obtain ⟨hI', hcoupled'⟩ :=
        hcoupled.invariant (.single (hkeeps f a hok b hb) hs) hI hmove
      exact ⟨hcoupled', hI'⟩
  exact ⟨hnext.1, hnext.2, hstep f a f' hcoupled hI hJ hok hstepped hnext.2⟩

/-- **A run of the facade is a run of the queue behind it.** -/
theorem queue_run {D : Discipline} {as : List AsyncAct}
    (hrun : Run Facade.step (Keeps D) f as f') :
    ∃ bs, Run Session.step D.act f.queue bs f'.queue := by
  induction hrun with
  | nil => exact ⟨[], .nil _⟩
  | cons hok h _ ih =>
    obtain ⟨bs, hbs⟩ := ih
    rcases (stepped_of_step h).acts with ⟨-, heq⟩ | ⟨b, hb, hs⟩
    · exact ⟨bs, heq ▸ hbs⟩
    · exact ⟨b :: bs, .cons (hok b hb) hs hbs⟩

/-! ## Pushes and their calls -/

/-- A push's future stands where its call stands, and `room` knows it if it waits. -/
structure PushLinks (f : Facade) : Prop where
  unblocking : ∀ k c, f.queue.calls.get? k = some c → c.blocking = false
  numbered : ∀ k task, f.pushes.get? k = some task → k < f.queue.log.length
  trying : ∀ k c task, f.queue.calls.get? k = some c → f.pushes.get? k = some task →
    task.stage = .trying
  writing : ∀ t w task, f.queue.writes.get? t = some w → f.pushes.get? w.call = some task →
    task.stage = .writing
  room : f.room.Wf
  room_lt : ∀ k, f.room.Knows k → k < f.queue.log.length
  known : ∀ k task, f.pushes.get? k = some task → task.waits = true → f.room.Knows k
  sleeps : ∀ k task, f.pushes.get? k = some task → task.stage = .asleep → task.waits = true

theorem pushLinks_opened {b : Builder} {s : Session} (h : FreshLedger b s.toLedger) :
    (opened s).PushLinks where
  unblocking := fun k c hc => by
    simp only [opened] at hc
    rw [h.opened] at hc
    cases hc
  numbered := fun _ _ h => by cases h
  trying := fun _ _ _ _ h => by cases h
  writing := fun _ _ _ _ h => by cases h
  room := Notify.wf_init
  room_lt := fun k h => by rcases h with h | h | h | h <;> cases h
  known := fun _ _ h => by cases h
  sleeps := fun _ _ h => by cases h

namespace PushLinks

/-- A step that is about no push. -/
theorem frame (h : f.PushLinks) (hpushes : f'.pushes = f.pushes)
    (hcalls : ∀ k c, f'.queue.calls.get? k = some c → f.queue.calls.get? k = some c)
    (hwrites : ∀ t w', f'.queue.writes.get? t = some w' →
      ∃ w, f.queue.writes.get? t = some w ∧ w'.call = w.call)
    (hlog : f.queue.log.length ≤ f'.queue.log.length) (hroom : f'.room.Wf)
    (hof : ∀ k, f'.room.Knows k → f.room.Knows k) (hto : ∀ k, f.room.Knows k → f'.room.Knows k) :
    f'.PushLinks where
  unblocking := fun k c hc => h.unblocking k c (hcalls k c hc)
  numbered := fun k task hk => (h.numbered k task (hpushes ▸ hk)).trans_le hlog
  trying := fun k c task hc hk => h.trying k c task (hcalls k c hc) (hpushes ▸ hk)
  writing := fun t w' task hw' hk => by
    obtain ⟨w, hw, hcall⟩ := hwrites t w' hw'
    rw [hpushes, hcall] at hk
    exact h.writing t w task hw hk
  room := hroom
  room_lt := fun k hk => (h.room_lt k (hof k hk)).trans_le hlog
  known := fun k task hk hwaits => hto k (h.known k task (hpushes ▸ hk) hwaits)
  sleeps := fun k task hk => h.sleeps k task (hpushes ▸ hk)

/-- The future of a push is gone. -/
theorem erase (h : f.PushLinks) {k : ℕ} {room : Notify ℕ} (hroom : room.Wf)
    (hof : ∀ k', room.Knows k' → f.room.Knows k')
    (hto : ∀ k', k' ≠ k → f.room.Knows k' → room.Knows k') :
    ({ f with room, pushes := f.pushes.erase k } : Facade).PushLinks where
  unblocking := h.unblocking
  numbered := fun k' task' hk => h.numbered k' task' (SortedMap.of_get?_erase hk).2
  trying := fun k' c task' hc hk => h.trying k' c task' hc (SortedMap.of_get?_erase hk).2
  writing := fun t w task' hw hk => h.writing t w task' hw (SortedMap.of_get?_erase hk).2
  room := hroom
  room_lt := fun k' hk => h.room_lt k' (hof k' hk)
  known := fun k' task' hk hwaits => by
    obtain ⟨hne, hk⟩ := SortedMap.of_get?_erase hk
    exact hto k' hne (h.known k' task' hk hwaits)
  sleeps := fun k' task' hk => h.sleeps k' task' (SortedMap.of_get?_erase hk).2

theorem endPush (h : f.PushLinks) (k : ℕ) (task : PushTask) : (f.endPush k task).PushLinks := by
  rw [Facade.endPush]
  split
  · exact h.erase h.room.drop (fun _ hk => hk.of_drop) fun _ hne hk => hk.drop hne
  · exact h.erase h.room (fun _ hk => hk) fun _ _ hk => hk

/-- A push moves to another stage. -/
theorem stage (h : f.PushLinks) {k : ℕ} {waits : Bool} {value : Bytes} {stage stage' : PushStage}
    (hk : f.pushes.get? k = some ⟨waits, value, stage⟩)
    (hpushes : f'.pushes = f.pushes.insert k ⟨waits, value, stage'⟩)
    (hcalls : ∀ k c, f'.queue.calls.get? k = some c → f.queue.calls.get? k = some c)
    (hwrites : ∀ t w' task, f'.queue.writes.get? t = some w' → w'.call ≠ k →
      f.pushes.get? w'.call = some task → task.stage = .writing)
    (htrying : ∀ c, f'.queue.calls.get? k = some c → stage' = .trying)
    (hwriting : ∀ t w', f'.queue.writes.get? t = some w' → w'.call = k → stage' = .writing)
    (hlog : f.queue.log.length ≤ f'.queue.log.length) (hroom : f'.room = f.room)
    (hasleep : stage' = .asleep → waits = true) : f'.PushLinks where
  unblocking := fun k' c hc => h.unblocking k' c (hcalls k' c hc)
  numbered := fun k' task hk' => by
    rw [hpushes] at hk'
    rcases SortedMap.of_get?_insert hk' with ⟨rfl, -⟩ | ⟨-, hk'⟩
    · exact (h.numbered _ _ hk).trans_le hlog
    · exact (h.numbered k' task hk').trans_le hlog
  trying := fun k' c task hc hk' => by
    rw [hpushes] at hk'
    rcases SortedMap.of_get?_insert hk' with ⟨rfl, rfl⟩ | ⟨-, hk'⟩
    · exact htrying c hc
    · exact h.trying k' c task (hcalls k' c hc) hk'
  writing := fun t w' task hw' hk' => by
    rw [hpushes] at hk'
    rcases SortedMap.of_get?_insert hk' with ⟨heq, rfl⟩ | ⟨hne, hk'⟩
    · exact hwriting t w' hw' heq
    · exact hwrites t w' task hw' hne hk'
  room := hroom ▸ h.room
  room_lt := fun k' hk' => (h.room_lt k' (hroom ▸ hk')).trans_le hlog
  known := fun k' task hk' hwaits => by
    rw [hpushes] at hk'
    rw [hroom]
    rcases SortedMap.of_get?_insert hk' with ⟨rfl, rfl⟩ | ⟨-, hk'⟩
    · exact h.known _ _ hk hwaits
    · exact h.known k' task hk' hwaits
  sleeps := fun k' task hk' hstage => by
    rw [hpushes] at hk'
    rcases SortedMap.of_get?_insert hk' with ⟨rfl, rfl⟩ | ⟨-, hk'⟩
    · exact hasleep hstage
    · exact h.sleeps k' task hk' hstage

/-- A new attempt of a push. -/
theorem tryPush (h : f.PushLinks) (hown : f.queue.OwnCalls) {value : Bytes} (waits : Bool)
    {s : Session} (hs : f.queue.step (.turn (.call value false)) = some s) :
    ({ f with
      queue := s
      room := if waits then f.room.enable f.queue.log.length else f.room
      pushes := f.pushes.insert f.queue.log.length { waits, value, stage := .trying } } :
      Facade).PushLinks := by
  obtain rfl := Option.some.inj hs
  have hfresh : ¬f.room.Knows f.queue.log.length := fun hk => lt_irrefl _ (h.room_lt _ hk)
  refine ⟨fun k c hc => ?_, fun k task hk => ?_, fun k c task hc hk => ?_,
    fun t w task hw hk => ?_, ?_, fun k hk => ?_, fun k task hk hwaits => ?_,
    fun k task hk hstage => ?_⟩
  · rcases SortedMap.of_get?_insert hc with ⟨-, rfl⟩ | ⟨-, hc⟩
    · rfl
    · exact h.unblocking k c hc
  · rcases SortedMap.of_get?_insert hk with ⟨rfl, -⟩ | ⟨-, hk⟩
    · exact Nat.lt_succ_self _
    · exact (h.numbered k task hk).trans (Nat.lt_succ_self _)
  · rcases SortedMap.of_get?_insert hk with ⟨-, rfl⟩ | ⟨hne, hk⟩
    · rfl
    · exact h.trying k c task ((SortedMap.get?_insert_ne _ _ hne).symm.trans hc) hk
  · rcases SortedMap.of_get?_insert hk with ⟨heq, -⟩ | ⟨-, hk⟩
    · exact absurd (hown.write_lt t w hw) (by omega)
    · exact h.writing t w task hw hk
  · simp only
    split
    · exact h.room.enable hfresh
    · exact h.room
  · simp only at hk
    split at hk
    · rcases hk.of_enable with hk | rfl
      · exact (h.room_lt k hk).trans (Nat.lt_succ_self _)
      · exact Nat.lt_succ_self _
    · exact (h.room_lt k hk).trans (Nat.lt_succ_self _)
  · rcases SortedMap.of_get?_insert hk with ⟨rfl, rfl⟩ | ⟨-, hk⟩
    · obtain rfl : waits = true := hwaits
      exact Notify.knows_enable
    · simp only
      split
      · exact (h.known k task hk hwaits).enable
      · exact h.known k task hk hwaits
  · rcases SortedMap.of_get?_insert hk with ⟨rfl, rfl⟩ | ⟨-, hk⟩
    · cases hstage
    · exact h.sleeps k task hk hstage

theorem write (h : f.PushLinks) {s : Session}
    (hc : Ledger.Committed f.queue.toLedger s.toLedger) :
    ({ f with queue := s } : Facade).PushLinks :=
  h.frame rfl (fun _ _ hk => hc.calls ▸ hk) hc.back hc.log_le h.room (fun _ hk => hk) fun _ hk => hk

/-- A turn that is no attempt and gives nothing back. -/
theorem turn (h : f.PushLinks) {b : Turn} {l : Ledger}
    (hm : Ledger.Moved f.queue.toLedger (.turn b) l) (hattempt : ∀ k, b ≠ .attempt k)
    (hcall : ∀ value blocking, b ≠ .call value blocking) {f' : Facade}
    (hqueue : f'.queue.toLedger = l) (hpushes : f'.pushes = f.pushes) (hroom : f'.room = f.room) :
    f'.PushLinks := by
  refine h.frame hpushes (fun k c hc => ?_) (fun t w' hw' => ?_) ?_ (hroom ▸ h.room)
    (fun k hk => hroom ▸ hk) fun k hk => hroom ▸ hk
  · rw [hqueue] at hc
    cases hm with
    | call value blocking => exact absurd rfl (hcall value blocking)
    | turnedAway k | waits k | @claim k => exact absurd rfl (hattempt k)
    | giveBack | close | reserve | ended | found | skipped | handedOut | remove | record
    | release => exact hc
  · rw [hqueue] at hw'
    rcases Ledger.of_writes hm hw' with ⟨w, hw, hcall, -⟩ | ⟨k, c, heq, -⟩
    · exact ⟨w, hw, hcall⟩
    · exact absurd (Move.turn.inj heq) (hattempt k)
  · rw [hqueue]
    exact Ledger.length_mono hm

end PushLinks

/-- A turn of the queue is a move of its ledger. -/
theorem moved_of_turn {s s' : Session} {b : Turn} (h : s.step (.turn b) = some s') :
    ∃ l, Ledger.Moved s.toLedger (.turn b) l ∧ s' = { s with toLedger := l } := by
  simp only [Session.step] at h
  obtain ⟨l, hl, rfl⟩ := Option.map_eq_some_iff.mp h
  exact ⟨l, Ledger.moved_of_step hl, rfl⟩

/-- What the locked part of `try_push` does, and what it tells the future. -/
theorem PushLinks.attempted (h : f.PushLinks) {k : ℕ} {l : Ledger}
    (hm : Ledger.Moved f.queue.toLedger (.turn (.attempt k)) l) :
    ∃ c, f.queue.calls.get? k = some c ∧
      (f.decides k = .writing ∧ f.queue.inner.closed = false ∧
          f.queue.cfg.admits f.queue.inner.len f.queue.inner.bytes c.value.length = true ∧
          l = f.queue.toLedger.claim k c.value ∨
        l = { f.queue.toLedger with calls := f.queue.calls.erase k } ∧
          (f.decides k = .refused .closed ∧ f.queue.inner.closed = true ∨
            f.decides k = .refused .full ∧ f.queue.inner.closed = false ∧
              f.queue.cfg.admits f.queue.inner.len f.queue.inner.bytes c.value.length = false)) := by
  cases hm with
  | @turnedAway _ c hc haway =>
    refine ⟨c, hc, Or.inr ⟨rfl, ?_⟩⟩
    rcases hclosed : f.queue.inner.closed
    · have hfull := (haway hclosed).2
      exact Or.inr ⟨by simp only [decides, hc, hclosed, hfull, if_false, Bool.false_eq_true], rfl,
        hfull⟩
    · exact Or.inl ⟨by simp only [decides, hc, hclosed, if_true], rfl⟩
  | @waits _ c hc _ _ hblocking =>
    rw [h.unblocking k _ hc] at hblocking
    cases hblocking
  | @claim _ c hc hroom hopen =>
    refine ⟨c, hc, Or.inl ⟨?_, hopen, hroom, rfl⟩⟩
    simp only [decides, hc, hopen, hroom, if_true, if_false, Bool.false_eq_true]

theorem Proceeds.pushLinks {D : Discipline} {s : Session} {b : Act} (h : f.PushLinks)
    (hcoupled : Coupled f.queue) (hown : f.queue.OwnCalls) (hok : D.act f.queue b)
    (hs : f.queue.step b = some s) (hp : f.Proceeds s b f') : f'.PushLinks := by
  cases hp with
  | write hturn => exact h.write (hcoupled.committed hok hturn hs).1
  | @attempt k waits value hk =>
    obtain ⟨l, hm, rfl⟩ := moved_of_turn hs
    have hlog := Ledger.length_mono hm
    obtain ⟨c, hc, hcases⟩ := h.attempted hm
    have hold : ∀ t w, f.queue.writes.get? t = some w → w.call ≠ k := by
      rintro t w hw rfl
      rw [hown.apart t w hw] at hc
      cases hc
    rcases hcases with ⟨hdecides, -, -, rfl⟩ | ⟨rfl, hdecides⟩
    · refine h.stage hk rfl (fun _ _ hc' => (SortedMap.of_get?_erase hc').2)
        (fun t w' task hw' hne hk' => ?_) (fun _ hc' => ?_) (fun _ _ _ _ => hdecides) hlog rfl
        (fun hasleep => ?_)
      · rcases SortedMap.of_get?_insert hw' with ⟨-, rfl⟩ | ⟨-, hw'⟩
        · exact absurd rfl hne
        · exact h.writing t w' task hw' hk'
      · exact absurd rfl (SortedMap.of_get?_erase hc').1
      · rw [hdecides] at hasleep
        cases hasleep
    · refine h.stage hk rfl (fun _ _ hc' => (SortedMap.of_get?_erase hc').2)
        (fun t w' task hw' _ hk' => h.writing t w' task hw' hk') (fun _ hc' => ?_)
        (fun t w' hw' hcall => absurd hcall (hold t w' hw')) hlog rfl (fun hasleep => ?_)
      · exact absurd rfl (SortedMap.of_get?_erase hc').1
      · rcases hdecides with ⟨hdecides, -⟩ | ⟨hdecides, -⟩ <;> rw [hdecides] at hasleep <;>
          cases hasleep
  | @attemptAlone k hk =>
    obtain ⟨l, hm, rfl⟩ := moved_of_turn hs
    have hlog := Ledger.length_mono hm
    obtain ⟨c, hc, hcases⟩ := h.attempted hm
    have hnone : f.pushes.get? k = .none := by
      rcases hk' : f.pushes.get? k with _ | ⟨waits, value, stage⟩
      · rfl
      · obtain rfl : stage = .trying := h.trying k c _ hc hk'
        exact absurd hk' (hk waits value)
    have hframe : ∀ {l : Ledger}, l.calls = f.queue.calls.erase k →
        (∀ t w', l.writes.get? t = some w' → w'.call = k ∨ f.queue.writes.get? t = some w') →
        f.queue.log.length ≤ l.log.length →
        ({ f with queue := { f.queue with toLedger := l } } : Facade).PushLinks := by
      intro l hcalls hwrites hlog
      have hsub : ∀ k' c', l.calls.get? k' = some c' → f.queue.calls.get? k' = some c' := by
        intro k' c' hc'
        rw [hcalls] at hc'
        exact (SortedMap.of_get?_erase hc').2
      refine ⟨fun k' c' hc' => h.unblocking k' c' (hsub k' c' hc'),
        fun k' task hk' => (h.numbered k' task hk').trans_le hlog,
        fun k' c' task hc' hk' => h.trying k' c' task (hsub k' c' hc') hk',
        fun t w' task hw' hk' => ?_, h.room, fun k' hk' => (h.room_lt k' hk').trans_le hlog,
        h.known, h.sleeps⟩
      rcases hwrites t w' hw' with rfl | hw
      · rw [hnone] at hk'
        cases hk'
      · exact h.writing t w' task hw hk'
    rcases hcases with ⟨-, -, -, rfl⟩ | ⟨rfl, -⟩
    · refine hframe rfl (fun t w' hw' => ?_) hlog
      rcases SortedMap.of_get?_insert hw' with ⟨-, rfl⟩ | ⟨-, hw'⟩
      · exact Or.inl rfl
      · exact Or.inr hw'
    · exact hframe rfl (fun t w' hw' => Or.inr hw') hlog
  | @giveBack seq w waits value hw hk =>
    obtain ⟨l, hm, rfl⟩ := moved_of_turn hs
    have hlog := Ledger.length_mono hm
    cases hm with
    | giveBack hw₀ =>
      refine h.stage hk rfl (fun _ _ hc' => hc')
        (fun t w' task hw' _ hk' => h.writing t w' task (SortedMap.of_get?_erase hw').2 hk')
        (fun c hc => ?_) (fun t w' hw' hcall => ?_) hlog rfl (fun hasleep => by cases hasleep)
      · rw [hown.apart seq w hw] at hc
        cases hc
      · obtain ⟨hne, hw'⟩ := SortedMap.of_get?_erase hw'
        exact absurd (hown.distinct t seq w' w hw' hw hcall) hne
  | giveBackAlone hw hk =>
    obtain ⟨l, hm, rfl⟩ := moved_of_turn hs
    exact h.turn hm (fun _ => by simp) (fun _ _ => by simp) rfl rfl rfl
  | begins | ended | endedAlone | seeksOn | found | foundAlone | checksOn | ack | record
  | recordAlone | releaseDoomed | release | releaseAlone =>
    obtain ⟨l, hm, rfl⟩ := moved_of_turn hs
    exact h.turn hm (fun _ => by simp) (fun _ _ => by simp) rfl rfl rfl

theorem Stepped.pushLinks {D : Discipline} (h : f.PushLinks) (hcoupled : Coupled f.queue)
    (hown : f.queue.OwnCalls) (hok : f.Keeps D a) (hstep : f.Stepped a f') : f'.PushLinks := by
  cases hstep with
  | push waits hs => exact h.tryPush hown waits hs
  | @retry k waits value s hk hready hs =>
    have hgone := h.erase (h.room.forget (i := k)) (fun _ hk => hk.of_forget.1)
      fun _ hne hk => hk.forget hne
    exact hgone.tryPush hown waits hs
  | @pushed k waits value hk hok =>
    obtain ⟨h₁, h₂, h₃, h₄, h₅, h₆, h₇, h₈⟩ := h.endPush k ⟨waits, value, .writing⟩
    exact ⟨h₁, h₂, h₃, h₄, h₅, h₆, h₇, h₈⟩
  | @full k value hk =>
    refine h.stage hk rfl (fun _ _ hc => hc) (fun t w task hw _ hk => h.writing t w task hw hk)
      (fun c hc => ?_) (fun t w hw hcall => ?_) (le_refl _) rfl fun _ => rfl
    · cases h.trying k c _ hc hk
    · subst hcall
      cases h.writing t w _ hw hk
  | refused => exact h.endPush _ _
  | dropPush => exact h.endPush _ _
  | acked =>
    exact h.frame rfl (fun _ _ hc => hc) (fun t w hw => ⟨w, hw, rfl⟩) (le_refl _)
      h.room.notifyOne (fun _ hk => hk.of_notifyOne) fun _ hk => hk.notifyOne
  | closeRoom =>
    exact h.frame rfl (fun _ _ hc => hc) (fun t w hw => ⟨w, hw, rfl⟩) (le_refl _)
      Notify.Wf.notifyWaiters (fun _ hk => hk.of_notifyWaiters) fun _ hk => hk.notifyWaiters
  | nack hg hs | close hs =>
    obtain ⟨l, hm, rfl⟩ := moved_of_turn hs
    exact h.turn hm (fun _ => by simp) (fun _ _ => by simp) rfl rfl rfl
  | reserve | reserved | none | sleeps | failed | rescan | dropScan | dropFound | dropReserve
  | ack | ackFailed | dropAcked | dropAck | notifyItems | closeItems =>
    exact h.frame rfl (fun _ _ hc => hc) (fun t w hw => ⟨w, hw, rfl⟩) (le_refl _) h.room
      (fun _ hk => hk) fun _ hk => hk
  | queue hs hp => exact hp.pushLinks h hcoupled hown (hok _ rfl) hs

/-! ## Reserves -/

/-- `items` knows the reserves whose futures are there, and nobody else waits on it. -/
structure ReserveLinks (f : Facade) : Prop where
  items : f.items.Wf
  items_lt : ∀ r, f.items.Knows r → r < f.next
  reserve_lt : ∀ r task, f.reserves.get? r = some task → r < f.next
  known : ∀ r stage, f.reserves.get? r = some ⟨true, stage⟩ → f.items.Knows r
  waiting : ∀ r ∈ f.items.waiting, ∃ stage, f.reserves.get? r = some ⟨true, stage⟩

theorem reserveLinks_opened (s : Session) : (opened s).ReserveLinks where
  items := Notify.wf_init
  items_lt := fun r h => by rcases h with h | h | h | h <;> cases h
  reserve_lt := fun _ _ h => by cases h
  known := fun _ _ h => by cases h
  waiting := fun _ h => by cases h

namespace ReserveLinks

/-- A step that is about no reserve. -/
theorem frame (h : f.ReserveLinks) (hreserves : f'.reserves = f.reserves)
    (hnext : f'.next = f.next) (hitems : f'.items.Wf)
    (hof : ∀ r, f'.items.Knows r → f.items.Knows r)
    (hto : ∀ r, f.items.Knows r → f'.items.Knows r)
    (hwaiting : ∀ r ∈ f'.items.waiting, r ∈ f.items.waiting) : f'.ReserveLinks where
  items := hitems
  items_lt := fun r hr => hnext ▸ h.items_lt r (hof r hr)
  reserve_lt := fun r task hr => hnext ▸ h.reserve_lt r task (hreserves ▸ hr)
  known := fun r stage hr => hto r (h.known r stage (hreserves ▸ hr))
  waiting := fun r hr => hreserves ▸ h.waiting r (hwaiting r hr)

/-- A step that leaves `items` and the reserves alone. -/
theorem same (h : f.ReserveLinks) (hreserves : f'.reserves = f.reserves)
    (hnext : f'.next = f.next) (hitems : f'.items = f.items) : f'.ReserveLinks :=
  h.frame hreserves hnext (hitems ▸ h.items) (fun _ hr => hitems ▸ hr) (fun _ hr => hitems ▸ hr)
    fun _ hr => hitems ▸ hr

/-- A reserve moves to another stage. -/
theorem stage (h : f.ReserveLinks) {r : ℕ} {live : Bool} {stage stage' : ReserveStage}
    (hr : f.reserves.get? r = some ⟨live, stage⟩)
    (hreserves : f'.reserves = f.reserves.insert r ⟨live, stage'⟩) (hnext : f'.next = f.next)
    (hitems : f'.items = f.items) : f'.ReserveLinks := by
  refine ⟨hitems ▸ h.items, fun r' hr' => hnext ▸ h.items_lt r' (hitems ▸ hr'),
    fun r' task hr' => ?_, fun r' stage hr' => ?_, fun r' hr' => ?_⟩
  · rw [hreserves] at hr'
    rw [hnext]
    rcases SortedMap.of_get?_insert hr' with ⟨rfl, -⟩ | ⟨-, hr'⟩
    · exact h.reserve_lt _ _ hr
    · exact h.reserve_lt r' task hr'
  · rw [hreserves] at hr'
    rw [hitems]
    rcases SortedMap.of_get?_insert hr' with ⟨rfl, heq⟩ | ⟨-, hr'⟩
    · obtain ⟨rfl, -⟩ := ReserveTask.mk.inj heq
      exact h.known _ _ hr
    · exact h.known r' stage hr'
  · rw [hitems] at hr'
    rw [hreserves, SortedMap.get?_insert]
    obtain ⟨stage₀, hr₀⟩ := h.waiting r' hr'
    split
    · next heq =>
      subst heq
      obtain ⟨rfl, -⟩ := ReserveTask.mk.inj (Option.some.inj (hr.symm.trans hr₀))
      exact ⟨stage', rfl⟩
    · exact ⟨stage₀, hr₀⟩

/-- A reserve's future is gone. -/
theorem gone (h : f.ReserveLinks) {r : ℕ} (hnext : f'.next = f.next) (hitems : f'.items.Wf)
    (hof : ∀ r', f'.items.Knows r' → f.items.Knows r')
    (hto : ∀ r', r' ≠ r → f.items.Knows r' → f'.items.Knows r')
    (hwaiting : ∀ r' ∈ f'.items.waiting, r' ∈ f.items.waiting ∧ r' ≠ r)
    (hsame : ∀ r', r' ≠ r → f'.reserves.get? r' = f.reserves.get? r')
    (hself : ∀ task, f'.reserves.get? r = some task →
      task.live = false ∧ ∃ task₀, f.reserves.get? r = some task₀) : f'.ReserveLinks := by
  refine ⟨hitems, fun r' hr' => hnext ▸ h.items_lt r' (hof r' hr'), fun r' task hr' => ?_,
    fun r' stage hr' => ?_, fun r' hr' => ?_⟩
  · rw [hnext]
    by_cases hne : r' = r
    · subst hne
      obtain ⟨-, task₀, hr₀⟩ := hself task hr'
      exact h.reserve_lt r' task₀ hr₀
    · exact h.reserve_lt r' task ((hsame r' hne).symm.trans hr')
  · have hne : r' ≠ r := by
      rintro rfl
      cases (hself _ hr').1
    exact hto r' hne (h.known r' stage ((hsame r' hne).symm.trans hr'))
  · obtain ⟨hold, hne⟩ := hwaiting r' hr'
    rw [hsame r' hne]
    exact h.waiting r' hold

theorem endReserve (h : f.ReserveLinks) (r : ℕ) : (f.endReserve r).ReserveLinks :=
  h.gone rfl h.items.drop (fun _ hr => hr.of_drop) (fun _ hne hr => hr.drop hne)
    (fun _ hr => Notify.waiting_drop hr) (fun _ hne => SortedMap.get?_erase_ne _ hne)
    fun _ hr => absurd rfl (SortedMap.of_get?_erase hr).1

theorem scan (h : f.ReserveLinks) : f.scan.ReserveLinks := by
  have hfresh : ¬f.items.Knows f.next := fun hr => lt_irrefl _ (h.items_lt _ hr)
  refine ⟨h.items.enable hfresh, fun r hr => ?_, fun r task hr => ?_, fun r stage hr => ?_,
    fun r hr => ?_⟩
  · rcases hr.of_enable with hr | rfl
    · exact (h.items_lt r hr).trans (Nat.lt_succ_self _)
    · exact Nat.lt_succ_self _
  · rcases SortedMap.of_get?_insert hr with ⟨rfl, -⟩ | ⟨-, hr⟩
    · exact Nat.lt_succ_self _
    · exact (h.reserve_lt r task hr).trans (Nat.lt_succ_self _)
  · rcases SortedMap.of_get?_insert hr with ⟨rfl, -⟩ | ⟨-, hr⟩
    · exact Notify.knows_enable
    · exact (h.known r stage hr).enable
  · rcases Notify.waiting_enable hr with hr | rfl
    · obtain ⟨stage, hr₀⟩ := h.waiting r hr
      exact ⟨stage, (SortedMap.get?_insert_ne _ _ (h.reserve_lt r _ hr₀).ne).trans hr₀⟩
    · exact ⟨_, SortedMap.get?_insert_self _ _ _⟩

/-- The closure of a future that is gone ended. -/
theorem alone (h : f.ReserveLinks) {r : ℕ} {stage : ReserveStage}
    (hr : f.reserves.get? r = some ⟨false, stage⟩) (hnext : f'.next = f.next)
    (hitems : f'.items = f.items) (hreserves : f'.reserves = f.reserves.erase r) :
    f'.ReserveLinks := by
  refine h.gone hnext (hitems ▸ h.items) (fun _ hr => hitems ▸ hr) (fun _ _ hr => hitems ▸ hr)
    (fun r' hr' => ⟨hitems ▸ hr', ?_⟩)
    (fun r' hne => hreserves ▸ SortedMap.get?_erase_ne _ hne) fun task hr' => ?_
  · rintro rfl
    obtain ⟨stage₀, hr₀⟩ := h.waiting r' (hitems ▸ hr')
    cases hr.symm.trans hr₀
  · rw [hreserves] at hr'
    exact absurd rfl (SortedMap.of_get?_erase hr').1

end ReserveLinks

theorem Proceeds.reserveLinks {s : Session} {b : Act} (h : f.ReserveLinks)
    (hp : f.Proceeds s b f') : f'.ReserveLinks := by
  cases hp with
  | begins hr | ended ok hr | found hg hr => exact h.stage hr rfl rfl rfl
  | endedAlone ok hr | foundAlone hg hr => exact h.alone hr rfl rfl rfl
  | write | attempt | attemptAlone | giveBack | giveBackAlone | seeksOn | checksOn | ack | record
  | recordAlone | releaseDoomed | release | releaseAlone => exact h.same rfl rfl rfl

theorem Stepped.reserveLinks (h : f.ReserveLinks) (hstep : f.Stepped a f') : f'.ReserveLinks := by
  cases hstep with
  | push | full | refused | retry | dropPush | ack | acked | ackFailed | dropAcked | dropAck | nack
  | close | closeRoom => exact h.same rfl rfl rfl
  | pushed | notifyItems =>
    exact h.frame rfl rfl h.items.notifyOne (fun _ hr => hr.of_notifyOne) (fun _ hr => hr.notifyOne)
      fun _ hr => Notify.mem_waiting_notifyOne hr
  | closeItems =>
    exact h.frame rfl rfl Notify.Wf.notifyWaiters (fun _ hr => hr.of_notifyWaiters)
      (fun _ hr => hr.notifyWaiters) fun _ hr => by cases hr
  | reserve => exact h.scan
  | none hr | failed hr | dropReserve hr => exact h.endReserve _
  | @reserved r g hr | @dropFound r g hr =>
    obtain ⟨h₁, h₂, h₃, h₄, h₅⟩ := h.endReserve r
    exact ⟨h₁, h₂, h₃, h₄, h₅⟩
  | sleeps hr => exact h.stage hr rfl rfl rfl
  | @rescan r hr hready =>
    have hgone : ({ f with items := f.items.forget r, reserves := f.reserves.erase r } :
        Facade).ReserveLinks :=
      h.gone rfl h.items.forget (fun _ hr => hr.of_forget.1) (fun _ hne hr => hr.forget hne)
        (fun _ hr => Notify.waiting_forget.mp hr) (fun _ hne => SortedMap.get?_erase_ne _ hne)
        fun _ hr => absurd rfl (SortedMap.of_get?_erase hr).1
    exact hgone.scan
  | @dropScan r stage hr hstage =>
    refine h.gone rfl h.items.drop (fun _ hr => hr.of_drop) (fun _ hne hr => hr.drop hne)
      (fun _ hr => Notify.waiting_drop hr) (fun _ hne => SortedMap.get?_insert_ne _ _ hne)
      fun task hr' => ?_
    obtain rfl := Option.some.inj ((SortedMap.get?_insert_self _ _ _).symm.trans hr')
    exact ⟨rfl, _, hr⟩
  | queue hs hp => exact hp.reserveLinks h

end Facade

end PersistentQueue
