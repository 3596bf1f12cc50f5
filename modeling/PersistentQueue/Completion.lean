import Mathlib.Data.Prod.Lex
import PersistentQueue.Lib.Progress
import PersistentQueue.Parking

/-!
# Every call returns

A thread waits in two places: a push for room, on the condvar `room`, and a caller of the
group commit for the leader to record its outcome, on `group_ready`. In `Threads` both are
there, so a thread that waits goes on only when it is notified, or wakes up for no reason.

A queue that gets no new calls comes to rest, whatever its threads do and whatever its
commits come to (`calls_run_out`). An act that carries on a call brings a push nearer to
its end, or else is a step of a leader or a notification, or else of a scan or of a thread
that goes to sleep: `Threads.work` is the lexicographic measure. And nothing is left undone
when no act is possible: nobody sleeps on an outcome that was recorded, and no caller leads
or follows any more. All calls have returned then but pushes that wait for room, and these
too if the queue is closed.
-/

namespace PersistentQueue

/-- An open queue with both of its condvars. -/
structure Threads extends Parking where
  /-- the callers of the group commit that wait on `group_ready` -/
  asleep : Finset ℕ

/-- What a thread does next. -/
inductive ThreadAct : Type where
  /-- an act of a thread that is not waiting, or a notification of `room` -/
  | park (a : ParkAct)
  /-- a push that waits on `room` wakes up for no reason -/
  | rouse (k : ℕ)
  /-- a caller that waits on `group_ready` wakes up for no reason -/
  | stir (seq : ℕ)
  deriving DecidableEq

/-- The act is that of a caller of the group commit that looks for its outcome. -/
def ParkAct.looks : ParkAct → Option ℕ
  | .act (.wake seq) => some seq
  | _ => none

namespace Threads

/-- A queue that was just opened. -/
def opened (s : Session) : Threads := { toParking := Parking.opened s, asleep := ∅ }

/-- Who waits on `group_ready` after an act: a caller that found no outcome does, and nobody
after the leader's `notify_all`. -/
def asleepAfter (t : Threads) (s : Session) : Act → Finset ℕ
  | .enter seq | .wake seq =>
    match s.group.calls.get? seq with
    | some ⟨_, .waiting, _⟩ => insert seq t.asleep
    | _ => t.asleep
  | .record _ => ∅
  | _ => t.asleep

/-- An act leads the queue to the state `p`. -/
def after (t : Threads) (p : Parking) : ParkAct → Threads
  | .act a => { toParking := p, asleep := t.asleepAfter p.toSession a }
  | .notifyOne _ | .notifyAll => { toParking := p, asleep := t.asleep }

/-- One step. A waiting thread makes none. -/
def step (t : Threads) : ThreadAct → Option Threads
  | .park a =>
    if ∃ seq ∈ a.looks, seq ∈ t.asleep then none
    else (t.toParking.step a).map fun p => t.after p a
  | .rouse k => if k ∈ t.parked then some { t with parked := t.parked.erase k } else none
  | .stir seq => if seq ∈ t.asleep then some { t with asleep := t.asleep.erase seq } else none

/-- Everything a step can do. -/
inductive Stepped (t : Threads) : ThreadAct → Threads → Prop
  | act {a : Act} {s : Session} (hs : t.toSession.step a = some s)
      (hawake : ∀ k ∈ a.attempts, k ∉ t.parked)
      (hlooks : ∀ seq ∈ (ParkAct.act a).looks, seq ∉ t.asleep) :
    Stepped t (.park (.act a)) { toParking := t.toParking.after a s, asleep := t.asleepAfter s a }
  | notifyNobody (k n : ℕ) (hones : t.ones = n + 1) (hnobody : t.parked = ∅) :
    Stepped t (.park (.notifyOne k)) { t with ones := n }
  | notifyOne {k : ℕ} (n : ℕ) (hones : t.ones = n + 1) (hk : k ∈ t.parked) :
    Stepped t (.park (.notifyOne k)) { t with ones := n, parked := t.parked.erase k }
  | notifyAll (n : ℕ) (halls : t.alls = n + 1) :
    Stepped t (.park .notifyAll) { t with alls := n, parked := ∅ }
  | rouse {k : ℕ} (hk : k ∈ t.parked) :
    Stepped t (.rouse k) { t with parked := t.parked.erase k }
  | stir {seq : ℕ} (hseq : seq ∈ t.asleep) :
    Stepped t (.stir seq) { t with asleep := t.asleep.erase seq }

theorem stepped_of_step {t t' : Threads} {a : ThreadAct} (h : t.step a = some t') :
    t.Stepped a t' := by
  cases a with
  | park a =>
    simp only [step] at h
    split at h
    · cases h
    · next hlooks =>
      obtain ⟨p, hp, rfl⟩ := Option.map_eq_some_iff.mp h
      cases a with
      | act a =>
        simp only [Parking.step] at hp
        split at hp
        · cases hp
        · next hawake =>
          obtain ⟨s, hs, rfl⟩ := Option.map_eq_some_iff.mp hp
          exact .act hs (fun k hk hmem => hawake ⟨k, hk, hmem⟩)
            fun seq hseq hmem => hlooks ⟨seq, hseq, hmem⟩
      | notifyOne k =>
        simp only [Parking.step] at hp
        split at hp
        · cases hp
        · next n hones =>
          split at hp
          · next hnobody =>
            obtain rfl := Option.some.inj hp
            exact .notifyNobody k n hones hnobody
          · split at hp
            · next hk =>
              obtain rfl := Option.some.inj hp
              exact .notifyOne n hones hk
            · cases hp
      | notifyAll =>
        simp only [Parking.step] at hp
        split at hp
        · cases hp
        · next n halls =>
          obtain rfl := Option.some.inj hp
          exact .notifyAll n halls
  | rouse k =>
    simp only [step] at h
    split at h
    · next hk =>
      obtain rfl := Option.some.inj h
      exact .rouse hk
    · cases h
  | stir seq =>
    simp only [step] at h
    split at h
    · next hseq =>
      obtain rfl := Option.some.inj h
      exact .stir hseq
    · cases h

/-- The steps in any order. -/
def AnyOrder (t : Threads) : ThreadAct → Prop
  | .park a => t.toParking.AnyOrder a
  | .rouse _ | .stir _ => True

instance (t : Threads) : DecidablePred t.AnyOrder
  | .park a => inferInstanceAs (Decidable (t.toParking.AnyOrder a))
  | .rouse _ | .stir _ => isTrue trivial

end Threads

/-- The turn carries on a call that has begun. A guard goes by itself only after a failed
ack. -/
def Turn.CarriesOn (l : Ledger) : Turn → Prop
  | .call _ _ | .close | .reserve _ | .ack _ _ => False
  | .release g => ∃ gd ∈ l.guards.get? g, gd.pc = .failed
  | .attempt _ | .giveBack _ | .seek _ _ | .check _ _ | .record _ => True

instance (l : Ledger) : DecidablePred (Turn.CarriesOn l)
  | .call _ _ | .close | .reserve _ | .ack _ _ => isFalse id
  | .release g => inferInstanceAs (Decidable (∃ gd ∈ l.guards.get? g, gd.pc = .failed))
  | .attempt _ | .giveBack _ | .seek _ _ | .check _ _ | .record _ => isTrue trivial

/-- The runs that carry on what has begun. -/
def carryOn : Discipline where
  turn := Turn.CarriesOn
  outcome _ := True
  retry _ _ _ := True
  split _ _ := ⟨trivial, trivial⟩

namespace Threads

/-- The steps that carry on what has begun, and wake nobody for no reason. -/
def GoesOn (t : Threads) : ThreadAct → Prop
  | .park (.act a) => carryOn.act t.toSession a
  | .park (.notifyOne _) | .park .notifyAll => True
  | .rouse _ | .stir _ => False

/-- No call is in progress but pushes that wait for room, and no notification is owed. -/
structure AtRest (t : Threads) : Prop where
  writes : ∀ seq, t.writes.get? seq = none
  reserves : ∀ r, t.reserves.get? r = none
  group : ∀ seq, t.group.calls.get? seq = none
  guards : ∀ g gd, t.guards.get? g = some gd → gd.pc = .held
  ones : t.ones = 0
  alls : t.alls = 0
  calls : ∀ k c, t.calls.get? k = some c → k ∈ t.parked ∧ c.blocking = true
  closed : t.inner.closed = true → ∀ k, t.calls.get? k = none

/-! ## The work that is left -/

/-- How far the write of a claimed entry has to go: not in the group commit or not recorded
there yet, recorded, about to retry, about to give back its slot. -/
def writeRank (g : Group) (seq : ℕ) (w : Write) : ℕ :=
  match g.calls.get? seq with
  | some c => if c.pc = .retry then 2 else if (g.state.done.get? seq).isSome then 3 else 4
  | none => if w.stage = .failed then 1 else 5

/-- How far an ack has to go. -/
def guardRank (gd : Guard) : ℕ := if gd.pc = .held then 0 else 1

/-- How far the leader has to go with its batch. -/
def leaderRank : GroupPc → ℕ
  | .flushing _ => 2
  | .flushed _ _ => 1
  | _ => 0

/-- How far a scan has to go when no seq at or above `tail` is stored. -/
def scanRank (tail : ℕ) : ReservePc → ℕ
  | .seeking cursor => 2 * (tail - cursor) + 1
  | .checking seq _ => 2 * (tail - seq)

@[simp] theorem scanRank_seeking (tail cursor : ℕ) :
    scanRank tail (.seeking cursor) = 2 * (tail - cursor) + 1 := rfl

@[simp] theorem scanRank_checking (tail seq : ℕ) (value : Bytes) :
    scanRank tail (.checking seq value) = 2 * (tail - seq) := rfl

variable (t : Threads)

/-- What is left of pushes and acks. -/
def callWork : ℕ :=
  6 * t.calls.size + t.writes.sum (writeRank t.group) + t.guards.sum fun _ gd => guardRank gd

/-- What is left of batches and notifications. -/
def wakeWork : ℕ := t.ones + t.alls + t.group.calls.sum fun _ c => leaderRank c.pc

/-- What is left of scans, and of threads that may go to sleep. -/
def scanWork : ℕ :=
  (t.calls.sum fun k _ => if k ∈ t.parked then 0 else 1) +
    (t.group.calls.sum fun seq _ => if seq ∈ t.asleep then 0 else 1) +
    t.reserves.sum fun _ c => scanRank t.inner.tail c.pc

/-- The work that is left. -/
def work : ℕ ×ₗ ℕ ×ₗ ℕ := toLex (t.callWork, toLex (t.wakeWork, t.scanWork))

variable {t} {t' : Threads}

theorem work_lt (h : t'.callWork < t.callWork ∨ t'.callWork ≤ t.callWork ∧
    (t'.wakeWork < t.wakeWork ∨ t'.wakeWork ≤ t.wakeWork ∧ t'.scanWork < t.scanWork)) :
    t'.work < t.work := by
  simp only [work, Prod.Lex.toLex_lt_toLex]
  omega

end Threads

/-! ## What an act does -/

namespace Session

/-- Everything an act can do. -/
inductive Acted (s : Session) : Act → Session → Prop
  | turn {a : Turn} {l : Ledger} (hm : Ledger.Moved s.toLedger (.turn a) l) :
    Acted s (.turn a) { s with toLedger := l }
  | commit {seq : ℕ} {w : Write} (hw : s.writes.get? seq = some w)
      (hgroup : s.cfg.durability.isGroup = false) (hstage : w.stage = .fresh) (o : Outcome) :
    Acted s (.commit seq o)
      { s with toLedger := s.toLedger.write seq w s.cfg.durability.durable o }
  | enter {seq : ℕ} {w : Write} (hw : s.writes.get? seq = some w)
      (hnone : s.group.calls.get? seq = none) (hstage : w.stage = .fresh) :
    Acted s (.enter seq) (s.settle seq w (s.group.enter seq w.value))
  | flush {seq : ℕ} {c : GroupCall} {batch : List (ℕ × Bytes)}
      (hc : s.group.calls.get? seq = some c) (hpc : c.pc = .flushing batch) (o : Outcome) :
    Acted s (.flush seq o)
      { toLedger := s.toLedger.flush batch o, group := s.group.flush seq batch o.isOk }
  | record {seq : ℕ} {w : Write} {c : GroupCall} {batch : List (ℕ × Bytes)} {ok : Bool}
      (hw : s.writes.get? seq = some w) (hc : s.group.calls.get? seq = some c)
      (hpc : c.pc = .flushed batch ok) :
    Acted s (.record seq) (s.settle seq w (s.group.record seq c batch ok))
  | wake {seq : ℕ} {w : Write} {c : GroupCall} (hw : s.writes.get? seq = some w)
      (hc : s.group.calls.get? seq = some c) (hpc : c.pc = .waiting) :
    Acted s (.wake seq) (s.settle seq w (s.group.wake seq c))
  | retry {seq : ℕ} {w : Write} {c : GroupCall} (hw : s.writes.get? seq = some w)
      (hc : s.group.calls.get? seq = some c) (hpc : c.pc = .retry) (o : Outcome) :
    Acted s (.retry seq o)
      { toLedger := s.toLedger.write seq w true o, group := s.group.retried seq }

theorem acted_of_step {s s' : Session} {a : Act} (h : s.step a = some s') : s.Acted a s' := by
  cases a with
  | turn a =>
    obtain ⟨l, hl, rfl⟩ := Option.map_eq_some_iff.mp h
    exact .turn (Ledger.moved_of_step hl)
  | commit seq o =>
    simp only [step] at h
    split at h
    · next w hw =>
      split at h
      · next hcond =>
        obtain rfl := Option.some.inj h
        exact .commit hw hcond.1 hcond.2 o
      · cases h
    · cases h
  | enter seq =>
    simp only [step] at h
    split at h
    · next w hw hnone =>
      split at h
      · next hcond =>
        obtain rfl := Option.some.inj h
        exact .enter hw hnone hcond.2
      · cases h
    · cases h
  | flush seq o =>
    simp only [step] at h
    split at h
    · next hc =>
      obtain rfl := Option.some.inj h
      exact .flush hc rfl o
    · cases h
  | record seq =>
    simp only [step] at h
    split at h
    · next hw hc =>
      obtain rfl := Option.some.inj h
      exact .record hw hc rfl
    · cases h
  | wake seq =>
    simp only [step] at h
    split at h
    · next hw hc =>
      obtain rfl := Option.some.inj h
      exact .wake hw hc rfl
    · cases h
  | retry seq o =>
    simp only [step] at h
    split at h
    · next hw hc =>
      obtain rfl := Option.some.inj h
      exact .retry hw hc rfl o
    · cases h

variable {s : Session} {seq : ℕ} {w : Write} {res : Group × GroupRet}

theorem settle_group : (s.settle seq w res).group = res.1 := by
  rw [settle]
  split <;> rfl

/-- A section ends with a return of its write, or leaves the ledger alone. -/
theorem settle_ledger : (s.settle seq w res).toLedger =
    if res.2 = .took (some true) then s.toLedger.returned seq w else s.toLedger := by
  rw [settle]
  split <;> rfl

end Session

namespace Group

variable {g : Group} {seq : ℕ} {c c' : GroupCall} {batch : List (ℕ × Bytes)} {ok : Bool}

/-- What a section leaves of its own call when that does not return: it is about to retry,
leads with a batch, or waits for an outcome that is not there. -/
def Left (g : Group) (seq : ℕ) (c : GroupCall) : Prop :=
  c.pc = .retry ∨ (∃ batch, batch ≠ [] ∧ c.pc = .flushing batch) ∨
    c.pc = .waiting ∧ g.state.done.get? seq = none

/-- A section that leaves a call to lead leaves it a batch. -/
theorem Left.loaded (h : g.Left seq c) (hlead : c.pc.isLeader = true) : c.pc.batch ≠ [] := by
  rcases h with hpc | ⟨batch, hne, hpc⟩ | ⟨hpc, -⟩
  · rw [hpc] at hlead
    cases hlead
  · rw [hpc]
    exact hne
  · rw [hpc] at hlead
    cases hlead

theorem finish_done {t : ℕ} (ht : t ≠ seq) :
    (g.finish seq c).1.state.done.get? t = g.state.done.get? t := by
  rw [finish_state]
  exact SortedMap.get?_erase_ne _ ht

theorem finish_retries (h : (g.finish seq c).1.calls.get? seq = some c') : c'.pc = .retry := by
  rw [get?_finish_self] at h
  split at h
  · cases h
  · obtain rfl := Option.some.inj h
    rfl

theorem lead_done {t : ℕ} (ht : t ≠ seq) :
    (g.lead seq c).1.state.done.get? t = g.state.done.get? t := by
  rw [lead]
  split
  · exact finish_done ht
  · rfl

/-- A leader that goes on has a batch, and its own outcome is where it was. -/
theorem lead_left (h : (g.lead seq c).1.calls.get? seq = some c') :
    c'.pc = .retry ∨ (∃ batch, batch ≠ [] ∧ c'.pc = .flushing batch) ∧
      (g.lead seq c).1.state.done.get? seq = g.state.done.get? seq := by
  rw [lead] at h ⊢
  split at h
  · exact Or.inl (finish_retries h)
  · next hne =>
    rw [if_neg hne]
    obtain rfl := Option.some.inj ((SortedMap.get?_insert_self _ _ _).symm.trans h)
    exact Or.inr ⟨⟨_, hne, rfl⟩, rfl⟩

theorem enter_done {value : Bytes} {t : ℕ} (ht : t ≠ seq) :
    (g.enter seq value).1.state.done.get? t = g.state.done.get? t := by
  simp only [enter]
  split
  · split
    · exact finish_done ht
    · rfl
  · exact lead_done ht

theorem enter_left {value : Bytes} (h : (g.enter seq value).1.calls.get? seq = some c') :
    (g.enter seq value).1.Left seq c' := by
  simp only [enter] at h ⊢
  split at h
  · split at h
    · exact Or.inl (finish_retries h)
    · next hflushing _ hnone =>
      rw [if_pos hflushing]
      obtain rfl := Option.some.inj ((SortedMap.get?_insert_self _ _ _).symm.trans h)
      exact Or.inr (Or.inr ⟨rfl, hnone⟩)
  · exact (lead_left h).imp id fun hlead => Or.inl hlead.1

theorem record_done {t : ℕ} (ht : t ≠ seq) :
    (g.record seq c batch ok).1.state.done.get? t =
      if t ∈ batch.map Prod.fst then some ok else g.state.done.get? t := by
  simp only [record]
  split
  · exact (finish_done ht).trans get?_recordAll
  · exact (lead_done ht).trans get?_recordAll

theorem record_left (h : (g.record seq c batch ok).1.calls.get? seq = some c') :
    c'.pc = .retry ∨ (∃ batch, batch ≠ [] ∧ c'.pc = .flushing batch) ∧
      (g.record seq c batch ok).1.state.done.get? seq =
        if seq ∈ batch.map Prod.fst then some ok else g.state.done.get? seq := by
  simp only [record] at h ⊢
  split at h
  · exact Or.inl (finish_retries h)
  · next hne =>
    rw [if_neg hne]
    exact (lead_left h).imp id fun hlead => ⟨hlead.1, hlead.2.trans get?_recordAll⟩

/-- A caller that looks for its outcome takes it, or finds nothing and changes nothing. -/
theorem wake_eq : g.wake seq c =
    if (g.state.done.get? seq).isSome then g.finish seq c else (g, .parked) := by
  rw [wake]
  split
  · next h => rw [h, Option.isSome_some, if_pos rfl]
  · next h => rw [h, Option.isSome_none, if_neg Bool.false_ne_true]

end Group

namespace Ledger

variable {l l' : Ledger} {seq : ℕ} {w : Write} {durable : Bool} {o : Outcome}

/-- A write that commits on its own goes, or is about to give back its slot. -/
theorem get?_write_writes (t : ℕ) : (l.write seq w durable o).writes.get? t =
    if t = seq then if o.isOk then none else some { w with stage := .failed }
    else l.writes.get? t := by
  rw [write]
  by_cases ht : t = seq
  · subst ht
    rw [if_pos rfl]
    split
    · exact SortedMap.get?_erase_self _ _
    · exact SortedMap.get?_insert_self _ _ _
  · rw [if_neg ht]
    split
    · exact (SortedMap.get?_erase_ne _ ht).trans (SortedMap.get?_insert_ne _ _ ht)
    · exact (SortedMap.get?_insert_ne _ _ ht).trans (SortedMap.get?_insert_ne _ _ ht)

/-- A turn leaves a write where it was, or it is the claim of a new one. -/
theorem stage_turn {a : Turn} (hm : Moved l (.turn a) l') {t : ℕ} (hw : l'.writes.get? t = some w) :
    l.writes.get? t = some w ∨ w.stage = .fresh := by
  cases hm with
  | claim =>
    rcases SortedMap.of_get?_insert hw with ⟨-, rfl⟩ | ⟨-, hw⟩
    · exact Or.inr rfl
    · exact Or.inl hw
  | giveBack => exact Or.inl (SortedMap.of_get?_erase hw).2
  | call | turnedAway | waits | close | reserve | ended | found | skipped | handedOut | remove
  | record | release => exact Or.inl hw

end Ledger

namespace Parking

variable {p p' : Parking}

/-! ## A push that waits for room hears of a close -/

/-- Who waits for room is a blocking push, and on a closed queue a `notify_all` is owed. -/
structure Heard (p : Parking) : Prop where
  waiting : ∀ k ∈ p.parked, ∃ c, p.calls.get? k = some c ∧ c.blocking = true
  numbered : ∀ k c, p.calls.get? k = some c → k < p.log.length
  roused : p.inner.closed = true → p.parked ≠ ∅ → 0 < p.alls

theorem heard_opened {b : Builder} {s : Session} (h : FreshLedger b s.toLedger) :
    (opened s).Heard := by
  refine ⟨fun k hk => ?_, fun k c hc => ?_, fun _ hne => absurd rfl hne⟩
  · cases hk
  · rw [show (opened s).calls = s.calls from rfl, h.opened] at hc
    cases hc

/-- A step that has nothing to do with pushes before their claim. -/
theorem Heard.frame (h : p.Heard) (hcalls : p'.calls = p.calls)
    (hclosed : p'.inner.closed = p.inner.closed) (hlog : p.log.length ≤ p'.log.length)
    (hparked : p'.parked = p.parked) (halls : p'.alls = p.alls) : p'.Heard := by
  constructor <;> simp only [hcalls, hclosed, hparked, halls]
  · exact h.waiting
  · exact fun k c hc => (h.numbered k c hc).trans_le hlog
  · exact h.roused

/-- A push that is not waiting goes. -/
theorem Heard.gone (h : p.Heard) {k : ℕ} (hk : k ∉ p.parked)
    (hcalls : p'.calls = p.calls.erase k) (hclosed : p'.inner.closed = p.inner.closed)
    (hlog : p.log.length ≤ p'.log.length) (hparked : p'.parked = p.parked)
    (halls : p'.alls = p.alls) : p'.Heard := by
  constructor <;> simp only [hcalls, hclosed, hparked, halls]
  · intro k' hk'
    obtain ⟨c, hc, hblocking⟩ := h.waiting k' hk'
    have hne : k' ≠ k := fun heq => hk (heq ▸ hk')
    exact ⟨c, (SortedMap.get?_erase_ne _ hne).trans hc, hblocking⟩
  · exact fun k' c hc => (h.numbered k' c (SortedMap.of_get?_erase hc).2).trans_le hlog
  · exact h.roused

theorem Heard.turn {a : Turn} {l : Ledger} (h : p.Heard)
    (hm : Ledger.Moved p.toLedger (.turn a) l)
    (hasleep : ∀ k ∈ (Act.turn a).attempts, k ∉ p.parked) :
    (p.after (.turn a) { p.toSession with toLedger := l }).Heard := by
  have hlog := Ledger.length_mono hm
  cases hm with
  | call value blocking =>
    refine ⟨fun k hk => ?_, fun k c hc => ?_, h.roused⟩
    · obtain ⟨c, hc, hblocking⟩ := h.waiting k hk
      have hne : k ≠ p.log.length := (h.numbered k c hc).ne
      exact ⟨c, (SortedMap.get?_insert_ne _ _ hne).trans hc, hblocking⟩
    · rcases SortedMap.of_get?_insert hc with ⟨rfl, -⟩ | ⟨-, hc⟩
      · exact Nat.lt_succ_self _
      · exact (h.numbered k c hc).trans_le hlog
  | turnedAway k hc haway =>
    refine h.gone (hasleep k rfl) rfl rfl hlog ?_ rfl
    simp only [after, parkedAfter, Act.attempts, SortedMap.get?_erase_self, Option.isSome_none,
      Bool.false_eq_true, if_false]
  | waits k hc hopen hfull hblocking =>
    have hparked : p.parkedAfter (.turn (.attempt k)) p.toSession = insert k p.parked := by
      simp only [parkedAfter, Act.attempts, hc, Option.isSome_some, if_true]
    simp only [after, hparked]
    refine ⟨fun k' hk' => ?_, h.numbered, fun hclosed => ?_⟩
    · rcases Finset.mem_insert.mp hk' with rfl | hk'
      · exact ⟨_, hc, hblocking⟩
      · exact h.waiting k' hk'
    · rw [hopen] at hclosed
      cases hclosed
  | claim hc hroom hopen =>
    refine h.gone (hasleep _ rfl) rfl rfl hlog ?_ rfl
    simp only [after, parkedAfter, Act.attempts, Ledger.claim, SortedMap.get?_erase_self,
      Option.isSome_none, Bool.false_eq_true, if_false]
  | close => exact ⟨h.waiting, h.numbered, fun _ _ => Nat.succ_pos _⟩
  | record => exact h.frame rfl Inner.recordAck_closed hlog rfl rfl
  | giveBack | reserve | ended | found | skipped | handedOut | remove | release =>
    exact h.frame rfl rfl hlog rfl rfl

/-- Fewer pushes wait. -/
theorem Heard.woken (h : p.Heard) {parked : Finset ℕ} (hsub : parked ⊆ p.parked) (n : ℕ) :
    { p with ones := n, parked }.Heard where
  waiting := fun k hk => h.waiting k (hsub hk)
  numbered := h.numbered
  roused := fun hclosed hne =>
    h.roused hclosed fun hempty => hne (Finset.subset_empty.mp (hempty ▸ hsub))

theorem Heard.acted {a : Act} {s : Session} (h : p.Heard) (hcoupled : Coupled p.toSession)
    (hok : anyRun.act p.toSession a) (hs : p.toSession.step a = some s)
    (hawake : ∀ k ∈ a.attempts, k ∉ p.parked) : (p.after a s).Heard := by
  by_cases hturn : ∃ b, a = .turn b
  · obtain ⟨b, rfl⟩ := hturn
    obtain ⟨l, hl, rfl⟩ := Option.map_eq_some_iff.mp hs
    exact h.turn (Ledger.moved_of_step hl) hawake
  · have hnot : ∀ b, a ≠ .turn b := fun b heq => hturn ⟨b, heq⟩
    have hc := (hcoupled.committed hok hnot hs).1
    have hafter : p.parkedAfter a s = p.parked ∧ (if a.closes then 1 else 0) = 0 := by
      cases a with
      | turn b => exact absurd rfl (hnot b)
      | commit | enter | flush | record | wake | retry => exact ⟨rfl, rfl⟩
    exact h.frame hc.calls (congrArg _ hc.inner) hc.log_le hafter.1
      (congrArg (p.alls + ·) hafter.2)

end Parking

namespace Threads

variable {t t' : Threads} {s : Session} {a : Act}

/-! ## Nobody is forgotten -/

/-- What holds of the threads of a queue. A caller of the group commit sleeps only while
there is no outcome for it, and a write that was in a commit that did not end it is in the
group commit. -/
structure Kept (t : Threads) : Prop where
  coupled : Coupled t.toSession
  grouped : ∀ seq w, t.writes.get? seq = some w → w.stage = .tried ∨ w.stage = .landed →
    ∃ c, t.group.calls.get? seq = some c
  loaded : ∀ seq c, t.group.calls.get? seq = some c → c.pc.isLeader = true → c.pc.batch ≠ []
  heeded : ∀ seq ∈ t.asleep, ∃ c, t.group.calls.get? seq = some c ∧ c.pc = .waiting ∧
    t.group.state.done.get? seq = none
  heard : t.toParking.Heard

theorem kept_opened {b : Builder} {st : Store} (h : Opens b st s) : (opened s).Kept := by
  obtain ⟨hfresh, hgroup⟩ := h.fresh
  have hwrites : s.writes = SortedMap.empty := by rw [hfresh.opened]; rfl
  refine ⟨h.coupled, fun seq w hw => ?_, fun seq c hc => ?_, fun seq hseq => ?_,
    Parking.heard_opened hfresh⟩
  · rw [show (opened s).writes = s.writes from rfl, hwrites] at hw
    cases hw
  · rw [show (opened s).group = s.group from rfl, hgroup] at hc
    cases hc
  · cases hseq

/-- A section of the call under `seq` keeps the others out of trouble, and its own call. -/
theorem Kept.settle {seq : ℕ} {w : Write} {c : GroupCall} {res : Group × GroupRet} (h : t.Kept)
    (hw : t.writes.get? seq = some w) (hsec : Group.Section t.group.calls seq c res)
    (hleft : ∀ c', res.1.calls.get? seq = some c' → c'.pc.isLeader = true → c'.pc.batch ≠ []) :
    (∀ seq' w', (t.toSession.settle seq w res).writes.get? seq' = some w' →
      w'.stage = .tried ∨ w'.stage = .landed →
        ∃ c, (t.toSession.settle seq w res).group.calls.get? seq' = some c) ∧
    ∀ seq' c, (t.toSession.settle seq w res).group.calls.get? seq' = some c →
      c.pc.isLeader = true → c.pc.batch ≠ [] := by
  rw [Session.settle_group, Session.settle_ledger]
  refine ⟨fun seq' w' hw' hstage => ?_, fun seq' c' hc' => ?_⟩
  · by_cases hret : res.2 = .took (some true)
    · rw [if_pos hret] at hw'
      obtain ⟨hne, hw'⟩ := SortedMap.of_get?_erase hw'
      rw [hsec.frame seq' hne]
      exact h.grouped seq' w' hw' hstage
    · rw [if_neg hret] at hw'
      by_cases hne : seq' = seq
      · subst hne
        obtain ⟨pc, hself⟩ := hsec.stays hret
        exact ⟨_, hself⟩
      · rw [hsec.frame seq' hne]
        exact h.grouped seq' w' hw' hstage
  · by_cases hne : seq' = seq
    · subst hne
      exact hleft c' hc'
    · rw [hsec.frame seq' hne] at hc'
      exact h.loaded seq' c' hc'

/-- An act leaves no write in the middle of a commit of its own, and no leader without a
batch. -/
theorem Kept.acted (h : t.Kept) (hacted : t.toSession.Acted a s) :
    (∀ seq w, s.writes.get? seq = some w → w.stage = .tried ∨ w.stage = .landed →
      ∃ c, s.group.calls.get? seq = some c) ∧
    ∀ seq c, s.group.calls.get? seq = some c → c.pc.isLeader = true → c.pc.batch ≠ [] := by
  -- a write that was committed on its own is neither tried nor landed
  have hwrite : ∀ {seq w durable o} {g : Group}, (∀ seq', seq' ≠ seq →
      g.calls.get? seq' = t.group.calls.get? seq') → ∀ seq' w',
      (t.toLedger.write seq w durable o).writes.get? seq' = some w' →
      w'.stage = .tried ∨ w'.stage = .landed → ∃ c, g.calls.get? seq' = some c := by
    intro seq w durable o g hg seq' w' hw' hstage
    rw [Ledger.get?_write_writes] at hw'
    split at hw'
    · split at hw'
      · cases hw'
      · obtain rfl := Option.some.inj hw'
        rcases hstage with h | h <;> cases h
    · next hne =>
      rw [hg seq' hne]
      exact h.grouped seq' w' hw' hstage
  cases hacted with
  | turn hm =>
    refine ⟨fun seq w hw hstage => ?_, h.loaded⟩
    rcases Ledger.stage_turn hm hw with hold | hfresh
    · exact h.grouped seq w hold hstage
    · rcases hstage with h | h <;> rw [hfresh] at h <;> cases h
  | commit hw hgroup hstage o => exact ⟨hwrite fun _ _ => rfl, h.loaded⟩
  | enter hw hnone hstage =>
    exact h.settle hw (Group.section_enter _ _ _) fun c' hc' => (Group.enter_left hc').loaded
  | @flush seq c batch hc hpc o =>
    have hplaces := (h.coupled.inv.led (r := none) hc hpc).places
    have hmem : ∀ seq' v, (seq', v) ∈ batch → ∃ w, t.writes.get? seq' = some w ∧ w.value = v := by
      intro seq' v hmem
      obtain ⟨c', hc', hv, -⟩ := hplaces.batch_call seq' v hmem
      obtain ⟨w, hw, hvalue, -⟩ := h.coupled.call_write seq' c' hc'
      exact ⟨w, hw, hvalue.trans hv⟩
    refine ⟨fun seq' w' hw' hstage => ?_, fun seq' c' hc' hlead => ?_⟩
    · simp only [Ledger.flush_eq_putAll hmem, Ledger.get?_putAll_writes] at hw'
      obtain ⟨w, hw, rfl⟩ := Option.map_eq_some_iff.mp hw'
      simp only [Group.get?_flush]
      by_cases hin : seq' ∈ batch.map Prod.fst
      · obtain ⟨c', hc', -⟩ := hplaces.batch_member hin
        exact ⟨_, congrArg _ hc'⟩
      · rw [if_neg hin] at hstage
        obtain ⟨c', hc'⟩ := h.grouped seq' w hw hstage
        exact ⟨_, congrArg _ hc'⟩
    · rw [Group.get?_flush] at hc'
      obtain ⟨c₀, hc₀, rfl⟩ := Option.map_eq_some_iff.mp hc'
      simp only at hlead ⊢
      split
      · next heq =>
        subst heq
        obtain rfl := Option.some.inj (hc.symm.trans hc₀)
        have hbatch := h.loaded _ c hc (by rw [hpc]; rfl)
        rw [hpc] at hbatch
        exact hbatch
      · next hne =>
        rw [if_neg hne] at hlead
        exact h.loaded seq' c₀ hc₀ hlead
  | @record seq w c batch ok hw hc hpc =>
    refine h.settle hw (Group.section_record _ _ _ _ _) fun c' hc' => ?_
    have hleft : (t.group.record seq c batch ok).1.Left seq c' :=
      (Group.record_left hc').imp id fun hlead => Or.inl hlead.1
    exact hleft.loaded
  | @wake seq w c hw hc hpc =>
    refine h.settle hw (Group.section_wake hc) fun c' hc' hlead => ?_
    rw [Group.wake_eq] at hc'
    split at hc'
    · rw [Group.finish_retries hc'] at hlead
      cases hlead
    · obtain rfl := Option.some.inj (hc.symm.trans hc')
      rw [hpc] at hlead
      cases hlead
  | retry hw hc hpc o =>
    refine ⟨hwrite fun _ hne => SortedMap.get?_erase_ne _ hne, fun seq' c' hc' => ?_⟩
    exact h.loaded seq' c' (Group.get?_of_retried hc').2

/-- Who waits on `group_ready` has no outcome to take. -/
theorem Kept.heeded_acted (h : t.Kept) (hacted : t.toSession.Acted a s)
    (hlooks : ∀ seq ∈ (ParkAct.act a).looks, seq ∉ t.asleep) :
    ∀ seq ∈ t.asleepAfter s a, ∃ c, s.group.calls.get? seq = some c ∧ c.pc = .waiting ∧
      s.group.state.done.get? seq = none := by
  -- a section of one call leaves the others
  have hframe : ∀ {seq c res}, Group.Section t.group.calls seq c res →
      (∀ seq', seq' ≠ seq → res.1.state.done.get? seq' = t.group.state.done.get? seq') →
      seq ∉ t.asleep → ∀ seq' ∈ t.asleep, ∃ c, res.1.calls.get? seq' = some c ∧ c.pc = .waiting ∧
        res.1.state.done.get? seq' = none := by
    intro seq c res hsec hdone hnot seq' hseq'
    have hne : seq' ≠ seq := fun heq => hnot (heq ▸ hseq')
    obtain ⟨c', hc', hpc, hnone⟩ := h.heeded seq' hseq'
    exact ⟨c', (hsec.frame seq' hne).trans hc', hpc, (hdone seq' hne).trans hnone⟩
  cases hacted with
  | turn | commit => exact h.heeded
  | @enter seq w hw hnone hstage =>
    have hnot : seq ∉ t.asleep := by
      intro hseq
      obtain ⟨c, hc, -⟩ := h.heeded seq hseq
      rw [hnone] at hc
      cases hc
    have hold := hframe (Group.section_enter t.group seq w.value) (fun _ => Group.enter_done) hnot
    intro seq' hseq'
    simp only [asleepAfter, Session.settle_group] at hseq' ⊢
    split at hseq'
    · next hself =>
      rcases Finset.mem_insert.mp hseq' with rfl | hseq'
      · rcases Group.enter_left hself with hpc | ⟨batch, -, hpc⟩ | ⟨hpc, hdone⟩
        · cases hpc
        · cases hpc
        · exact ⟨_, hself, hpc, hdone⟩
      · exact hold seq' hseq'
    · exact hold seq' hseq'
  | @flush seq c batch hc hpc o =>
    intro seq' hseq'
    obtain ⟨c', hc', hpc', hnone⟩ := h.heeded seq' hseq'
    have hne : seq' ≠ seq := by
      rintro rfl
      obtain rfl := Option.some.inj (hc.symm.trans hc')
      rw [hpc] at hpc'
      cases hpc'
    refine ⟨_, (Group.get?_flush seq').trans (congrArg _ hc'), ?_, hnone⟩
    simp only [if_neg hne, hpc']
  | record =>
    intro seq' hseq'
    cases hseq'
  | @wake seq w c hw hc hpc =>
    have hnot : seq ∉ t.asleep := hlooks seq rfl
    have hdone : ∀ seq', seq' ≠ seq →
        (t.group.wake seq c).1.state.done.get? seq' = t.group.state.done.get? seq' := by
      intro seq' hne
      rw [Group.wake_eq]
      split
      · exact Group.finish_done hne
      · rfl
    have hold := hframe (Group.section_wake hc) hdone hnot
    intro seq' hseq'
    simp only [asleepAfter, Session.settle_group] at hseq' ⊢
    split at hseq'
    · next hself =>
      rcases Finset.mem_insert.mp hseq' with rfl | hseq'
      · refine ⟨_, hself, rfl, ?_⟩
        rw [Group.wake_eq] at hself ⊢
        split at hself
        · cases Group.finish_retries hself
        · next hnone =>
          rw [if_neg hnone]
          exact Option.not_isSome_iff_eq_none.mp hnone
      · exact hold seq' hseq'
    · exact hold seq' hseq'
  | @retry seq w c hw hc hpc o =>
    intro seq' hseq'
    obtain ⟨c', hc', hpc', hnone⟩ := h.heeded seq' hseq'
    refine ⟨c', (SortedMap.get?_erase_ne _ ?_).trans hc', hpc', hnone⟩
    rintro rfl
    obtain rfl := Option.some.inj (hc.symm.trans hc')
    rw [hpc] at hpc'
    cases hpc'

/-- Every step keeps it. -/
theorem Kept.stepped {a : ThreadAct} (h : t.Kept) (hok : t.AnyOrder a) (hstep : t.Stepped a t') :
    t'.Kept := by
  cases hstep with
  | act hs hawake hlooks =>
    have hacted := Session.acted_of_step hs
    obtain ⟨hgrouped, hloaded⟩ := h.acted hacted
    exact ⟨(h.coupled.step hok hs).1, hgrouped, hloaded, h.heeded_acted hacted hlooks,
      h.heard.acted h.coupled hok hs hawake⟩
  | notifyNobody k n hones hnobody =>
    exact { h with heard := h.heard.woken (Finset.Subset.refl _) n }
  | notifyOne n hones hk =>
    exact { h with heard := h.heard.woken (Finset.erase_subset _ _) n }
  | notifyAll n halls =>
    exact { h with
      heard := ⟨fun k hk => (by cases hk), h.heard.numbered, fun _ hne => absurd rfl hne⟩ }
  | rouse hk => exact { h with heard := h.heard.woken (Finset.erase_subset _ _) t.ones }
  | stir hseq =>
    exact { h with heeded := fun seq' hseq' => h.heeded seq' (Finset.mem_of_mem_erase hseq') }

/-! ## Every act that carries on a call leaves less to do -/

theorem writeRank_of_call {g : Group} {seq : ℕ} {c : GroupCall} (hc : g.calls.get? seq = some c)
    (w : Write) : writeRank g seq w =
      if c.pc = .retry then 2 else if (g.state.done.get? seq).isSome then 3 else 4 := by
  simp only [writeRank, hc]

theorem writeRank_of_none {g : Group} {seq : ℕ} (hnone : g.calls.get? seq = none) (w : Write) :
    writeRank g seq w = if w.stage = .failed then 1 else 5 := by
  simp only [writeRank, hnone]

theorem writeRank_pos (g : Group) (seq : ℕ) (w : Write) : 0 < writeRank g seq w := by
  rw [writeRank]
  split <;> split <;> try split
  all_goals omega

/-- The rank only sees the caller's own record. -/
theorem writeRank_congr {g g' : Group} {seq : ℕ} (hcalls : g'.calls.get? seq = g.calls.get? seq)
    (hdone : g'.state.done.get? seq = g.state.done.get? seq) (w : Write) :
    writeRank g' seq w = writeRank g seq w := by
  simp only [writeRank, hcalls, hdone]

/-- A turn of a scan that leaves everything else. -/
theorem scanWork_lt {a : Turn} {l : Ledger} (hattempts : (Act.turn a).attempts = none)
    (hcalls : l.calls = t.calls) (htail : l.inner.tail = t.inner.tail)
    (hlt : (l.reserves.sum fun _ c => scanRank t.inner.tail c.pc) <
      t.reserves.sum fun _ c => scanRank t.inner.tail c.pc) :
    ({ toParking := t.toParking.after (.turn a) { t.toSession with toLedger := l }
       asleep := t.asleep } : Threads).scanWork < t.scanWork := by
  have hparked : t.toParking.parkedAfter (.turn a) { t.toSession with toLedger := l } =
      t.parked := by
    simp only [Parking.parkedAfter, hattempts]
  simp only [scanWork, Parking.after, hparked, hcalls, htail]
  omega

/-- The turn of a call in progress. -/
theorem Kept.turn_work {a : Turn} {l : Ledger} (h : t.Kept)
    (hm : Ledger.Moved t.toLedger (.turn a) l) (hcarry : a.CarriesOn t.toLedger)
    (hawake : ∀ k ∈ (Act.turn a).attempts, k ∉ t.parked) :
    ({ toParking := t.toParking.after (.turn a) { t.toSession with toLedger := l }
       asleep := t.asleep } : Threads).work < t.work := by
  refine work_lt ?_
  cases hm with
  | call | close | reserve | remove => exact hcarry.elim
  | turnedAway k hc haway =>
    left
    have hsize := SortedMap.size_erase_add hc
    simp only [callWork, Parking.after]
    omega
  | waits k hc hopen hfull hblocking =>
    right
    refine ⟨le_refl _, Or.inr ⟨le_refl _, ?_⟩⟩
    have hparked : t.toParking.parkedAfter (.turn (.attempt k)) t.toSession =
        insert k t.parked := by
      simp only [Parking.parkedAfter, Act.attempts, hc, Option.isSome_some, if_true]
    have hlt : (t.calls.sum fun k' _ => if k' ∈ insert k t.parked then 0 else 1) <
        t.calls.sum fun k' _ => if k' ∈ t.parked then 0 else 1 := by
      refine SortedMap.sum_lt_sum (fun k' c hc => ⟨c, hc, ?_⟩) hc ?_
      · split
        · exact Nat.zero_le _
        · next hnot => rw [if_neg fun hk' => hnot (Finset.mem_insert_of_mem hk')]
      · rw [hc, Option.elim_some, if_pos (Finset.mem_insert_self k _), if_neg (hawake k rfl)]
        exact Nat.one_pos
    simp only [scanWork, Parking.after, hparked]
    omega
  | @claim k c hc hroom hopen =>
    left
    have hsize := SortedMap.size_erase_add hc
    have hnone := h.coupled.wf.tail_free
    have hrank : writeRank t.group t.inner.tail { call := k, value := c.value, stage := .fresh } ≤
        5 := by
      rw [writeRank]
      split <;> split <;> try split
      all_goals omega
    have hsum := SortedMap.sum_insert_of_none (writeRank t.group)
      { call := k, value := c.value, stage := .fresh } hnone
    simp only [callWork, Parking.after, Ledger.claim]
    omega
  | @giveBack seq w hw hstage =>
    left
    have hsum := SortedMap.sum_erase_add (writeRank t.group) hw
    have hrank := writeRank_pos t.group seq w
    simp only [callWork, Parking.after]
    omega
  | @ended r ok cursor behind hr hend =>
    refine Or.inr ⟨le_refl _, Or.inr ⟨le_refl _, scanWork_lt rfl rfl rfl ?_⟩⟩
    have hsum := SortedMap.sum_erase_add (fun _ c => scanRank t.inner.tail c.pc) hr
    simp only [scanRank_seeking] at hsum ⊢
    omega
  | @found r cursor behind key value hr hseek hkey =>
    refine Or.inr ⟨le_refl _, Or.inr ⟨le_refl _, scanWork_lt rfl rfl rfl ?_⟩⟩
    have hle := (SortedMap.seek_eq_some.mp (h.coupled.wf.seek_items hr hseek hkey)).2.1
    have hsum := SortedMap.sum_insert_of_some (fun _ c => scanRank t.inner.tail c.pc)
      { pc := .checking (seqOf key) value, behind } hr
    simp only [scanRank_seeking, scanRank_checking] at hsum ⊢
    omega
  | @skipped r g seq value behind hr hmem =>
    refine Or.inr ⟨le_refl _, Or.inr ⟨le_refl _, scanWork_lt rfl rfl rfl ?_⟩⟩
    have hlt := h.coupled.wf.checking_lt r seq value behind hr
    have hsum := SortedMap.sum_insert_of_some (fun _ c => scanRank t.inner.tail c.pc)
      { pc := .seeking (u64Succ seq), behind } hr
    rw [scanRank_seeking, scanRank_checking] at hsum
    rw [u64Succ_of_lt (h.coupled.wf.lt_u64Max hlt)] at hsum ⊢
    dsimp only
    omega
  | @handedOut r g seq value behind hr hmem hg =>
    refine Or.inr ⟨?_, Or.inr ⟨le_refl _, scanWork_lt rfl rfl rfl ?_⟩⟩
    · have hguards := SortedMap.sum_insert_of_none (fun _ gd => guardRank gd)
        { seq, value, pc := .held } hg
      have hheld : guardRank { seq, value, pc := .held } = 0 := rfl
      simp only [callWork, Parking.after]
      omega
    · have hlt := h.coupled.wf.checking_lt r seq value behind hr
      have hsum := SortedMap.sum_erase_add (fun _ c => scanRank t.inner.tail c.pc) hr
      simp only [scanRank_checking] at hsum ⊢
      omega
  | @record g gd hg hpc =>
    left
    have hsum := SortedMap.sum_erase_add (fun _ gd => guardRank gd) hg
    simp only [guardRank, hpc, reduceCtorEq, if_false] at hsum
    simp only [callWork, Parking.after, guardRank]
    omega
  | @release g gd hg hpc =>
    left
    obtain ⟨gd', hg', hfailed⟩ := hcarry
    obtain rfl := Option.some.inj (hg.symm.trans hg')
    have hsum := SortedMap.sum_erase_add (fun _ gd => guardRank gd) hg
    simp only [guardRank, hfailed, reduceCtorEq, if_false] at hsum
    simp only [callWork, Parking.after, guardRank]
    omega

/-- An act that brings the writes nearer to their ends. -/
theorem work_of_writes {asleep : Finset ℕ} (hcalls : s.calls = t.calls)
    (hguards : s.guards = t.guards)
    (hlt : s.writes.sum (writeRank s.group) < t.writes.sum (writeRank t.group)) :
    ({ toParking := t.toParking.after a s, asleep } : Threads).work < t.work := by
  refine work_lt (Or.inl ?_)
  simp only [callWork, Parking.after, hcalls, hguards]
  omega

/-- A section of the group commit: some write comes nearer to its end, or the caller's own
returns, and none goes back. -/
theorem settle_work {seq : ℕ} {w : Write} {res : Group × GroupRet} {asleep : Finset ℕ}
    (hw : t.writes.get? seq = some w)
    (hothers : ∀ seq' w', seq' ≠ seq → t.writes.get? seq' = some w' →
      writeRank res.1 seq' w' ≤ writeRank t.group seq' w')
    (hown : res.2 ≠ .took (some true) → writeRank res.1 seq w ≤ writeRank t.group seq w)
    (hless : (res.2 ≠ .took (some true) → writeRank res.1 seq w < writeRank t.group seq w) ∨
      ∃ seq' w', seq' ≠ seq ∧ t.writes.get? seq' = some w' ∧
        writeRank res.1 seq' w' < writeRank t.group seq' w') :
    ({ toParking := t.toParking.after a (t.toSession.settle seq w res), asleep } : Threads).work <
      t.work := by
  have hframe : ∀ {seq'}, seq' ≠ seq →
      (t.toSession.settle seq w res).writes.get? seq' = t.writes.get? seq' := by
    intro seq' hne
    rw [Session.settle_ledger]
    split
    · exact SortedMap.get?_erase_ne _ hne
    · rfl
  have hself : (t.toSession.settle seq w res).writes.get? seq =
      if res.2 = .took (some true) then none else some w := by
    rw [Session.settle_ledger]
    split
    · exact SortedMap.get?_erase_self _ _
    · exact hw
  have hle : ∀ seq' w', (t.toSession.settle seq w res).writes.get? seq' = some w' →
      ∃ w'', t.writes.get? seq' = some w'' ∧
        writeRank res.1 seq' w' ≤ writeRank t.group seq' w'' := by
    intro seq' w' hw'
    by_cases hne : seq' = seq
    · subst hne
      rw [hself] at hw'
      split at hw'
      · cases hw'
      · next hret =>
        obtain rfl := Option.some.inj hw'
        exact ⟨w, hw, hown hret⟩
    · rw [hframe hne] at hw'
      exact ⟨w', hw', hothers seq' w' hne hw'⟩
  refine work_of_writes ?_ ?_ ?_
  · rw [Session.settle_ledger]
    split <;> rfl
  · rw [Session.settle_ledger]
    split <;> rfl
  · rw [Session.settle_group]
    rcases hless with hlt | ⟨seq', w', hne, hw', hlt⟩
    · refine SortedMap.sum_lt_sum hle hw ?_
      rw [hself]
      split
      · exact writeRank_pos _ _ _
      · next hret => exact hlt hret
    · refine SortedMap.sum_lt_sum hle hw' ?_
      rw [hframe hne, hw']
      exact hlt

/-- A write that commits on its own. -/
theorem write_work {seq : ℕ} {w : Write} {durable : Bool} {o : Outcome} {g : Group}
    {asleep : Finset ℕ} (hw : t.writes.get? seq = some w) (hrank : 2 ≤ writeRank t.group seq w)
    (hnone : g.calls.get? seq = none)
    (hcalls : ∀ seq', seq' ≠ seq → g.calls.get? seq' = t.group.calls.get? seq')
    (hstate : g.state = t.group.state) :
    ({ toParking := t.toParking.after a
        { toLedger := t.toLedger.write seq w durable o, group := g }, asleep } : Threads).work <
      t.work := by
  refine work_of_writes ?_ ?_ (SortedMap.sum_lt_sum (fun seq' w' hw' => ?_) hw ?_)
  · simp only [Ledger.write]
    split <;> rfl
  · simp only [Ledger.write]
    split <;> rfl
  · rw [Ledger.get?_write_writes] at hw'
    split at hw'
    · next heq =>
      subst heq
      split at hw'
      · cases hw'
      · obtain rfl := Option.some.inj hw'
        refine ⟨w, hw, ?_⟩
        rw [writeRank_of_none hnone, if_pos rfl]
        omega
    · next hne =>
      refine ⟨w', hw', (writeRank_congr (hcalls seq' hne) ?_ w').le⟩
      rw [hstate]
  · rw [Ledger.get?_write_writes, if_pos rfl]
    split
    · exact writeRank_pos _ _ _
    · rw [Option.elim_some, writeRank_of_none hnone, if_pos rfl]
      omega

/-- The commit of a batch: no write comes nearer to its end yet, but the leader is nearer to
recording it. -/
theorem Kept.flush_work {seq : ℕ} {c : GroupCall} {batch : List (ℕ × Bytes)} {o : Outcome}
    (h : t.Kept) (hc : t.group.calls.get? seq = some c) (hpc : c.pc = .flushing batch)
    (hcommitted : Ledger.Committed t.toLedger (t.toLedger.flush batch o)) :
    ({ toParking := t.toParking.after (.flush seq o)
        { toLedger := t.toLedger.flush batch o, group := t.group.flush seq batch o.isOk }
       asleep := t.asleep } : Threads).work < t.work := by
  have hplaces := (h.coupled.inv.led (r := none) hc hpc).places
  have hmem : ∀ seq' v, (seq', v) ∈ batch → ∃ w, t.writes.get? seq' = some w ∧ w.value = v := by
    intro seq' v hmem
    obtain ⟨c', hc', hv, -⟩ := hplaces.batch_call seq' v hmem
    obtain ⟨w, hw, hvalue, -⟩ := h.coupled.call_write seq' c' hc'
    exact ⟨w, hw, hvalue.trans hv⟩
  have hwrites : (t.toLedger.flush batch o).writes.sum
      (writeRank (t.group.flush seq batch o.isOk)) ≤ t.writes.sum (writeRank t.group) := by
    refine SortedMap.sum_le_sum fun seq' w' hw' => ?_
    rw [Ledger.flush_eq_putAll hmem, Ledger.get?_putAll_writes] at hw'
    obtain ⟨w, hw, rfl⟩ := Option.map_eq_some_iff.mp hw'
    have hflush : (t.group.flush seq batch o.isOk).calls.get? seq' = _ := Group.get?_flush seq'
    refine ⟨w, hw, ?_⟩
    rcases hcall : t.group.calls.get? seq' with _ | c'
    · -- a write that is not in the group is not in the batch either
      have hnot : seq' ∉ batch.map Prod.fst := by
        intro hin
        obtain ⟨c', hc', -⟩ := hplaces.batch_member hin
        rw [hcall] at hc'
        cases hc'
      rw [hcall, Option.map_none] at hflush
      rw [if_neg hnot, writeRank_congr (hflush.trans hcall.symm) rfl]
    · rw [hcall, Option.map_some] at hflush
      rw [writeRank_of_call hflush, writeRank_of_call hcall, Group.flush_state]
      by_cases heq : seq' = seq
      · subst heq
        obtain rfl := Option.some.inj (hc.symm.trans hcall)
        simp only [if_pos, hpc, reduceCtorEq, if_false, le_refl]
      · simp only [if_neg heq, le_refl]
  have hleads : ((t.group.flush seq batch o.isOk).calls.sum fun _ c => leaderRank c.pc) <
      t.group.calls.sum fun _ c => leaderRank c.pc := by
    refine SortedMap.sum_lt_sum (fun seq' c' hc' => ?_) hc ?_
    · rw [Group.get?_flush] at hc'
      obtain ⟨c₀, hc₀, rfl⟩ := Option.map_eq_some_iff.mp hc'
      refine ⟨c₀, hc₀, ?_⟩
      simp only
      split
      · next heq =>
        subst heq
        obtain rfl := Option.some.inj (hc.symm.trans hc₀)
        rw [hpc]
        exact one_le_two
      · exact le_refl _
    · rw [Group.get?_flush, hc, Option.map_some, Option.elim_some, hpc]
      simp only [if_pos]
      exact Nat.one_lt_two
  refine work_lt (Or.inr ⟨?_, Or.inl ?_⟩)
  · simp only [callWork, Parking.after, hcommitted.calls, hcommitted.guards]
    omega
  · simp only [wakeWork, Parking.after, Act.frees, Act.closes, Bool.false_eq_true, if_false]
    omega

/-- The leader records its batch. -/
theorem Kept.record_work {seq : ℕ} {w : Write} {c : GroupCall} {batch : List (ℕ × Bytes)}
    {ok : Bool} {asleep : Finset ℕ} (h : t.Kept) (hw : t.writes.get? seq = some w)
    (hc : t.group.calls.get? seq = some c) (hpc : c.pc = .flushed batch ok) :
    ({ toParking := t.toParking.after a
        (t.toSession.settle seq w (t.group.record seq c batch ok)), asleep } : Threads).work <
      t.work := by
  have hplaces := (h.coupled.inv.led (r := some ok) hc hpc).places
  have hsec := Group.section_record t.group seq c batch ok
  -- a member's outcome is there now, and was not before
  have hother : ∀ seq' w', seq' ≠ seq → t.writes.get? seq' = some w' →
      writeRank (t.group.record seq c batch ok).1 seq' w' ≤ writeRank t.group seq' w' ∧
      (seq' ∈ batch.map Prod.fst →
        writeRank (t.group.record seq c batch ok).1 seq' w' < writeRank t.group seq' w') := by
    intro seq' w' hne hw'
    have hdone : (t.group.record seq c batch ok).1.state.done.get? seq' = _ :=
      Group.record_done hne
    by_cases hin : seq' ∈ batch.map Prod.fst
    · obtain ⟨c', hc', hpc', -⟩ := hplaces.batch_member hin
      rw [if_pos hin] at hdone
      have hlt : writeRank (t.group.record seq c batch ok).1 seq' w' <
          writeRank t.group seq' w' := by
        rw [writeRank_of_call ((hsec.frame seq' hne).trans hc'), writeRank_of_call hc', hdone,
          hplaces.batch_done seq' hin, if_neg hpc', if_neg hpc']
        exact Nat.lt_succ_self 3
      exact ⟨hlt.le, fun _ => hlt⟩
    · rw [if_neg hin] at hdone
      exact ⟨(writeRank_congr (hsec.frame seq' hne) hdone w').le, fun hin' => absurd hin' hin⟩
  -- the leader retries, or goes on to lead with its outcome where it was or recorded
  have hself : (t.group.record seq c batch ok).2 ≠ .took (some true) →
      writeRank (t.group.record seq c batch ok).1 seq w ≤ writeRank t.group seq w ∧
      (seq ∈ batch.map Prod.fst →
        writeRank (t.group.record seq c batch ok).1 seq w < writeRank t.group seq w) := by
    intro hret
    obtain ⟨pc, hc'⟩ := hsec.stays hret
    have hbefore : writeRank t.group seq w =
        if (t.group.state.done.get? seq).isSome then 3 else 4 := by
      rw [writeRank_of_call hc, if_neg (by rw [hpc]; exact fun heq => by cases heq)]
    rw [hbefore, writeRank_of_call hc']
    rcases Group.record_left hc' with hretry | ⟨⟨batch', -, hlead⟩, hdone⟩
    · rw [if_pos hretry]
      split <;> exact ⟨by omega, fun _ => by omega⟩
    · rw [if_neg (by rw [hlead]; exact fun heq => by cases heq), hdone]
      by_cases hin : seq ∈ batch.map Prod.fst
      · rw [if_pos hin, hplaces.batch_done seq hin]
        exact ⟨Nat.le_succ 3, fun _ => Nat.lt_succ_self 3⟩
      · rw [if_neg hin]
        exact ⟨le_refl _, fun hin' => absurd hin' hin⟩
  have hne : batch ≠ [] := by
    have hloaded := h.loaded seq c hc (by rw [hpc]; rfl)
    rw [hpc] at hloaded
    exact hloaded
  obtain ⟨⟨member, v⟩, hmember⟩ := List.exists_mem_of_ne_nil batch hne
  have hin : member ∈ batch.map Prod.fst := List.mem_map_of_mem hmember
  refine settle_work hw (fun seq' w' hne hw' => (hother seq' w' hne hw').1)
    (fun hret => (hself hret).1) ?_
  by_cases heq : member = seq
  · subst heq
    exact Or.inl fun hret => (hself hret).2 hin
  · obtain ⟨c', hc', -⟩ := hplaces.batch_member hin
    obtain ⟨w', hw', -⟩ := h.coupled.call_write member c' hc'
    exact Or.inr ⟨member, w', heq, hw', (hother member w' heq hw').2 hin⟩

/-- A caller that looks for its outcome takes it, or goes to sleep. -/
theorem wake_work {seq : ℕ} {w : Write} {c : GroupCall} (hw : t.writes.get? seq = some w)
    (hc : t.group.calls.get? seq = some c) (hpc : c.pc = .waiting) (hnot : seq ∉ t.asleep)
    (hs : s = t.toSession.settle seq w (t.group.wake seq c)) :
    ({ toParking := t.toParking.after (.wake seq) s
       asleep := t.asleepAfter s (.wake seq) } : Threads).work < t.work := by
  subst hs
  by_cases hdone : (t.group.state.done.get? seq).isSome = true
  · have hwake : t.group.wake seq c = t.group.finish seq c := by
      rw [Group.wake_eq, if_pos hdone]
    rw [hwake]
    have hsec := Group.section_finish t.group seq c
    have hretry : (t.group.finish seq c).2 ≠ .took (some true) →
        writeRank (t.group.finish seq c).1 seq w < writeRank t.group seq w := by
      intro hret
      obtain ⟨pc, hc'⟩ := hsec.stays hret
      rw [writeRank_of_call hc', writeRank_of_call hc, if_pos (Group.finish_retries hc'),
        if_neg (by rw [hpc]; exact fun heq => by cases heq), if_pos hdone]
      exact Nat.lt_succ_self 2
    refine settle_work hw (fun seq' w' hne _ => ?_) (fun hret => (hretry hret).le) (Or.inl hretry)
    exact (writeRank_congr (hsec.frame seq' hne) (Group.finish_done hne) w').le
  · have hwake : t.group.wake seq c = (t.group, .parked) := by
      rw [Group.wake_eq, if_neg hdone]
    rw [hwake]
    have hsettle : t.toSession.settle seq w (t.group, .parked) = t.toSession := by
      rw [Session.settle, if_neg fun heq => by cases heq]
    rw [hsettle]
    have hasleep : t.asleepAfter t.toSession (.wake seq) = insert seq t.asleep := by
      obtain ⟨value, pc, phase⟩ := c
      obtain rfl : pc = .waiting := hpc
      simp only [asleepAfter, hc]
    have hlt : (t.group.calls.sum fun seq' _ => if seq' ∈ insert seq t.asleep then 0 else 1) <
        t.group.calls.sum fun seq' _ => if seq' ∈ t.asleep then 0 else 1 := by
      refine SortedMap.sum_lt_sum (fun seq' c' hc' => ⟨c', hc', ?_⟩) hc ?_
      · split
        · exact Nat.zero_le _
        · next hno => rw [if_neg fun hin => hno (Finset.mem_insert_of_mem hin)]
      · rw [hc, Option.elim_some, if_pos (Finset.mem_insert_self _ _), if_neg hnot]
        exact Nat.one_pos
    refine work_lt (Or.inr ⟨le_refl _, Or.inr ⟨le_refl _, ?_⟩⟩)
    rw [hasleep]
    have hparked : t.toParking.parkedAfter (.wake seq) t.toSession = t.parked := rfl
    simp only [scanWork, Parking.after, hparked]
    omega

/-- An act that carries on a call. -/
theorem Kept.acted_work (h : t.Kept) (hok : carryOn.act t.toSession a)
    (hs : t.toSession.step a = some s) (hawake : ∀ k ∈ a.attempts, k ∉ t.parked)
    (hlooks : ∀ seq ∈ (ParkAct.act a).looks, seq ∉ t.asleep) :
    ({ toParking := t.toParking.after a s, asleep := t.asleepAfter s a } : Threads).work <
      t.work := by
  have hcommitted : (∀ b, a ≠ .turn b) → Ledger.Committed t.toLedger s.toLedger :=
    fun hturn => (h.coupled.committed hok hturn hs).1
  cases Session.acted_of_step hs with
  | turn hm => exact h.turn_work hm hok.2 hawake
  | @commit seq w hw hgroup hstage o =>
    have hnone := h.coupled.policy hgroup seq
    refine write_work hw ?_ hnone (fun _ _ => rfl) rfl
    rw [writeRank_of_none hnone, hstage]
    decide
  | @enter seq w hw hnone hstage =>
    have hsec := Group.section_enter t.group seq w.value
    have hown : (t.group.enter seq w.value).2 ≠ .took (some true) →
        writeRank (t.group.enter seq w.value).1 seq w < writeRank t.group seq w := by
      intro hret
      obtain ⟨pc, hc⟩ := hsec.stays hret
      have hbefore : writeRank t.group seq w = 5 := by
        rw [writeRank_of_none hnone, hstage]
        rfl
      rw [writeRank_of_call hc, hbefore]
      split
      · omega
      · split <;> omega
    refine settle_work hw (fun seq' w' hne _ => ?_) (fun hret => (hown hret).le) (Or.inl hown)
    exact (writeRank_congr ((hsec.frame seq' hne).trans rfl) (Group.enter_done hne) w').le
  | flush hc hpc o =>
    exact h.flush_work hc hpc (hcommitted fun b heq => by cases heq)
  | record hw hc hpc => exact h.record_work hw hc hpc
  | wake hw hc hpc => exact wake_work hw hc hpc (hlooks _ rfl) rfl
  | @retry seq w c hw hc hpc o =>
    refine write_work hw ?_ (SortedMap.get?_erase_self _ _)
      (fun seq' hne => SortedMap.get?_erase_ne _ hne) rfl
    rw [writeRank_of_call hc, if_pos hpc]

/-- Who goes on is allowed to. -/
theorem GoesOn.anyOrder {a : ThreadAct} (h : t.GoesOn a) : t.AnyOrder a := by
  cases a with
  | park a =>
    cases a with
    | act a => exact (within_anyRun carryOn).act h
    | notifyOne | notifyAll => trivial
  | rouse | stir => exact h.elim

/-- A step that carries on what has begun leaves less to do. -/
theorem Kept.step_work {a : ThreadAct} (h : t.Kept) (hok : t.GoesOn a)
    (hstep : t.step a = some t') : t'.Kept ∧ t'.work < t.work := by
  have hstepped := stepped_of_step hstep
  refine ⟨h.stepped hok.anyOrder hstepped, ?_⟩
  cases hstepped with
  | act hs hawake hlooks => exact h.acted_work hok hs hawake hlooks
  | notifyNobody k n hones hnobody =>
    refine work_lt (Or.inr ⟨le_refl _, Or.inl ?_⟩)
    simp only [wakeWork, hones]
    omega
  | notifyOne n hones hk =>
    refine work_lt (Or.inr ⟨le_refl _, Or.inl ?_⟩)
    simp only [wakeWork, hones]
    omega
  | notifyAll n halls =>
    refine work_lt (Or.inr ⟨le_refl _, Or.inl ?_⟩)
    simp only [wakeWork, halls]
    omega
  | rouse | stir => exact hok.elim

/-! ## Nothing is left undone -/

/-- No act that carries on a call is possible for a thread that is not waiting. -/
theorem stuck_act (hstuck : Stuck step GoesOn t) (hok : carryOn.act t.toSession a)
    (hawake : ∀ k ∈ a.attempts, k ∉ t.parked)
    (hlooks : ∀ seq ∈ (ParkAct.act a).looks, seq ∉ t.asleep) : t.toSession.step a = none := by
  have hnone := hstuck (.park (.act a)) hok
  have hasleep : ¬∃ seq ∈ (ParkAct.act a).looks, seq ∈ t.asleep := by
    rintro ⟨seq, hseq, hmem⟩
    exact hlooks seq hseq hmem
  have hparked : ¬∃ k ∈ a.attempts, k ∈ t.parked := by
    rintro ⟨k, hk, hmem⟩
    exact hawake k hk hmem
  rw [step, if_neg hasleep, Parking.step, if_neg hparked] at hnone
  simpa using hnone

/-- The same for turns. -/
theorem stuck_turn (hstuck : Stuck step GoesOn t) {b : Turn} (hbelow : t.toLedger.Below (.turn b))
    (hcarry : b.CarriesOn t.toLedger) (hawake : ∀ k ∈ (Act.turn b).attempts, k ∉ t.parked) :
    t.toLedger.turn b = none := by
  have hnone : t.toSession.step (.turn b) = none :=
    stuck_act hstuck ⟨hbelow, hcarry⟩ hawake fun _ hseq => by cases hseq
  simpa [Session.step] using hnone

/-- Nobody is in the group commit. -/
theorem Kept.group_rest (h : t.Kept) (hstuck : Stuck step GoesOn t) (seq : ℕ) :
    t.group.calls.get? seq = none := by
  have hact : ∀ {a}, (∀ b, a ≠ .turn b) → (∀ seq ∈ (ParkAct.act a).looks, seq ∉ t.asleep) →
      t.toSession.step a = none := by
    intro a hturn hlooks
    refine stuck_act hstuck ?_ ?_ hlooks
    · cases a with
      | turn b => exact absurd rfl (hturn b)
      | commit | enter | flush | record | wake => trivial
      | retry => exact ⟨trivial, trivial⟩
    · cases a with
      | turn b => exact absurd rfl (hturn b)
      | commit | enter | flush | record | wake | retry => exact fun _ hk => by cases hk
  rcases hc : t.group.calls.get? seq with _ | c
  · rfl
  · exfalso
    obtain ⟨w, hw, -⟩ := h.coupled.call_write seq c hc
    rcases h.coupled.inv with hidle | ⟨l, batch, r, hled⟩
    · -- nobody leads, so the caller retries or has an outcome to take
      obtain ⟨value, pc, phase⟩ := c
      cases pc with
      | retry =>
        have hnone := @hact (.retry seq .ok) (fun b heq => by cases heq) fun _ hs => by cases hs
        simp only [Session.step, hw, hc, reduceCtorEq] at hnone
      | flushing | flushed =>
        have hleads := hidle.no_leader seq _ hc
        cases hleads
      | waiting =>
        rcases hidle.places.placed seq _ hc (fun heq => by cases heq) with hin | hin | ⟨ok, hok⟩
        · rw [Group.InPending, hidle.pending_nil] at hin
          cases hin
        · cases hin
        · have hnot : seq ∉ t.asleep := by
            intro hmem
            obtain ⟨-, -, -, hnone⟩ := h.heeded seq hmem
            rw [hok] at hnone
            cases hnone
          have hnone := @hact (.wake seq) (fun b heq => by cases heq)
            fun s hs => (Option.mem_some_iff.mp hs) ▸ hnot
          simp only [Session.step, hw, hc, reduceCtorEq] at hnone
    · -- somebody leads, and can go on
      obtain ⟨⟨value, pc, phase⟩, hl, hpc⟩ := hled.leader
      obtain ⟨w', hw', -⟩ := h.coupled.call_write l _ hl
      obtain rfl : pc = Group.leaderPc batch r := hpc
      cases r with
      | none =>
        have hnone := @hact (.flush l .ok) (fun b heq => by cases heq) fun _ hs => by cases hs
        simp only [Session.step, hl, Group.leaderPc, reduceCtorEq] at hnone
      | some ok =>
        have hnone := @hact (.record l) (fun b heq => by cases heq) fun _ hs => by cases hs
        simp only [Session.step, hw', hl, Group.leaderPc, reduceCtorEq] at hnone

/-- No claimed entry is on its way. -/
theorem Kept.writes_rest (h : t.Kept) (hstuck : Stuck step GoesOn t) (seq : ℕ) :
    t.writes.get? seq = none := by
  have hgroup := h.group_rest hstuck seq
  rcases hw : t.writes.get? seq with _ | ⟨call, value, stage⟩
  · rfl
  · exfalso
    cases stage with
    | failed =>
      have hnone := stuck_turn hstuck (b := .giveBack seq) trivial trivial fun _ hk => by cases hk
      simp only [Ledger.turn, hw, reduceCtorEq] at hnone
    | tried =>
      obtain ⟨c, hc⟩ := h.grouped seq _ hw (Or.inl rfl)
      rw [hgroup] at hc
      cases hc
    | landed =>
      obtain ⟨c, hc⟩ := h.grouped seq _ hw (Or.inr rfl)
      rw [hgroup] at hc
      cases hc
    | fresh =>
      -- it commits on its own, or enters the group commit
      rcases hpolicy : t.cfg.durability.isGroup with _ | _
      · have hnone := stuck_act hstuck (a := .commit seq .ok) trivial (fun _ hk => by cases hk)
          fun _ hs => by cases hs
        simp only [Session.step, hw, hpolicy, and_self, if_true, reduceCtorEq] at hnone
      · have hnone := stuck_act hstuck (a := .enter seq) trivial (fun _ hk => by cases hk)
          fun _ hs => by cases hs
        simp only [Session.step, hw, hgroup, hpolicy, and_self, if_true, reduceCtorEq] at hnone

/-- No scan is on its way. -/
theorem reserves_rest (hstuck : Stuck step GoesOn t) (r : ℕ) : t.reserves.get? r = none := by
  rcases hr : t.reserves.get? r with _ | ⟨pc, behind⟩
  · rfl
  · exfalso
    cases pc with
    | seeking cursor =>
      have hnone := stuck_turn hstuck (b := .seek r false) trivial trivial fun _ hk => by cases hk
      simp only [Ledger.turn, hr, Bool.false_eq_true, if_false, reduceCtorEq] at hnone
    | checking seq value =>
      obtain ⟨g, hg⟩ := t.guards.exists_get?_eq_none
      have hnone := stuck_turn hstuck (b := .check r g) trivial trivial fun _ hk => by cases hk
      simp only [Ledger.turn, hr, hg] at hnone
      split at hnone <;> cases hnone

/-- No ack is on its way. -/
theorem guards_rest (hstuck : Stuck step GoesOn t) {g : ℕ} {gd : Guard}
    (hg : t.guards.get? g = some gd) : gd.pc = .held := by
  obtain ⟨seq, value, pc⟩ := gd
  cases pc with
  | held => rfl
  | deleted =>
    have hnone := stuck_turn hstuck (b := .record g) trivial trivial fun _ hk => by cases hk
    simp only [Ledger.turn, hg, reduceCtorEq] at hnone
  | failed =>
    have hnone := stuck_turn hstuck (b := .release g) trivial ⟨_, hg, rfl⟩ fun _ hk => by cases hk
    simp only [Ledger.turn, hg, reduceCtorEq] at hnone

/-- No notification is owed. -/
theorem wakes_rest (hstuck : Stuck step GoesOn t) : t.ones = 0 ∧ t.alls = 0 := by
  constructor
  · by_contra hones
    obtain ⟨n, hn⟩ := Nat.exists_eq_succ_of_ne_zero hones
    by_cases hnobody : t.parked = ∅
    · have hnone := hstuck (.park (.notifyOne 0)) trivial
      rw [step, if_neg (by rintro ⟨_, hs, -⟩; cases hs)] at hnone
      simp only [Parking.step, hn, hnobody, if_true, Option.map_some, reduceCtorEq] at hnone
    · obtain ⟨k, hk⟩ := Finset.nonempty_iff_ne_empty.mpr hnobody
      have hnone := hstuck (.park (.notifyOne k)) trivial
      rw [step, if_neg (by rintro ⟨_, hs, -⟩; cases hs)] at hnone
      simp only [Parking.step, hn, hnobody, hk, if_true, if_false, Option.map_some,
        reduceCtorEq] at hnone
  · by_contra halls
    obtain ⟨n, hn⟩ := Nat.exists_eq_succ_of_ne_zero halls
    have hnone := hstuck (.park .notifyAll) trivial
    rw [step, if_neg (by rintro ⟨_, hs, -⟩; cases hs)] at hnone
    simp only [Parking.step, hn, Option.map_some, reduceCtorEq] at hnone

/-- When nothing can go on, the queue is at rest. -/
theorem Kept.atRest (h : t.Kept) (hstuck : Stuck step GoesOn t) (htail : t.inner.tail < u64Max) :
    t.AtRest := by
  obtain ⟨hones, halls⟩ := wakes_rest hstuck
  have hcalls : ∀ k c, t.calls.get? k = some c → k ∈ t.parked ∧ c.blocking = true := by
    intro k c hc
    have hk : k ∈ t.parked := by
      by_contra hk
      have hnone := stuck_turn hstuck (b := .attempt k) (fun _ => htail) trivial
        fun k' hk' => (Option.mem_some_iff.mp hk') ▸ hk
      simp only [Ledger.turn, hc] at hnone
      split at hnone
      · cases hnone
      · split at hnone
        · cases hnone
        · split at hnone <;> cases hnone
    obtain ⟨c', hc', hblocking⟩ := h.heard.waiting k hk
    obtain rfl := Option.some.inj (hc.symm.trans hc')
    exact ⟨hk, hblocking⟩
  refine ⟨h.writes_rest hstuck, reserves_rest hstuck, h.group_rest hstuck,
    fun g gd hg => guards_rest hstuck hg, hones, halls, hcalls, fun hclosed k => ?_⟩
  rcases hc : t.calls.get? k with _ | c
  · rfl
  · -- on a closed queue a push that waits would be owed a wake
    have hpos := h.heard.roused hclosed (Finset.ne_empty_of_mem (hcalls k c hc).1)
    omega

end Threads

/-- **Every call returns.** From any state of any run of a queue, under every policy and with
wakeups for no reason: the calls in progress cannot go on for ever, whatever order they go on
in and whatever their commits come to; when none of them can go on, the queue is at rest; and
they can be brought to that. -/
theorem calls_run_out {b : Builder} {st : Store} {s₀ : Session} {t : Threads}
    {as : List ThreadAct} (hopen : Opens b st s₀)
    (hrun : Run Threads.step Threads.AnyOrder (Threads.opened s₀) as t) :
    ¬Endless Threads.step Threads.GoesOn t ∧
    (∀ bs u, Run Threads.step Threads.GoesOn t bs u → Stuck Threads.step Threads.GoesOn u →
      u.inner.tail < u64Max → u.AtRest) ∧
    ∃ bs u, Run Threads.step Threads.GoesOn t bs u ∧ Stuck Threads.step Threads.GoesOn u := by
  have hkept : t.Kept :=
    hrun.invariant (fun _ _ _ h hok hstep => h.stepped hok (Threads.stepped_of_step hstep))
      (Threads.kept_opened hopen)
  have hwork : ∀ s a t, Threads.Kept s → s.GoesOn a → s.step a = some t →
      t.Kept ∧ t.work < s.work := fun _ _ _ h hok hstep => h.step_work hok hstep
  refine ⟨not_endless Threads.work hwork hkept, fun bs u hgo hstuck htail => ?_,
    exists_stuck Threads.work hwork hkept⟩
  exact (hgo.invariant (fun s a t h hok hstep => (hwork s a t h hok hstep).1) hkept).atRest
    hstuck htail

/-- The leader's batch fails while the other caller waits for its outcome, and a third push
waits for room. -/
theorem calls_run_out_failed_batch :
    ∃ t, Run Threads.step Threads.AnyOrder
      (Threads.opened (Session.fresh (Builder.group64.setCapacity 2 (by decide) (by decide))))
      [.park (.act (.turn (.call [1] true))), .park (.act (.turn (.call [2] true))),
        .park (.act (.turn (.call [3] true))), .park (.act (.turn (.attempt 1))),
        .park (.act (.turn (.attempt 2))), .park (.act (.turn (.attempt 3))),
        .park (.act (.enter 0)), .park (.act (.enter 1)), .stir 1, .park (.act (.wake 1)),
        .park (.act (.flush 0 (.err [true]))), .rouse 3] t ∧
      t.asleep = {1} ∧ t.parked = ∅ ∧ ¬Endless Threads.step Threads.GoesOn t ∧
      (∀ bs u, Run Threads.step Threads.GoesOn t bs u → Stuck Threads.step Threads.GoesOn u →
        u.inner.tail < u64Max → u.AtRest) ∧
      ∃ bs u, Run Threads.step Threads.GoesOn t bs u ∧ Stuck Threads.step Threads.GoesOn u := by
  have hrun : ∃ t, Run Threads.step Threads.AnyOrder
      (Threads.opened (Session.fresh (Builder.group64.setCapacity 2 (by decide) (by decide))))
      [.park (.act (.turn (.call [1] true))), .park (.act (.turn (.call [2] true))),
        .park (.act (.turn (.call [3] true))), .park (.act (.turn (.attempt 1))),
        .park (.act (.turn (.attempt 2))), .park (.act (.turn (.attempt 3))),
        .park (.act (.enter 0)), .park (.act (.enter 1)), .stir 1, .park (.act (.wake 1)),
        .park (.act (.flush 0 (.err [true]))), .rouse 3] t ∧ t.asleep = {1} ∧ t.parked = ∅ := by
    decide
  obtain ⟨t, hrun, hasleep, hparked⟩ := hrun
  exact ⟨t, hrun, hasleep, hparked, calls_run_out (opens_fresh _) hrun⟩

end PersistentQueue
