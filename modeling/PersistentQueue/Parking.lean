import PersistentQueue.Commits

/-!
# Producers waiting for room

A push that is not admitted waits on the condvar `room`, and whoever frees a slot wakes one
producer: an ack, and a push that gives back its slot. Only `close` wakes all of them. The
notification comes after the section under the mutex, so between the two it is owed.

With values of one size one wake for a slot would do. With a byte bound it does not: one
ack can make room for several small values, and the woken producer may have a value that
does not fit while a smaller one would. `Parking.Spends` names the turn at which this
shows: the last wake in flight is used up, and a parked value fits. Along the runs without
such a turn no push sleeps while its value fits.
-/

namespace PersistentQueue

/-- An open queue and the condvar `room`. -/
structure Parking extends Session where
  /-- the pushes that wait on `room` -/
  parked : Finset ℕ
  /-- sections that freed a slot and are about to `notify_one` -/
  ones : ℕ
  /-- closes that are about to `notify_all` -/
  alls : ℕ

/-- An act of the queue, or a notification. -/
inductive ParkAct : Type where
  /-- the turn of a thread that is not waiting -/
  | act (a : Act)
  /-- `notify_one`; it wakes `k` if anyone waits -/
  | notifyOne (k : ℕ)
  /-- `notify_all` -/
  | notifyAll
  deriving DecidableEq

namespace Act

/-- The act is the locked part of the push `k`. -/
def attempts : Act → Option ℕ
  | .turn (.attempt k) => some k
  | _ => none

/-- The act is a section that frees a slot. -/
def frees : Act → Bool
  | .turn (.giveBack _) | .turn (.record _) => true
  | _ => false

/-- The act closes the queue. -/
def closes : Act → Bool
  | .turn .close => true
  | _ => false

end Act

namespace Parking

/-- A queue that was just opened. -/
def opened (s : Session) : Parking := { toSession := s, parked := ∅, ones := 0, alls := 0 }

/-- Who waits after an act: a push that was not admitted is still a call then. -/
def parkedAfter (p : Parking) (a : Act) (s : Session) : Finset ℕ :=
  match a.attempts with
  | some k => if (s.calls.get? k).isSome then insert k p.parked else p.parked
  | none => p.parked

/-- An act leads the queue to the state `s`. -/
def after (p : Parking) (a : Act) (s : Session) : Parking :=
  { toSession := s
    parked := p.parkedAfter a s
    ones := p.ones + if a.frees then 1 else 0
    alls := p.alls + if a.closes then 1 else 0 }

/-- One step. A waiting push makes no attempt. -/
def step (p : Parking) : ParkAct → Option Parking
  | .act a => if ∃ k ∈ a.attempts, k ∈ p.parked then none else (p.toSession.step a).map (p.after a)
  | .notifyOne k =>
    match p.ones with
    | 0 => none
    | n + 1 =>
      if p.parked = ∅ then some { p with ones := n }
      else if k ∈ p.parked then some { p with ones := n, parked := p.parked.erase k }
      else none
  | .notifyAll =>
    match p.alls with
    | 0 => none
    | n + 1 => some { p with alls := n, parked := ∅ }

variable {p p' : Parking} {k : ℕ}

/-- The push's value satisfies `admits`. -/
def Fits (p : Parking) (len bytes : ℕ) (k : ℕ) : Prop :=
  ∃ c ∈ p.calls.get? k, p.cfg.admits len bytes c.value.length = true

/-- Something is in flight that ends with a look at the room: a notification, a push that is
not waiting, or a call that is about to free a slot. -/
def InFlight (p : Parking) : Prop :=
  0 < p.ones ∨ (∃ e ∈ p.calls.entries, e.1 ∉ p.parked) ∨
    (∃ e ∈ p.guards.entries, e.2.pc = .deleted) ∨ ∃ e ∈ p.writes.entries, e.2.stage = .failed

/-- `len` and `bytes` after the turn of a push on an open queue. -/
def counters (p : Parking) (k : ℕ) : ℕ × ℕ :=
  match p.calls.get? k with
  | some c =>
    if p.cfg.admits p.inner.len p.inner.bytes c.value.length then
      (Word.wrapAdd p.cfg.usizeBits p.inner.len 1,
        Word.wrapAdd p.cfg.usizeBits p.inner.bytes c.value.length)
    else (p.inner.len, p.inner.bytes)
  | none => (p.inner.len, p.inner.bytes)

/-- The turn of the push `k` is the last thing in flight, and when it is over the value of a
waiting push fits. -/
def Spends (p : Parking) (k : ℕ) : Prop :=
  p.inner.closed = false ∧ ¬{ p with calls := p.calls.erase k }.InFlight ∧
    ∃ k' ∈ p.parked, p.Fits (p.counters k).1 (p.counters k).2 k'

/-- The steps in any order, without a turn that uses up the last wake too early. -/
def Allowed (p : Parking) : ParkAct → Prop
  | .act a => anyRun.act p.toSession a ∧ ∀ k ∈ a.attempts, ¬p.Spends k
  | .notifyOne _ | .notifyAll => True

/-- The steps in any order. -/
def AnyOrder (p : Parking) : ParkAct → Prop
  | .act a => anyRun.act p.toSession a
  | .notifyOne _ | .notifyAll => True

/-- Every wake has been consumed, and no call but waiting pushes is in progress. -/
def Quiet (p : Parking) : Prop :=
  p.ones = 0 ∧ p.alls = 0 ∧ (∀ e ∈ p.calls.entries, e.1 ∈ p.parked) ∧ p.writes.entries = [] ∧
    p.reserves.entries = [] ∧ ∀ e ∈ p.guards.entries, e.2.pc = .held

instance (p : Parking) (len bytes k : ℕ) : Decidable (p.Fits len bytes k) :=
  inferInstanceAs (Decidable (∃ c ∈ p.calls.get? k, _))

instance (p : Parking) : Decidable p.InFlight :=
  inferInstanceAs (Decidable (_ ∨ _ ∨ _ ∨ _))

instance (p : Parking) (k : ℕ) : Decidable (p.Spends k) :=
  inferInstanceAs (Decidable (_ ∧ _ ∧ _))

instance (p : Parking) : Decidable p.Quiet :=
  inferInstanceAs (Decidable (_ ∧ _ ∧ _ ∧ _ ∧ _ ∧ _))

instance (p : Parking) : DecidablePred p.AnyOrder
  | .act a => inferInstanceAs (Decidable (anyRun.act p.toSession a))
  | .notifyOne _ | .notifyAll => isTrue trivial

instance (p : Parking) : DecidablePred p.Allowed
  | .act a => inferInstanceAs (Decidable (anyRun.act p.toSession a ∧ ∀ k ∈ a.attempts, ¬p.Spends k))
  | .notifyOne _ | .notifyAll => isTrue trivial

/-! ## Someone is on the way -/

theorem inFlight_iff : p.InFlight ↔ 0 < p.ones ∨
    (∃ k c, p.calls.get? k = some c ∧ k ∉ p.parked) ∨
    (∃ g gd, p.guards.get? g = some gd ∧ gd.pc = .deleted) ∨
    ∃ t w, p.writes.get? t = some w ∧ w.stage = .failed := by
  simp only [InFlight, SortedMap.get?_eq_some, Prod.exists]

/-- A push that sleeps while its value fits, or while the queue is closed, will be looked
after. -/
structure Awake (p : Parking) : Prop where
  waiting : ∀ k ∈ p.parked, ∃ c, p.calls.get? k = some c
  numbered : ∀ k c, p.calls.get? k = some c → k < p.log.length
  closed : p.inner.closed = true → p.parked ≠ ∅ → 0 < p.alls
  room : p.inner.closed = false → (∃ k ∈ p.parked, p.Fits p.inner.len p.inner.bytes k) →
    p.InFlight

theorem awake_opened {b : Builder} {s : Session} (h : FreshLedger b s.toLedger) :
    (opened s).Awake := by
  refine ⟨fun k hk => ?_, fun k c hc => ?_, fun _ hne => absurd rfl hne, ?_⟩
  · cases hk
  · simp only [opened] at hc
    rw [h.opened] at hc
    cases hc
  · rintro - ⟨k, hk, -⟩
    cases hk

/-- A step that has nothing to do with the room. -/
theorem Awake.frame (h : p.Awake) (hcfg : p'.cfg = p.cfg) (hlen : p'.inner.len = p.inner.len)
    (hbytes : p'.inner.bytes = p.inner.bytes) (hclosed : p'.inner.closed = p.inner.closed)
    (hcalls : p'.calls = p.calls) (hparked : p'.parked = p.parked) (halls : p'.alls = p.alls)
    (hlog : p.log.length ≤ p'.log.length) (hflight : p.InFlight → p'.InFlight) : p'.Awake := by
  refine ⟨?_, ?_, ?_, ?_⟩
  · rw [hparked, hcalls]
    exact h.waiting
  · rw [hcalls]
    exact fun k c hc => (h.numbered k c hc).trans_le hlog
  · rw [hclosed, hparked, halls]
    exact h.closed
  · simp only [Fits, hclosed, hlen, hbytes, hcalls, hparked, hcfg]
    exact fun hopen hfits => hflight (h.room hopen hfits)

/-- The turn of a push ends it, or parks it: what it leaves behind if it was not the last
thing in flight, or if no waiting value fits. -/
theorem Awake.attempt (h : p.Awake) (hspend : ¬p.Spends k) (hcfg : p'.cfg = p.cfg)
    (hclosed : p'.inner.closed = p.inner.closed) (halls : p'.alls = p.alls)
    (hones : p'.ones = p.ones) (hguards : p'.guards = p.guards)
    (hwrites : ∀ t w, p.writes.get? t = some w → p'.writes.get? t = some w)
    (hlen : p.inner.closed = false → p'.inner.len = (p.counters k).1)
    (hbytes : p.inner.closed = false → p'.inner.bytes = (p.counters k).2)
    (hlog : p.log.length ≤ p'.log.length) (hk : k ∉ p.parked)
    (hcalls : ∀ k', k' ≠ k → p'.calls.get? k' = p.calls.get? k')
    (hended : p'.parked = p.parked ∧ p'.calls.get? k = none ∨
      p'.parked = insert k p.parked ∧ p.inner.closed = false ∧ p'.calls.get? k = p.calls.get? k ∧
        (∃ c, p.calls.get? k = some c) ∧ ¬p.Fits p'.inner.len p'.inner.bytes k) : p'.Awake := by
  have hne : ∀ {k'}, k' ∈ p.parked → k' ≠ k := fun hk' heq => hk (heq ▸ hk')
  refine ⟨fun k' hk' => ?_, fun k' c hc => ?_, fun hc hne' => ?_, fun hopen hfits => ?_⟩
  · rcases hended with ⟨hparked, -⟩ | ⟨hparked, -, hsame, hsome, -⟩
    · rw [hparked] at hk'
      rw [hcalls k' (hne hk')]
      exact h.waiting k' hk'
    · rw [hparked] at hk'
      rcases Finset.mem_insert.mp hk' with rfl | hk'
      · rw [hsame]
        exact hsome
      · rw [hcalls k' (hne hk')]
        exact h.waiting k' hk'
  · by_cases heq : k' = k
    · subst heq
      rcases hended with ⟨-, hnone⟩ | ⟨-, -, hsame, -, -⟩
      · rw [hnone] at hc
        cases hc
      · exact (h.numbered k' c (hsame ▸ hc)).trans_le hlog
    · exact (h.numbered k' c ((hcalls k' heq).symm.trans hc)).trans_le hlog
  · rw [hclosed] at hc
    rw [halls]
    rcases hended with ⟨hparked, -⟩ | ⟨-, hopen, -⟩
    · exact h.closed hc (hparked ▸ hne')
    · rw [hopen] at hc
      cases hc
  · rw [hclosed] at hopen
    -- a waiting value that fits was waiting before, so this was not the last thing in flight
    have hflight : { p with calls := p.calls.erase k }.InFlight := by
      by_contra hlast
      refine hspend ⟨hopen, hlast, ?_⟩
      obtain ⟨k', hk', c, hc, hroom⟩ := hfits
      rw [hcfg, hlen hopen, hbytes hopen] at hroom
      have hold : ∀ {k'}, k' ∈ p.parked → c ∈ p'.calls.get? k' →
          p.Fits (p.counters k).1 (p.counters k).2 k' :=
        fun hk' hc => ⟨c, hcalls _ (hne hk') ▸ hc, hroom⟩
      rcases hended with ⟨hparked, -⟩ | ⟨hparked, -, hsame, -, hnot⟩
      · rw [hparked] at hk'
        exact ⟨k', hk', hold hk' hc⟩
      · rw [hparked] at hk'
        rcases Finset.mem_insert.mp hk' with rfl | hk'
        · rw [hlen hopen, hbytes hopen] at hnot
          exact absurd ⟨c, hsame ▸ hc, hroom⟩ hnot
        · exact ⟨k', hk', hold hk' hc⟩
    rw [inFlight_iff] at hflight ⊢
    rcases hflight with hpos | ⟨k', c, hc, hk'⟩ | ⟨g, gd, hg, hpc⟩ | ⟨t, w, hw, hstage⟩
    · exact Or.inl (hones ▸ hpos)
    · obtain ⟨hne', hc⟩ := SortedMap.of_get?_erase hc
      refine Or.inr (Or.inl ⟨k', c, (hcalls k' hne').trans hc, ?_⟩)
      rcases hended with ⟨hparked, -⟩ | ⟨hparked, -⟩
      · exact hparked ▸ hk'
      · rw [hparked, Finset.mem_insert]
        exact not_or.mpr ⟨hne', hk'⟩
    · exact Or.inr (Or.inr (Or.inl ⟨g, gd, hguards ▸ hg, hpc⟩))
    · exact Or.inr (Or.inr (Or.inr ⟨t, w, hwrites t w hw, hstage⟩))

theorem counters_admitted {c : Call} (hc : p.calls.get? k = some c)
    (hroom : p.cfg.admits p.inner.len p.inner.bytes c.value.length = true) :
    p.counters k = (Word.wrapAdd p.cfg.usizeBits p.inner.len 1,
      Word.wrapAdd p.cfg.usizeBits p.inner.bytes c.value.length) := by
  simp only [counters, hc, hroom, if_true]

theorem counters_refused {c : Call} (hc : p.calls.get? k = some c)
    (hfull : p.cfg.admits p.inner.len p.inner.bytes c.value.length = false) :
    p.counters k = (p.inner.len, p.inner.bytes) := by
  simp only [counters, hc, hfull, if_false, Bool.false_eq_true]

/-- A guard whose ack has deleted stays until its ack is recorded. -/
theorem inFlight_guards (hones : p'.ones = p.ones) (hcalls : p'.calls = p.calls)
    (hparked : p'.parked = p.parked) (hwrites : p'.writes = p.writes)
    (hguards : ∀ g gd, p.guards.get? g = some gd → gd.pc = .deleted →
      p'.guards.get? g = some gd) (h : p.InFlight) : p'.InFlight := by
  rw [inFlight_iff] at h ⊢
  rw [hones, hcalls, hparked, hwrites]
  exact h.imp id (Or.imp id (Or.imp (fun ⟨g, gd, hg, hpc⟩ => ⟨g, gd, hguards g gd hg hpc, hpc⟩) id))

theorem Awake.turn {a : Turn} {l : Ledger} (h : p.Awake) (hwf : p.toLedger.Wf)
    (hm : Ledger.Moved p.toLedger (.turn a) l)
    (hasleep : ∀ k ∈ (Act.turn a).attempts, k ∉ p.parked)
    (hspend : ∀ k ∈ (Act.turn a).attempts, ¬p.Spends k) :
    (p.after (.turn a) { p.toSession with toLedger := l }).Awake := by
  have hlog := Ledger.length_mono hm
  cases hm with
  | call value blocking =>
    have hfresh : ∀ {k}, k ∈ p.parked → k ≠ p.log.length := by
      intro k hk heq
      obtain ⟨c, hc⟩ := h.waiting k hk
      exact (h.numbered k c hc).ne heq
    have hold : ∀ {k}, k ∈ p.parked →
        (p.calls.insert p.log.length { value, blocking }).get? k = p.calls.get? k :=
      fun hk => SortedMap.get?_insert_ne _ _ (hfresh hk)
    refine ⟨fun k hk => ?_, fun k c hc => ?_, h.closed, fun _ _ => ?_⟩
    · obtain ⟨c, hc⟩ := h.waiting k hk
      exact ⟨c, (hold hk).trans hc⟩
    · rcases SortedMap.of_get?_insert hc with ⟨rfl, -⟩ | ⟨-, hc⟩
      · exact Nat.lt_succ_self _
      · exact (h.numbered k c hc).trans_le hlog
    · rw [inFlight_iff]
      exact Or.inr (Or.inl ⟨_, _, SortedMap.get?_insert_self _ _ _, fun hk => hfresh hk rfl⟩)
  | turnedAway k hc haway =>
    have hnone := SortedMap.get?_erase_self p.calls k
    refine h.attempt (hspend k rfl) rfl rfl rfl rfl rfl (fun _ _ hw => hw) (fun hopen => ?_)
      (fun hopen => ?_) hlog (hasleep k rfl) (fun k' hne => SortedMap.get?_erase_ne _ hne)
      (Or.inl ⟨?_, hnone⟩)
    · rw [counters_refused hc (haway hopen).2]
      rfl
    · rw [counters_refused hc (haway hopen).2]
      rfl
    · simp only [after, parkedAfter, Act.attempts, hnone, Option.isSome_none, Bool.false_eq_true,
        if_false]
  | waits k hc hopen hfull hblocking =>
    refine h.attempt (hspend k rfl) rfl rfl rfl rfl rfl (fun _ _ hw => hw) (fun _ => ?_)
      (fun _ => ?_) hlog (hasleep k rfl) (fun _ _ => rfl)
      (Or.inr ⟨?_, hopen, rfl, ⟨_, hc⟩, ?_⟩)
    · rw [counters_refused hc hfull]
      rfl
    · rw [counters_refused hc hfull]
      rfl
    · simp only [after, parkedAfter, Act.attempts, hc, Option.isSome_some, if_true]
    · rintro ⟨c', hc', hroom⟩
      obtain rfl := Option.some.inj (hc.symm.trans hc')
      exact Bool.false_ne_true (hfull.symm.trans hroom)
  | claim hc hroom hopen =>
    have hnone := SortedMap.get?_erase_self p.calls
    refine h.attempt (hspend _ rfl) rfl rfl rfl rfl rfl (fun t w hw => ?_) (fun _ => ?_)
      (fun _ => ?_) hlog (hasleep _ rfl) (fun k' hne => SortedMap.get?_erase_ne _ hne)
      (Or.inl ⟨?_, hnone _⟩)
    · have hlt := hwf.write_lt t w hw
      exact (SortedMap.get?_insert_ne _ _ hlt.ne).trans hw
    · rw [counters_admitted hc hroom]
      rfl
    · rw [counters_admitted hc hroom]
      rfl
    · simp only [after, parkedAfter, Act.attempts, Ledger.claim, hnone, Option.isSome_none,
        Bool.false_eq_true, if_false]
  | giveBack =>
    exact ⟨h.waiting, fun k c hc => (h.numbered k c hc).trans_le hlog, h.closed,
      fun _ _ => Or.inl (Nat.succ_pos _)⟩
  | record =>
    refine ⟨h.waiting, fun k c hc => (h.numbered k c hc).trans_le hlog, fun hclosed => ?_,
      fun _ _ => Or.inl (Nat.succ_pos _)⟩
    simp only [after, Inner.recordAck_closed] at hclosed
    exact h.closed hclosed
  | close =>
    refine ⟨h.waiting, fun k c hc => (h.numbered k c hc).trans_le hlog,
      fun _ _ => Nat.succ_pos _, fun hopen => ?_⟩
    cases hopen
  | reserve | ended | found | skipped =>
    exact h.frame rfl rfl rfl rfl rfl rfl rfl hlog
      (inFlight_guards rfl rfl rfl rfl fun _ _ hg _ => hg)
  | handedOut hr hmem hnone =>
    refine h.frame rfl rfl rfl rfl rfl rfl rfl hlog
      (inFlight_guards rfl rfl rfl rfl fun g gd hg _ => ?_)
    refine (SortedMap.get?_insert_ne _ _ ?_).trans hg
    rintro rfl
    exact absurd (hnone.symm.trans hg) (by simp)
  | remove hg' hpc' o =>
    refine h.frame rfl rfl rfl rfl rfl rfl rfl hlog
      (inFlight_guards rfl rfl rfl rfl fun g gd hg hpc => ?_)
    refine (SortedMap.get?_insert_ne _ _ ?_).trans hg
    rintro rfl
    obtain rfl := Option.some.inj (hg'.symm.trans hg)
    rw [hpc] at hpc'
    cases hpc'
  | release hg' hpc' =>
    refine h.frame rfl rfl rfl rfl rfl rfl rfl hlog
      (inFlight_guards rfl rfl rfl rfl fun g gd hg hpc => ?_)
    refine (SortedMap.get?_erase_ne _ ?_).trans hg
    rintro rfl
    obtain rfl := Option.some.inj (hg'.symm.trans hg)
    exact hpc' hpc

/-- An act of a write changes nothing about the room; a failed one still gives back its slot. -/
theorem Awake.committed {a : Act} {s : Session} (h : p.Awake) (hturn : ∀ b, a ≠ .turn b)
    (hc : Ledger.Committed p.toLedger s.toLedger) : (p.after a s).Awake := by
  have hafter : p.after a s = { p with toSession := s } := by
    cases a with
    | turn b => exact absurd rfl (hturn b)
    | commit | enter | flush | record | wake | retry => rfl
  rw [hafter]
  have hinner := hc.inner
  refine h.frame hc.cfg (congrArg _ hinner) (congrArg _ hinner) (congrArg _ hinner) hc.calls rfl rfl
    hc.log_le fun hflight => ?_
  rw [inFlight_iff] at hflight ⊢
  simp only [hc.calls, hc.guards]
  exact hflight.imp id (Or.imp id (Or.imp id
    fun ⟨t, w, hw, hstage⟩ => ⟨t, w, hc.failed t w hw hstage, hstage⟩))

theorem Awake.step {a : ParkAct} (h : p.Awake) (hcoupled : Coupled p.toSession)
    (hok : p.Allowed a) (hstep : p.step a = some p') : Coupled p'.toSession ∧ p'.Awake := by
  cases a with
  | act a =>
    simp only [Parking.step] at hstep
    split at hstep
    · cases hstep
    · next hasleep =>
      obtain ⟨s, hs, rfl⟩ := Option.map_eq_some_iff.mp hstep
      refine ⟨(hcoupled.step hok.1 hs).1, ?_⟩
      by_cases hturn : ∃ b, a = .turn b
      · obtain ⟨b, rfl⟩ := hturn
        obtain ⟨l, hl, rfl⟩ := Option.map_eq_some_iff.mp hs
        have hm : Ledger.Moved p.toLedger (.turn b) l := Ledger.moved_of_step hl
        exact h.turn hcoupled.wf hm (fun k hk hmem => hasleep ⟨k, hk, hmem⟩) hok.2
      · have hnot : ∀ b, a ≠ .turn b := fun b heq => hturn ⟨b, heq⟩
        exact h.committed hnot (hcoupled.committed hok.1 hnot hs).1
  | notifyOne k =>
    simp only [Parking.step] at hstep
    split at hstep
    · cases hstep
    · next n hones =>
      split at hstep
      · next hempty =>
        obtain rfl := Option.some.inj hstep
        refine ⟨hcoupled, h.waiting, h.numbered, h.closed, ?_⟩
        rintro - ⟨k', hk', -⟩
        rw [hempty] at hk'
        cases hk'
      · split at hstep
        · next hk =>
          obtain rfl := Option.some.inj hstep
          refine ⟨hcoupled, fun k' hk' => h.waiting k' (Finset.mem_of_mem_erase hk'), h.numbered,
            fun hc _ => h.closed hc (Finset.ne_empty_of_mem hk), fun _ _ => ?_⟩
          -- the push that was woken is on its way
          obtain ⟨c, hc⟩ := h.waiting k hk
          rw [inFlight_iff]
          exact Or.inr (Or.inl ⟨k, c, hc, Finset.notMem_erase k p.parked⟩)
        · cases hstep
  | notifyAll =>
    simp only [Parking.step] at hstep
    split at hstep
    · cases hstep
    · obtain rfl := Option.some.inj hstep
      refine ⟨hcoupled, fun k hk => ?_, h.numbered, fun _ hne => absurd rfl hne, ?_⟩
      · cases hk
      · rintro - ⟨k, hk, -⟩
        cases hk

end Parking

/-- **A push blocks only while a bound would be exceeded.** In every run without a turn that
uses up the last wake while a waiting value fits: when all wakes are consumed and no call but
waiting pushes is in progress, nobody waits on a closed queue, and no waiting value
satisfies `admits`. -/
theorem push_blocks_only_when_full {b : Builder} {st : Store} {s₀ : Session} {p : Parking}
    {as : List ParkAct} (hopen : Opens b st s₀)
    (hrun : Run Parking.step Parking.Allowed (Parking.opened s₀) as p) (hquiet : p.Quiet) :
    (p.inner.closed = true → p.parked = ∅) ∧
    ∀ k ∈ p.parked, ∃ c, p.calls.get? k = some c ∧
      p.cfg.admits p.inner.len p.inner.bytes c.value.length = false := by
  obtain ⟨-, hawake⟩ : Coupled p.toSession ∧ p.Awake :=
    hrun.invariant (I := fun p => Coupled p.toSession ∧ p.Awake)
      (fun p a p' h hok hstep => h.2.step h.1 hok hstep)
      ⟨hopen.coupled, Parking.awake_opened hopen.fresh.1⟩
  obtain ⟨hones, halls, hcalls, hwrites, -, hguards⟩ := hquiet
  have hclosed : p.inner.closed = true → p.parked = ∅ := by
    intro hc
    by_contra hne
    have hpos := hawake.closed hc hne
    omega
  refine ⟨hclosed, fun k hk => ?_⟩
  obtain ⟨c, hc⟩ := hawake.waiting k hk
  refine ⟨c, hc, ?_⟩
  by_contra hroom
  rw [Bool.not_eq_false] at hroom
  have hopen' : p.inner.closed = false := by
    by_contra hc
    rw [hclosed (Bool.not_eq_false _ ▸ hc)] at hk
    cases hk
  rcases hawake.room hopen' ⟨k, hk, c, hc, hroom⟩ with hpos | ⟨e, he, hnot⟩ | ⟨e, he, hpc⟩ |
      ⟨e, he, -⟩
  · omega
  · exact hnot (hcalls e he)
  · rw [hguards e he] at hpc
    cases hpc
  · rw [hwrites] at he
    cases he

/-- Two items fill the queue, and a small and a large push wait. The ack of the first item
wakes the small one, whose value goes in; the large one sleeps on, and does not fit. -/
theorem push_blocks_only_when_full_sized :
    ∃ p, Run Parking.step Parking.Allowed (Parking.opened (Session.fresh twoBytes64))
      [.act (.turn (.call [1] true)), .act (.turn (.attempt 1)), .act (.commit 0 .ok),
        .act (.turn (.call [2] true)), .act (.turn (.attempt 5)), .act (.commit 1 .ok),
        .act (.turn (.call [3] true)), .act (.turn (.attempt 9)),
        .act (.turn (.call [4, 4] true)), .act (.turn (.attempt 10)), .act (.turn (.reserve 0)),
        .act (.turn (.seek 0 true)), .act (.turn (.check 0 0)), .act (.turn (.ack 0 .ok)),
        .act (.turn (.record 0)), .notifyOne 9, .act (.turn (.attempt 9)),
        .act (.commit 2 .ok)] p ∧ p.Quiet ∧
    (p.inner.closed = true → p.parked = ∅) ∧
    ∀ k ∈ p.parked, ∃ c, p.calls.get? k = some c ∧
      p.cfg.admits p.inner.len p.inner.bytes c.value.length = false := by
  have hrun : ∃ p, Run Parking.step Parking.Allowed (Parking.opened (Session.fresh twoBytes64))
      [.act (.turn (.call [1] true)), .act (.turn (.attempt 1)), .act (.commit 0 .ok),
        .act (.turn (.call [2] true)), .act (.turn (.attempt 5)), .act (.commit 1 .ok),
        .act (.turn (.call [3] true)), .act (.turn (.attempt 9)),
        .act (.turn (.call [4, 4] true)), .act (.turn (.attempt 10)), .act (.turn (.reserve 0)),
        .act (.turn (.seek 0 true)), .act (.turn (.check 0 0)), .act (.turn (.ack 0 .ok)),
        .act (.turn (.record 0)), .notifyOne 9, .act (.turn (.attempt 9)),
        .act (.commit 2 .ok)] p ∧ p.Quiet := by decide
  obtain ⟨p, hrun, hquiet⟩ := hrun
  exact ⟨p, hrun, hquiet, push_blocks_only_when_full (opens_fresh _) hrun hquiet⟩

/-- One item fills the queue, and two small pushes wait. The ack of the item wakes one of
them, whose value goes in; the other one sleeps on although its value fits too, and nothing
is left to wake it. -/
theorem push_sleeps_with_room :
    ∃ p, Run Parking.step Parking.AnyOrder (Parking.opened (Session.fresh twoBytes64))
      [.act (.turn (.call [1, 2] true)), .act (.turn (.attempt 1)), .act (.commit 0 .ok),
        .act (.turn (.call [3] true)), .act (.turn (.attempt 5)), .act (.turn (.call [4] true)),
        .act (.turn (.attempt 6)), .act (.turn (.reserve 0)), .act (.turn (.seek 0 true)),
        .act (.turn (.check 0 0)), .act (.turn (.ack 0 .ok)), .act (.turn (.record 0)),
        .notifyOne 5, .act (.turn (.attempt 5)), .act (.commit 1 .ok)] p ∧
      p.Quiet ∧ p.parked = {6} ∧ p.inner.closed = false ∧
      p.calls.get? 6 = some { value := [4], blocking := true } ∧
      p.cfg.admits p.inner.len p.inner.bytes 1 = true := by decide

end PersistentQueue
