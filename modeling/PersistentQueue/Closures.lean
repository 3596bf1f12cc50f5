import PersistentQueue.Holders
import PersistentQueue.Room

/-!
# Futures and their closures

A future waits for what its closure returns, so as long as it stands where it waits there is
a closure to return: the scans of the queue are those of the reserves that scan
(`Facade.Scans`), and a push that was not answered yet has a call in the queue or a claim
(`Facade.Trials`). A closure whose future is gone runs on to its end, and no further.
-/

namespace PersistentQueue

namespace Ledger

variable {l l' : Ledger} {m : Move} {k : ℕ}

/-- The push has a claim, or has returned `Ok`. -/
def Underway (l : Ledger) (k : ℕ) : Prop :=
  PushedOk l.log k ∨ ∃ t w, l.writes.get? t = some w ∧ w.call = k

/-- A push stays underway until it gives back its slot. -/
theorem Underway.moved (h : l.Underway k) (hfree : l.writes.get? l.inner.tail = none)
    (hm : Moved l m l') (hback : ∀ t w, m = .turn (.giveBack t) → l.writes.get? t = some w →
      w.call ≠ k) : l'.Underway k := by
  rcases h with hpushed | ⟨t, w, hw, rfl⟩
  · exact Or.inl (pushedOk_mono hm hpushed)
  · have hsame : l'.writes.get? t = l.writes.get? t → l'.Underway w.call :=
      fun heq => Or.inr ⟨t, w, heq.trans hw, rfl⟩
    -- the write of another seq leaves this one alone, and this one keeps its call
    have hinsert : ∀ {seq w₀ w'}, l.writes.get? seq = some w₀ →
        l'.writes = l.writes.insert seq w' → w'.call = w₀.call → l'.Underway w.call := by
      intro seq w₀ w' hw₀ hwrites hcall
      by_cases hne : t = seq
      · subst hne
        obtain rfl := Option.some.inj (hw.symm.trans hw₀)
        exact Or.inr ⟨t, w', by rw [hwrites, SortedMap.get?_insert_self], hcall⟩
      · exact hsame (by rw [hwrites, SortedMap.get?_insert_ne _ _ hne])
    cases hm with
    | claim =>
      refine hsame (SortedMap.get?_insert_ne _ _ ?_)
      rintro rfl
      rw [hfree] at hw
      cases hw
    | @giveBack seq w' hw' =>
      refine hsame (SortedMap.get?_erase_ne _ ?_)
      rintro rfl
      exact hback t w rfl hw rfl
    | put hw' | gaveUp hw' => exact hinsert hw' rfl rfl
    | @returned seq w' hw' =>
      by_cases hne : t = seq
      · subst hne
        obtain rfl := Option.some.inj (hw.symm.trans hw')
        exact Or.inl ⟨_, List.mem_cons_self, beq_self_eq_true _⟩
      · exact hsame (SortedMap.get?_erase_ne _ hne)
    | call | turnedAway | waits | close | reserve | ended | found | skipped | handedOut | remove
    | record | release => exact hsame rfl

end Ledger

/-- An act that is not a turn leaves a push underway. -/
theorem Coupled.underway {s s' : Session} {D : Discipline} {a : Act} {k : ℕ} (h : Coupled s)
    (hok : D.act s a) (hturn : ∀ b, a ≠ .turn b) (hstep : s.step a = some s')
    (hk : s.Underway k) : s'.Underway k := by
  have hallowed : (commitsOnly D.outcome D.split).act s a := by
    cases a with
    | turn b => exact absurd rfl (hturn b)
    | commit | flush => exact hok
    | retry => exact ⟨hok.1, trivial⟩
    | enter | record | wake => trivial
  refine (h.invariant (I := fun l => l.Underway k) (.single hallowed hstep) hk
    fun l m l' hwf hl hm hmoved => hl.moved hwf.tail_free hmoved ?_).1
  rintro t w rfl
  exact hm.2.elim

namespace Facade

variable {f f' : Facade} {a : AsyncAct} {k r : ℕ}

/-! ## Scans -/

/-- Where the reserve stands. -/
def reserveStage (f : Facade) (r : ℕ) : Option ReserveStage :=
  (f.reserves.get? r).map ReserveTask.stage

/-- The scans of the queue are those of the facade, and a reserve without a future is one
that has to end. -/
structure Scans (f : Facade) : Prop where
  scanning : ∀ r, f.reserveStage r = some .scanning ↔ (f.queue.reserves.get? r).isSome = true
  dead : ∀ r stage, f.reserves.get? r = some ⟨false, stage⟩ →
    stage = .starting ∨ stage = .scanning

theorem reserveStage_of_get? {live : Bool} {stage : ReserveStage}
    (hr : f.reserves.get? r = some ⟨live, stage⟩) : f.reserveStage r = some stage := by
  rw [reserveStage, hr]
  rfl

theorem scans_opened {b : Builder} {s : Session} (h : FreshLedger b s.toLedger) :
    (opened s).Scans := by
  refine ⟨fun r => ?_, fun _ _ hr => by cases hr⟩
  have hnone : (opened s).queue.reserves.get? r = none := by
    rw [show (opened s).queue.reserves = s.reserves from rfl, h.opened]
    rfl
  rw [hnone]
  exact iff_of_false (fun heq => by cases heq) fun heq => by cases heq

namespace Scans

/-- A step that is about no reserve. -/
theorem frame (h : f.Scans) (hreserves : f'.reserves = f.reserves)
    (hqueue : ∀ r, (f'.queue.reserves.get? r).isSome = (f.queue.reserves.get? r).isSome) :
    f'.Scans := by
  refine ⟨fun r => ?_, fun r stage hr => h.dead r stage (hreserves ▸ hr)⟩
  rw [hqueue, reserveStage, hreserves]
  exact h.scanning r

/-- A step about one reserve. -/
theorem one (h : f.Scans) (r : ℕ)
    (hreserves : ∀ r', r' ≠ r → f'.reserves.get? r' = f.reserves.get? r')
    (hqueue : ∀ r', r' ≠ r → f'.queue.reserves.get? r' = f.queue.reserves.get? r')
    (hself : f'.reserveStage r = some .scanning ↔ (f'.queue.reserves.get? r).isSome = true)
    (hdead : ∀ stage, f'.reserves.get? r = some ⟨false, stage⟩ →
      stage = .starting ∨ stage = .scanning) : f'.Scans := by
  refine ⟨fun r' => ?_, fun r' stage hr' => ?_⟩
  · by_cases hne : r' = r
    · exact hne ▸ hself
    · rw [reserveStage, hreserves r' hne, hqueue r' hne]
      exact h.scanning r'
  · by_cases hne : r' = r
    · exact hdead stage (hne ▸ hr')
    · exact h.dead r' stage ((hreserves r' hne).symm.trans hr')

/-- A reserve does not scan any more. -/
theorem halted (h : f.Scans) (r : ℕ)
    (hreserves : ∀ r', r' ≠ r → f'.reserves.get? r' = f.reserves.get? r')
    (hqueue : ∀ r', r' ≠ r → f'.queue.reserves.get? r' = f.queue.reserves.get? r')
    (hnone : f'.queue.reserves.get? r = none)
    (hself : ∀ task, f'.reserves.get? r = some task → task.live = true ∧
      task.stage ≠ .scanning) : f'.Scans := by
  refine h.one r hreserves hqueue ?_ fun stage hr => by cases (hself _ hr).1
  rw [hnone, reserveStage]
  refine iff_of_false (fun heq => ?_) fun heq => by cases heq
  obtain ⟨task, hr, hstage⟩ := Option.map_eq_some_iff.mp heq
  exact (hself task hr).2 hstage

/-- A reserve that does not scan has no scan in the queue. -/
theorem unscanned (h : f.Scans) (hidle : f.reserveStage r ≠ some .scanning) :
    f.queue.reserves.get? r = none := by
  rcases hr : f.queue.reserves.get? r with _ | c
  · rfl
  · exact absurd ((h.scanning r).mpr (by rw [hr]; rfl)) hidle

/-- A reserve that does not scan ends. -/
theorem ends (h : f.Scans) {live : Bool} {stage : ReserveStage}
    (hr : f.reserves.get? r = some ⟨live, stage⟩) (hidle : stage ≠ .scanning)
    (hqueue : f'.queue = f.queue) (hreserves : f'.reserves = f.reserves.erase r) : f'.Scans := by
  have hnot : f.reserveStage r ≠ some .scanning := by
    rw [reserveStage_of_get? hr]
    exact fun heq => hidle (Option.some.inj heq)
  refine h.halted r (fun _ hne => by rw [hreserves, SortedMap.get?_erase_ne _ hne])
    (fun _ _ => by rw [hqueue]) (by rw [hqueue]; exact h.unscanned hnot) fun task hr' => ?_
  rw [hreserves] at hr'
  exact absurd rfl (SortedMap.of_get?_erase hr').1

/-- A scan goes on. -/
theorem goesOn (h : f.Scans) {live : Bool} {c : ReserveCall}
    (hr : f'.reserves.get? r = some ⟨live, .scanning⟩)
    (hc : f'.queue.reserves.get? r = some c)
    (hreserves : ∀ r', r' ≠ r → f'.reserves.get? r' = f.reserves.get? r')
    (hqueue : ∀ r', r' ≠ r → f'.queue.reserves.get? r' = f.queue.reserves.get? r') :
    f'.Scans := by
  refine h.one r hreserves hqueue ?_ fun stage hr' => Or.inr ?_
  · rw [reserveStage_of_get? hr, hc]
    exact iff_of_true rfl rfl
  · exact (ReserveTask.mk.inj (Option.some.inj (hr.symm.trans hr'))).2.symm

/-- A new scan has not begun. -/
theorem scan (h : f.Scans) (hnew : f.reserves.get? f.next = none) : f.scan.Scans := by
  have hself : f.scan.reserves.get? f.next = some ⟨true, .starting⟩ :=
    SortedMap.get?_insert_self _ _ _
  have hidle : f.reserveStage f.next ≠ some .scanning := by
    rw [reserveStage, hnew]
    exact fun heq => by cases heq
  refine h.halted f.next (fun _ hne => SortedMap.get?_insert_ne _ _ hne) (fun _ _ => rfl)
    (h.unscanned hidle) fun task hr => ?_
  obtain rfl := Option.some.inj (hself.symm.trans hr)
  exact ⟨rfl, fun heq => by cases heq⟩

end Scans

theorem Proceeds.scans {D : Discipline} {s : Session} {b : Act} (h : f.Scans)
    (hcoupled : Coupled f.queue) (hok : D.act f.queue b) (hs : f.queue.step b = some s)
    (hp : f.Proceeds s b f') : f'.Scans := by
  -- the turn of a scan leaves the others alone
  have hothers : ∀ {b' : Turn} {l : Ledger} {r : ℕ},
      Ledger.Moved f.queue.toLedger (.turn b') l →
      (b' = .reserve r ∨ (∃ ok, b' = .seek r ok) ∨ ∃ g, b' = .check r g) →
      ∀ r', r' ≠ r → l.reserves.get? r' = f.queue.reserves.get? r' := by
    rintro b' l r hm (rfl | ⟨ok, rfl⟩ | ⟨g, rfl⟩) r' hne
    · cases hm
      exact SortedMap.get?_insert_ne _ _ hne
    · cases hm with
      | ended => exact SortedMap.get?_erase_ne _ hne
      | found => exact SortedMap.get?_insert_ne _ _ hne
    · cases hm with
      | skipped => exact SortedMap.get?_insert_ne _ _ hne
      | handedOut => exact SortedMap.get?_erase_ne _ hne
  cases hp with
  | write hnot =>
    refine h.frame rfl fun r => ?_
    have hpc := (hcoupled.committed hok hnot hs).1.pcs r
    have hsome := congrArg Option.isSome hpc
    rw [Option.isSome_map, Option.isSome_map] at hsome
    exact hsome
  | attempt | attemptAlone | giveBack | giveBackAlone | ack | record | recordAlone | releaseDoomed
  | release | releaseAlone =>
    obtain ⟨l, hm, rfl⟩ := moved_of_turn hs
    refine h.frame rfl fun r => ?_
    have hsame : l.reserves = f.queue.reserves := by
      cases hm
      all_goals rfl
    rw [show ({ f.queue with toLedger := l } : Session).reserves = l.reserves from rfl, hsame]
  | @begins r live hr =>
    obtain ⟨l, hm, rfl⟩ := moved_of_turn hs
    have hrest := hothers hm (Or.inl rfl)
    cases hm with
    | reserve =>
      exact h.goesOn (SortedMap.get?_insert_self _ _ _) (SortedMap.get?_insert_self _ _ _)
        (fun _ hne => SortedMap.get?_insert_ne _ _ hne) hrest
  | seeksOn ok hr hc =>
    obtain ⟨l, hm, rfl⟩ := moved_of_turn hs
    exact h.goesOn hr hc (fun _ _ => rfl) (hothers hm (Or.inr (Or.inl ⟨ok, rfl⟩)))
  | checksOn hg hr hc =>
    obtain ⟨l, hm, rfl⟩ := moved_of_turn hs
    exact h.goesOn hr hc (fun _ _ => rfl) (hothers hm (Or.inr (Or.inr ⟨_, rfl⟩)))
  | @ended r ok hr hend =>
    obtain ⟨l, hm, rfl⟩ := moved_of_turn hs
    refine h.halted r (fun _ hne => SortedMap.get?_insert_ne _ _ hne)
      (hothers hm (Or.inr (Or.inl ⟨ok, rfl⟩))) hend fun task hr' => ?_
    obtain rfl := Option.some.inj ((SortedMap.get?_insert_self _ _ _).symm.trans hr')
    exact ⟨rfl, by cases ok <;> exact fun heq => by cases heq⟩
  | @found r g hg hr hend =>
    obtain ⟨l, hm, rfl⟩ := moved_of_turn hs
    refine h.halted r (fun _ hne => SortedMap.get?_insert_ne _ _ hne)
      (hothers hm (Or.inr (Or.inr ⟨g, rfl⟩))) hend fun task hr' => ?_
    obtain rfl := Option.some.inj ((SortedMap.get?_insert_self _ _ _).symm.trans hr')
    exact ⟨rfl, fun heq => by cases heq⟩
  | @endedAlone r ok hr hend =>
    obtain ⟨l, hm, rfl⟩ := moved_of_turn hs
    exact h.halted r (fun _ hne => SortedMap.get?_erase_ne _ hne)
      (hothers hm (Or.inr (Or.inl ⟨ok, rfl⟩))) hend
      fun task hr' => absurd rfl (SortedMap.of_get?_erase hr').1
  | @foundAlone r g hg hr hend =>
    obtain ⟨l, hm, rfl⟩ := moved_of_turn hs
    exact h.halted r (fun _ hne => SortedMap.get?_erase_ne _ hne)
      (hothers hm (Or.inr (Or.inr ⟨g, rfl⟩))) hend
      fun task hr' => absurd rfl (SortedMap.of_get?_erase hr').1

theorem Stepped.scans {D : Discipline} (h : f.Scans) (hreserves : f.ReserveLinks)
    (hcoupled : Coupled f.queue) (hok : f.Keeps D a) (htaken : f.step a = some f')
    (hstep : f.Stepped a f') : f'.Scans := by
  have hnew := hreserves.next_free
  cases hstep with
  | push waits hs | retry hk hready hs | close hs | nack hg hs =>
    obtain ⟨l, hm, rfl⟩ := moved_of_turn hs
    refine h.frame rfl fun r => ?_
    have hsame : l.reserves = f.queue.reserves := by
      cases hm
      all_goals rfl
    rw [show ({ f.queue with toLedger := l } : Session).reserves = l.reserves from rfl, hsame]
  | pushed | full | refused | dropPush | ack | acked | ackFailed | dropAcked | dropAck
  | notifyItems | closeRoom | closeItems => exact h.frame rfl fun _ => rfl
  | reserve => exact h.scan hnew
  | reserved hr | none hr | failed hr | dropFound hr =>
    exact h.ends hr (fun heq => by cases heq) rfl rfl
  | dropReserve hr => exact h.ends hr (endReserve_dropped hr htaken).2.1 rfl rfl
  | @sleeps r hr hleft =>
    have hnot : f.reserveStage r ≠ some .scanning := by
      rw [reserveStage_of_get? hr]
      exact fun heq => by cases heq
    refine h.halted r (fun _ hne => SortedMap.get?_insert_ne _ _ hne) (fun _ _ => rfl)
      (h.unscanned hnot) fun task hr' => ?_
    obtain rfl := Option.some.inj ((SortedMap.get?_insert_self _ _ _).symm.trans hr')
    exact ⟨rfl, fun heq => by cases heq⟩
  | @rescan r hr hready =>
    have hgone : ({ f with items := f.items.forget r, reserves := f.reserves.erase r } :
        Facade).Scans :=
      h.ends hr (fun heq => by cases heq) rfl rfl
    exact hgone.scan (SortedMap.get?_erase_of_none hnew)
  | @dropScan r stage hr hstage =>
    have hself : (f.reserves.insert r ⟨false, stage⟩).get? r = some ⟨false, stage⟩ :=
      SortedMap.get?_insert_self _ _ _
    refine h.one r (fun _ hne => SortedMap.get?_insert_ne _ _ hne) (fun _ _ => rfl) ?_
      fun stage' hr' => ?_
    · rw [reserveStage_of_get? hself, ← reserveStage_of_get? hr]
      exact h.scanning r
    · obtain ⟨-, rfl⟩ := ReserveTask.mk.inj (Option.some.inj (hself.symm.trans hr'))
      exact hstage
  | queue hs hp => exact hp.scans h hcoupled (hok _ rfl) hs

/-! ## Pushes -/

/-- A push's closure is there as long as its future waits for it, and a close that has not
notified yet wakes who was answered `Full`. -/
structure Trials (f : Facade) : Prop where
  trying : ∀ k task, f.pushes.get? k = some task → task.stage = .trying →
    ∃ c, f.queue.calls.get? k = some c
  writing : ∀ k task, f.pushes.get? k = some task → task.stage = .writing → f.queue.Underway k
  closed : ∀ k, f.Waits k → f.queue.inner.closed = true → 0 < f.closingRoom

theorem trials_opened (s : Session) : (opened s).Trials :=
  ⟨fun _ _ h => (by cases h), fun _ _ h => (by cases h), fun _ h => (by cases h.1)⟩

namespace Trials

/-- A step that starts no push. -/
theorem frame (h : f.Trials)
    (hpushes : ∀ k task, f'.pushes.get? k = some task → f.pushes.get? k = some task)
    (hcalls : ∀ k task c, f'.pushes.get? k = some task → task.stage = .trying →
      f.queue.calls.get? k = some c → f'.queue.calls.get? k = some c)
    (hunderway : ∀ k task, f'.pushes.get? k = some task → task.stage = .writing →
      f.queue.Underway k → f'.queue.Underway k)
    (hclosed : f'.queue.inner.closed = true → f.queue.inner.closed = true)
    (hclosing : f.closingRoom ≤ f'.closingRoom)
    (hroom : ∀ k ∈ f'.room.waiting, k ∈ f.room.waiting) : f'.Trials where
  trying := fun k task hk hstage => by
    obtain ⟨c, hc⟩ := h.trying k task (hpushes k task hk) hstage
    exact ⟨c, hcalls k task c hk hstage hc⟩
  writing := fun k task hk hstage =>
    hunderway k task hk hstage (h.writing k task (hpushes k task hk) hstage)
  closed := fun k hwaits hc => by
    obtain ⟨hmem, task, hk, hfull⟩ := hwaits
    have hold := h.closed k ⟨hroom k hmem, task, hpushes k task hk, hfull⟩ (hclosed hc)
    exact hold.trans_le hclosing

/-- A step that leaves the pushes and the queue alone. -/
theorem same (h : f.Trials) (hqueue : f'.queue = f.queue) (hpushes : f'.pushes = f.pushes)
    (hclosing : f.closingRoom ≤ f'.closingRoom)
    (hroom : ∀ k ∈ f'.room.waiting, k ∈ f.room.waiting) : f'.Trials :=
  h.frame (fun _ _ hk => hpushes ▸ hk) (fun _ _ _ _ _ hc => hqueue ▸ hc)
    (fun _ _ _ _ hk => hqueue ▸ hk) (fun hc => hqueue ▸ hc) hclosing hroom

/-- A turn that is not part of a push. -/
theorem turn (h : f.Trials) (hwf : f.queue.toLedger.Wf) {b : Turn} {l : Ledger}
    (hm : Ledger.Moved f.queue.toLedger (.turn b) l) (hcalls : l.calls = f.queue.calls)
    (hback : ∀ seq, b ≠ .giveBack seq) (hclosed : l.inner.closed = f.queue.inner.closed)
    (hqueue : f'.queue.toLedger = l) (hpushes : f'.pushes = f.pushes) (hroom : f'.room = f.room)
    (hclosing : f'.closingRoom = f.closingRoom) : f'.Trials := by
  refine h.frame (fun _ _ hk => hpushes ▸ hk) (fun k task c _ _ hc => ?_) (fun k task _ _ hk => ?_)
    (fun hc => ?_) hclosing.ge fun _ hk => hroom ▸ hk
  · rw [hqueue, hcalls]
    exact hc
  · rw [hqueue]
    exact hk.moved hwf.tail_free hm fun t w heq => absurd (Move.turn.inj heq) (hback t)
  · rw [hqueue, hclosed] at hc
    exact hc

/-- A new attempt of a push. -/
theorem started (h : f.Trials) (hwf : f.queue.toLedger.Wf) {value : Bytes} (waits : Bool)
    {room : Notify ℕ} {pushes : SortedMap ℕ PushTask} {s : Session}
    (hs : f.queue.step (.turn (.call value false)) = some s)
    (hpushes : ∀ k task, pushes.get? k = some task → f.pushes.get? k = some task)
    (hroom : ∀ k ∈ room.waiting, k ∈ f.room.waiting) :
    ({ f with
      queue := s
      room := if waits then room.enable f.queue.log.length else room
      pushes := pushes.insert f.queue.log.length { waits, value, stage := .trying } } :
      Facade).Trials := by
  obtain ⟨l, hm, rfl⟩ := moved_of_turn hs
  refine ⟨fun k task hk hstage => ?_, fun k task hk hstage => ?_, fun k hwaits hc => ?_⟩
  · cases hm with
    | call =>
      rcases SortedMap.of_get?_insert hk with ⟨rfl, -⟩ | ⟨hne, hk⟩
      · exact ⟨_, SortedMap.get?_insert_self _ _ _⟩
      · obtain ⟨c, hc⟩ := h.trying k task (hpushes k task hk) hstage
        exact ⟨c, (SortedMap.get?_insert_ne _ _ hne).trans hc⟩
  · rcases SortedMap.of_get?_insert hk with ⟨-, rfl⟩ | ⟨-, hk⟩
    · cases hstage
    · exact (h.writing k task (hpushes k task hk) hstage).moved hwf.tail_free hm
        fun _ _ heq => by cases heq
  · obtain ⟨hmem, task, hk, hfull⟩ := of_waits_started rfl rfl hwaits
    cases hm with
    | call => exact h.closed k ⟨hroom k hmem, task, hpushes k task hk, hfull⟩ hc

/-- The future of a push is gone. -/
theorem endPush (h : f.Trials) (k : ℕ) (task : PushTask) : (f.endPush k task).Trials := by
  refine h.frame (fun _ _ hk => (SortedMap.of_get?_erase hk).2) (fun _ _ _ _ _ hc => hc)
    (fun _ _ _ _ hk => hk) (fun hc => hc) (le_refl _) fun k' hk' => ?_
  simp only [Facade.endPush] at hk'
  split at hk'
  · exact (Notify.waiting_drop hk').1
  · exact hk'

/-- The closure of a push has decided. -/
theorem attempted (h : f.Trials) (hlinks : f.PushLinks) (hwf : f.queue.toLedger.Wf) {l : Ledger}
    (hm : Ledger.Moved f.queue.toLedger (.turn (.attempt k)) l) {waits : Bool} {value : Bytes}
    (hk : f.pushes.get? k = some ⟨waits, value, .trying⟩) :
    ({ f with
      queue := { f.queue with toLedger := l }
      pushes := f.pushes.insert k { waits, value, stage := f.decides k } } : Facade).Trials := by
  have hunderway : ∀ {k}, f.queue.Underway k → l.Underway k := fun hk =>
    hk.moved hwf.tail_free hm fun _ _ heq => by cases heq
  obtain ⟨c, hc, hcases⟩ := hlinks.attempted hm
  have hcalls : l.calls = f.queue.calls.erase k := by
    rcases hcases with ⟨-, -, -, rfl⟩ | ⟨rfl, -⟩ <;> rfl
  have hinner : l.inner.closed = f.queue.inner.closed := by
    rcases hcases with ⟨-, -, -, rfl⟩ | ⟨rfl, -⟩ <;> rfl
  refine ⟨fun k' task hk' hstage => ?_, fun k' task hk' hstage => ?_, fun k' hk' hclosed => ?_⟩
  · rcases SortedMap.of_get?_insert hk' with ⟨rfl, rfl⟩ | ⟨hne, hk'⟩
    · rcases hcases with ⟨hdecides, -⟩ | ⟨-, ⟨hdecides, -⟩ | ⟨hdecides, -⟩⟩ <;>
        cases hdecides.symm.trans hstage
    · obtain ⟨c', hc'⟩ := h.trying k' task hk' hstage
      exact ⟨c', by rw [← hc', hcalls]; exact SortedMap.get?_erase_ne _ hne⟩
  · rcases SortedMap.of_get?_insert hk' with ⟨rfl, rfl⟩ | ⟨-, hk'⟩
    · rcases hcases with ⟨-, -, -, rfl⟩ | ⟨-, ⟨hdecides, -⟩ | ⟨hdecides, -⟩⟩
      · exact Or.inr ⟨_, _, SortedMap.get?_insert_self _ _ _, rfl⟩
      · cases hdecides.symm.trans hstage
      · cases hdecides.symm.trans hstage
    · exact hunderway (h.writing k' task hk' hstage)
  · -- an open queue stays open, and a closed one answers `Closed`
    rw [hinner] at hclosed
    obtain ⟨hmem, task, hk', hfull⟩ := hk'
    rcases hcases with ⟨-, hopen, -⟩ | ⟨-, ⟨hdecides, -⟩ | ⟨-, hopen, -⟩⟩
    · cases hopen.symm.trans hclosed
    · rcases SortedMap.of_get?_insert hk' with ⟨-, rfl⟩ | ⟨-, hk'⟩
      · simp [PushTask.isFull, hdecides] at hfull
      · exact h.closed k' ⟨hmem, task, hk', hfull⟩ hclosed
    · cases hopen.symm.trans hclosed

end Trials

theorem Proceeds.trials {D : Discipline} {s : Session} {b : Act} (h : f.Trials)
    (hlinks : f.PushLinks) (hcoupled : Coupled f.queue) (hok : D.act f.queue b)
    (hs : f.queue.step b = some s) (hp : f.Proceeds s b f') : f'.Trials := by
  have hwf := hcoupled.wf
  cases hp with
  | write hnot =>
    have hc := (hcoupled.committed hok hnot hs).1
    exact h.frame (fun _ _ hk => hk) (fun _ _ _ _ _ hk => hc.calls ▸ hk)
      (fun _ _ _ _ hk => hcoupled.underway hok hnot hs hk)
      (fun hclosed => hc.inner ▸ hclosed) (le_refl _) fun _ hk => hk
  | attempt hk =>
    obtain ⟨l, hm, rfl⟩ := moved_of_turn hs
    exact h.attempted hlinks hwf hm hk
  | @attemptAlone k hk =>
    obtain ⟨l, hm, rfl⟩ := moved_of_turn hs
    have hsame : (∀ k', k' ≠ k → l.calls.get? k' = f.queue.calls.get? k') ∧
        l.inner.closed = f.queue.inner.closed := by
      cases hm with
      | turnedAway | claim => exact ⟨fun _ hne => SortedMap.get?_erase_ne _ hne, rfl⟩
      | waits => exact ⟨fun _ _ => rfl, rfl⟩
    refine h.frame (fun _ _ hk => hk) (fun k' task c hk' hstage hc => ?_)
      (fun _ _ _ _ hk => hk.moved hwf.tail_free hm fun _ _ heq => by cases heq)
      (fun hc => hsame.2 ▸ hc) (le_refl _) fun _ hk => hk
    refine (hsame.1 k' ?_).trans hc
    rintro rfl
    obtain ⟨waits, value, stage⟩ := task
    obtain rfl : stage = .trying := hstage
    exact hk waits value hk'
  | @giveBack seq w waits value hw hk =>
    obtain ⟨l, hm, rfl⟩ := moved_of_turn hs
    have hunderway : ∀ {k'}, k' ≠ w.call → f.queue.Underway k' → l.Underway k' := by
      intro k' hne hk'
      refine hk'.moved hwf.tail_free hm fun t w' heq hw' hcall => hne ?_
      obtain rfl := Turn.giveBack.inj (Move.turn.inj heq)
      obtain rfl := Option.some.inj (hw.symm.trans hw')
      exact hcall.symm
    cases hm with
    | giveBack =>
      refine ⟨fun k' task hk' hstage => ?_, fun k' task hk' hstage => ?_,
        fun k' hwaits hclosed => ?_⟩
      · rcases SortedMap.of_get?_insert hk' with ⟨-, rfl⟩ | ⟨-, hk'⟩
        · cases hstage
        · exact h.trying k' task hk' hstage
      · rcases SortedMap.of_get?_insert hk' with ⟨-, rfl⟩ | ⟨hne, hk'⟩
        · cases hstage
        · exact hunderway hne (h.writing k' task hk' hstage)
      · obtain ⟨hmem, task, hk', hfull⟩ := hwaits
        rcases SortedMap.of_get?_insert hk' with ⟨-, rfl⟩ | ⟨-, hk'⟩
        · simp [PushTask.isFull] at hfull
        · exact h.closed k' ⟨hmem, task, hk', hfull⟩ hclosed
  | @giveBackAlone seq w hw hk =>
    obtain ⟨l, hm, rfl⟩ := moved_of_turn hs
    have hcalls : l.calls = f.queue.calls ∧ l.inner.closed = f.queue.inner.closed := by
      cases hm
      exact ⟨rfl, rfl⟩
    refine h.frame (fun _ _ hk => hk) (fun _ _ _ _ _ hc => hcalls.1 ▸ hc)
      (fun k' task hk' hstage hunder => hunder.moved hwf.tail_free hm fun t w' heq hw' hcall => ?_)
      (fun hc => hcalls.2 ▸ hc) (le_refl _) fun _ hk => hk
    obtain rfl := Turn.giveBack.inj (Move.turn.inj heq)
    obtain rfl := Option.some.inj (hw.symm.trans hw')
    obtain ⟨waits, value, stage⟩ := task
    obtain rfl : stage = .writing := hstage
    exact hk waits value (hcall ▸ hk')
  | begins | ended | endedAlone | seeksOn | found | foundAlone | checksOn | ack | releaseDoomed
  | release | releaseAlone =>
    obtain ⟨l, hm, rfl⟩ := moved_of_turn hs
    obtain ⟨-, hclosed, hcalls⟩ := room_moved hm rfl
    exact h.turn hwf hm hcalls (fun _ heq => by cases heq) hclosed rfl rfl rfl rfl
  | record | recordAlone =>
    obtain ⟨l, hm, rfl⟩ := moved_of_turn hs
    have hsame : l.calls = f.queue.calls ∧ l.inner.closed = f.queue.inner.closed := by
      cases hm with
      | record => exact ⟨rfl, Inner.recordAck_closed⟩
    exact h.turn hwf hm hsame.1 (fun _ heq => by cases heq) hsame.2 rfl rfl rfl rfl

theorem Stepped.trials {D : Discipline} (h : f.Trials) (hlinks : f.PushLinks)
    (hcoupled : Coupled f.queue) (hok : f.Keeps D a) (hstep : f.Stepped a f') : f'.Trials := by
  have hwf := hcoupled.wf
  cases hstep with
  | push waits hs => exact h.started hwf waits hs (fun _ _ hk => hk) fun _ hk => hk
  | retry hk hready hs =>
    exact h.started hwf _ hs (fun _ _ hk => (SortedMap.of_get?_erase hk).2)
      fun _ hk => (Notify.waiting_forget.mp hk).1
  | @pushed k waits value hk hok =>
    obtain ⟨h₁, h₂, h₃⟩ := h.endPush k ⟨waits, value, .writing⟩
    exact ⟨h₁, h₂, h₃⟩
  | refused | dropPush => exact h.endPush _ _
  | @full k value hk =>
    refine ⟨fun k' task hk' hstage => ?_, fun k' task hk' hstage => ?_,
      fun k' hwaits hclosed => ?_⟩
    · rcases SortedMap.of_get?_insert hk' with ⟨-, rfl⟩ | ⟨-, hk'⟩
      · cases hstage
      · exact h.trying k' task hk' hstage
    · rcases SortedMap.of_get?_insert hk' with ⟨-, rfl⟩ | ⟨-, hk'⟩
      · cases hstage
      · exact h.writing k' task hk' hstage
    · obtain ⟨hmem, task, hk', hfull⟩ := hwaits
      rcases SortedMap.of_get?_insert hk' with ⟨rfl, -⟩ | ⟨-, hk'⟩
      · exact h.closed k' ⟨hmem, _, hk, rfl⟩ hclosed
      · exact h.closed k' ⟨hmem, task, hk', hfull⟩ hclosed
  | acked =>
    exact h.same rfl rfl (le_refl _) fun _ hk => Notify.mem_waiting_notifyOne hk
  | closeRoom => exact ⟨h.trying, h.writing, fun _ hk => (by cases hk.1)⟩
  | close hs =>
    obtain ⟨l, hm, rfl⟩ := moved_of_turn hs
    cases hm with
    | close => exact ⟨h.trying, h.writing, fun _ _ _ => Nat.succ_pos _⟩
  | nack hg hs =>
    obtain ⟨l, hm, rfl⟩ := moved_of_turn hs
    obtain ⟨-, hclosed, hcalls⟩ := room_moved hm rfl
    exact h.turn hwf hm hcalls (fun _ heq => by cases heq) hclosed rfl rfl rfl rfl
  | reserve | reserved | none | sleeps | failed | rescan | dropScan | dropFound | dropReserve
  | ack | ackFailed | dropAcked | dropAck | notifyItems | closeItems =>
    exact h.same rfl rfl (le_refl _) fun _ hk => hk
  | queue hs hp => exact hp.trials h hlinks hcoupled (hok _ rfl) hs

end Facade

end PersistentQueue
