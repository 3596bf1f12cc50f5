import PersistentQueue.Closures
import PersistentQueue.Completion

/-!
# Every future returns or sleeps

A closure on the blocking pool runs a call of the queue to its end, and a future that was
woken is polled again. So an async queue that is left to itself comes to rest
(`futures_settle`): every closure returns, every notify that is due is made, and what is
left are pushes and reserves that sleep, and were not woken. No push is among them if the
queue is closed. An item that is reserved then is in the consumer's hands, whatever futures
were dropped before.

A wake is a token that the future uses up as it tries again, so the queue below gets a new
call then. `Pool.work` is lexicographic: the closes that are about to notify, the tokens,
the closures that have not begun, the work that is left in the queue (`Threads.work`), and
the futures that may go to sleep.
-/

namespace PersistentQueue

/-- An open queue behind the facade, and the closures of the blocking pool that sleep. -/
structure Pool extends Facade where
  /-- the callers of the group commit that wait on `group_ready` -/
  asleep : Finset ℕ

/-- What happens next. -/
inductive PoolAct : Type where
  /-- a step of a task, or of a closure that is not waiting -/
  | task (a : AsyncAct)
  /-- a closure that waits on `group_ready` wakes up for no reason -/
  | stir (seq : ℕ)
  deriving DecidableEq

/-- The closure is one that looks for its outcome in the group commit. -/
def AsyncAct.looks : AsyncAct → Option ℕ
  | .queue a => (ParkAct.act a).looks
  | _ => none

/-- The step is up to the callers: a call, or the drop of a future. -/
def AsyncAct.asks : AsyncAct → Bool
  | .push _ _ | .dropPush _ | .reserve | .dropReserve _ | .ack _ | .dropAck _ | .nack _
  | .close => true
  | .pushed _ | .retry _ | .reserved _ | .rescan _ | .acked _ | .notifyItems | .closeRoom
  | .closeItems | .queue _ => false

/-- A reserve, and its closure if that has not begun. -/
def ReserveStage.rank : ReserveStage → ℕ
  | .starting => 2
  | .scanning | .found _ | .nothing | .failed | .asleep => 1

/-- The closure of an ack if that has not begun. -/
def AckStage.rank : AckStage → ℕ
  | .starting => 1
  | .running | .done _ => 0

namespace Pool

/-- A queue that was just opened. -/
def opened (s : Session) : Pool := { toFacade := Facade.opened s, asleep := ∅ }

/-- The closures as threads of the queue. None of them waits for room. -/
def threads (p : Pool) : Threads := { toParking := Parking.opened p.queue, asleep := p.asleep }

/-- Who waits on `group_ready` after a step. -/
def asleepAfter (p : Pool) (f : Facade) (a : AsyncAct) : Finset ℕ :=
  match p.queueAct a with
  | some b => p.threads.asleepAfter f.queue b
  | none => p.asleep

/-- One step. A waiting closure makes none. -/
def step (p : Pool) : PoolAct → Option Pool
  | .task a =>
    if ∃ seq ∈ a.looks, seq ∈ p.asleep then none
    else (p.toFacade.step a).map fun f => { toFacade := f, asleep := p.asleepAfter f a }
  | .stir seq => if seq ∈ p.asleep then some { p with asleep := p.asleep.erase seq } else none

/-- The steps in any order. -/
def AnyOrder (p : Pool) : PoolAct → Prop
  | .task a => p.toFacade.Keeps anyRun a
  | .stir _ => True

instance (p : Pool) : DecidablePred p.AnyOrder
  | .task a => inferInstanceAs (Decidable (p.toFacade.Keeps anyRun a))
  | .stir _ => isTrue trivial

/-- The steps that carry on what has begun, and wake nobody for no reason. -/
def GoesOn (p : Pool) : PoolAct → Prop
  | .task a => p.toFacade.Keeps anyRun a ∧ a.asks = false
  | .stir _ => False

/-- Nothing is in progress but pushes and reserves that sleep and were not woken. -/
structure AtRest (p : Pool) : Prop where
  still : p.Still
  group : ∀ seq, p.queue.group.calls.get? seq = none
  pushes : ∀ k task, p.pushes.get? k = some task → k ∈ p.room.waiting
  reserves : ∀ r task, p.reserves.get? r = some task → r ∈ p.items.waiting
  closed : p.queue.inner.closed = true → ∀ k, p.pushes.get? k = none
  hands : ∀ t ∈ p.queue.inner.reserved, ∃ g ∈ p.hands, ∃ gd, p.queue.guards.get? g = some gd ∧
    gd.seq = t ∧ gd.pc = .held

end Pool

/-! ## The closures are threads of the queue -/

namespace Threads

variable {t : Threads}

/-- What holds of threads that may wait for room holds of threads that do not. -/
theorem Kept.unparked (h : t.Kept) :
    ({ toParking := Parking.opened t.toSession, asleep := t.asleep } : Threads).Kept :=
  ⟨h.coupled, h.grouped, h.loaded, h.heeded, (fun _ hk => by cases hk), h.heard.numbered,
    fun _ hne => absurd rfl hne⟩

/-- Notifications of `room` that reach nobody are no work. -/
theorem unparked_work_le (hparked : t.parked = ∅) :
    ({ toParking := Parking.opened t.toSession, asleep := t.asleep } : Threads).work ≤ t.work := by
  obtain ⟨⟨s, parked, ones, alls⟩, asleep⟩ := t
  obtain rfl : parked = ∅ := hparked
  refine Prod.Lex.toLex_le_toLex'.mpr ⟨le_refl _, fun _ => ?_⟩
  refine Prod.Lex.toLex_le_toLex'.mpr ⟨?_, fun _ => le_refl _⟩
  simp only [wakeWork, Parking.opened]
  omega

end Threads

namespace Pool

variable {p p' : Pool} {f' : Facade} {a : AsyncAct}

/-- What every run of the pool keeps. -/
structure Kept (p : Pool) : Prop where
  tied : p.Tied
  scans : p.Scans
  trials : p.Trials
  threads : p.threads.Kept

theorem kept_opened {b : Builder} {st : Store} {s : Session} (h : Opens b st s) :
    (opened s).Kept :=
  ⟨Facade.tied_opened h, Facade.scans_opened h.fresh.1, Facade.trials_opened s,
    Threads.kept_opened h⟩

/-- An act of a closure is a step of a thread. -/
theorem Kept.acts (h : p.Kept) {b : Act} {s : Session} (hok : anyRun.act p.queue b)
    (hs : p.queue.step b = some s) (hlooks : ∀ seq ∈ (ParkAct.act b).looks, seq ∉ p.asleep) :
    ({ toParking := Parking.opened s, asleep := p.threads.asleepAfter s b } : Threads).Kept := by
  have hany : p.threads.AnyOrder (.park (.act b)) := hok
  exact (h.threads.stepped hany (.act hs (fun _ _ hk => by cases hk) hlooks)).unparked

theorem Kept.task (h : p.Kept) (hok : p.toFacade.Keeps anyRun a)
    (hlooks : ∀ seq ∈ a.looks, seq ∉ p.asleep) (hs : p.toFacade.step a = some f') :
    ({ toFacade := f', asleep := p.asleepAfter f' a } : Pool).Kept := by
  have hstepped := Facade.stepped_of_step hs
  refine ⟨h.tied.step hok hs, hstepped.scans h.scans h.tied.reserves h.tied.coupled hok hs,
    hstepped.trials h.trials h.tied.pushes h.tied.coupled hok, ?_⟩
  rcases hstepped.acts with ⟨hnone, heq⟩ | ⟨b, hb, hact⟩
  · have hthreads : ({ toFacade := f', asleep := p.asleepAfter f' a } : Pool).threads =
        p.threads := by
      simp only [Pool.threads, asleepAfter, hnone, heq]
    exact hthreads ▸ h.threads
  · have hasleep : p.asleepAfter f' a = p.threads.asleepAfter f'.queue b := by
      simp only [asleepAfter, hb]
    rw [hasleep]
    refine h.acts (hok b hb) hact ?_
    cases a with
    | queue b' =>
      obtain rfl := Option.some.inj hb
      exact hlooks
    | push | nack | close =>
      obtain rfl := Option.some.inj hb
      exact fun _ hseq => by cases hseq
    | retry =>
      obtain ⟨task, -, rfl⟩ := Option.map_eq_some_iff.mp hb
      exact fun _ hseq => by cases hseq
    | pushed | dropPush | reserve | reserved | rescan | dropReserve | ack | acked | dropAck
    | notifyItems | closeRoom | closeItems => cases hb

/-! ## The work that is left -/

/-- The closes that are about to notify. -/
def closes (p : Pool) : ℕ := 2 * p.closingRoom + p.closingItems

/-- The wakes that were sent or may be, each with what it sets off. -/
def tokens (p : Pool) : ℕ :=
  p.room.tokens + p.items.tokens + 2 * p.notifying + 2 * p.pushes.size + 4 * p.acks.size

/-- The closures that have not begun, the reserves, and the guards that nobody waits for. -/
def begins (p : Pool) : ℕ :=
  (p.reserves.sum fun _ task => task.stage.rank) + p.doomed.card +
    p.acks.sum fun _ task => task.stage.rank

/-- The futures that may go to sleep. -/
def awake (p : Pool) : ℕ :=
  (p.pushes.sum fun _ task => if task.stage = .asleep then 0 else 1) +
    p.reserves.sum fun _ task => if task.stage = .asleep then 0 else 1

/-- The work that is left. -/
def work (p : Pool) : ℕ ×ₗ ℕ ×ₗ ℕ ×ₗ (ℕ ×ₗ ℕ ×ₗ ℕ) ×ₗ ℕ :=
  toLex (p.closes, toLex (p.tokens, toLex (p.begins, toLex (p.threads.work, p.awake))))

theorem work_lt (hcloses : p'.closes ≤ p.closes)
    (h : p'.closes = p.closes → p'.tokens < p.tokens ∨ p'.tokens ≤ p.tokens ∧
      (p'.begins < p.begins ∨ p'.begins ≤ p.begins ∧
        (p'.threads.work < p.threads.work ∨
          p'.threads.work = p.threads.work ∧ p'.awake < p.awake))) : p'.work < p.work := by
  refine Prod.Lex.toLex_lt_toLex'.mpr ⟨hcloses, fun heq => ?_⟩
  rcases h heq with htokens | ⟨htokens, hrest⟩
  · exact Prod.Lex.toLex_lt_toLex.mpr (Or.inl htokens)
  · refine Prod.Lex.toLex_lt_toLex'.mpr ⟨htokens, fun _ => ?_⟩
    rcases hrest with hbegins | ⟨hbegins, hrest⟩
    · exact Prod.Lex.toLex_lt_toLex.mpr (Or.inl hbegins)
    · exact Prod.Lex.toLex_lt_toLex'.mpr ⟨hbegins, fun _ => Prod.Lex.toLex_lt_toLex.mpr hrest⟩

/-- No closure waits for room. -/
theorem Kept.nobody_parked (h : p.Kept) {b : Act} {s : Session} (hs : p.queue.step b = some s) :
    (Parking.opened p.queue).parkedAfter b s = ∅ := by
  rw [Parking.parkedAfter]
  split
  · next k hk =>
    have hb : b = .turn (.attempt k) := by
      cases b with
      | turn a =>
        cases a with
        | attempt k' => exact Option.some.inj hk ▸ rfl
        | call | giveBack | close | reserve | seek | check | ack | record | release => cases hk
      | commit | enter | flush | record | wake | retry => cases hk
    subst hb
    obtain ⟨l, hm, rfl⟩ := Facade.moved_of_turn hs
    obtain ⟨c, hc, hcases⟩ := h.tied.pushes.attempted hm
    have hnone : l.calls.get? k = none := by
      rcases hcases with ⟨-, -, -, rfl⟩ | ⟨rfl, -⟩ <;> exact SortedMap.get?_erase_self _ _
    rw [show ({ p.queue with toLedger := l } : Session).calls = l.calls from rfl, hnone]
    rfl
  · rfl

/-- An act that carries on a call leaves the queue less to do. -/
theorem Kept.acts_work (h : p.Kept) {b : Act} {s : Session} (hok : carryOn.act p.queue b)
    (hs : p.queue.step b = some s) (hlooks : ∀ seq ∈ (ParkAct.act b).looks, seq ∉ p.asleep) :
    ({ toParking := Parking.opened s, asleep := p.threads.asleepAfter s b } : Threads).work <
      p.threads.work :=
  (Threads.unparked_work_le (h.nobody_parked hs)).trans_lt
    (h.threads.acted_work hok hs (fun _ _ hk => by cases hk) hlooks)

/-- A call is carried on, and nothing begins. -/
theorem Kept.carried (h : p.Kept) {b : Act} {s : Session} {q : Pool}
    (hs : p.queue.step b = some s) (hok : carryOn.act p.queue b)
    (hlooks : ∀ seq ∈ (ParkAct.act b).looks, seq ∉ p.asleep)
    (hqueue : q.queue = s) (hasleep : q.asleep = p.threads.asleepAfter s b)
    (hcloses : q.closes = p.closes) (htokens : q.tokens ≤ p.tokens)
    (hbegins : q.begins ≤ p.begins) : q.work < p.work := by
  have hlt := h.acts_work hok hs hlooks
  refine work_lt hcloses.le fun _ => Or.inr ⟨htokens, Or.inr ⟨hbegins, Or.inl ?_⟩⟩
  rw [Pool.threads, hqueue, hasleep]
  exact hlt

/-- The closure of an ack drops its guard only after a commit that failed. -/
theorem Kept.failed (h : p.Kept) {g : ℕ} {live : Bool} {s : Session}
    (hs : p.queue.step (.turn (.release g)) = some s)
    (hg : p.acks.get? g = some ⟨live, .running⟩) :
    ∃ gd ∈ p.queue.guards.get? g, gd.pc = .failed := by
  obtain ⟨l, hm, rfl⟩ := Facade.moved_of_turn hs
  cases hm with
  | @release _ gd hguard hpc =>
    have hheld := ((h.tied.held.held g).acking gd hguard).mpr (Facade.ackStage_of_get? hg)
    refine ⟨gd, hguard, ?_⟩
    obtain ⟨seq, value, pc⟩ := gd
    cases pc with
    | held => exact absurd rfl hheld
    | deleted => exact absurd rfl hpc
    | failed => rfl

/-- A section of a closure. -/
theorem Kept.proceeds_work (h : p.Kept) {b : Act} {s : Session} (hok : anyRun.act p.queue b)
    (hs : p.queue.step b = some s) (hlooks : ∀ seq ∈ (ParkAct.act b).looks, seq ∉ p.asleep)
    (hp : p.toFacade.Proceeds s b f') :
    ({ toFacade := f', asleep := p.threads.asleepAfter s b } : Pool).work < p.work := by
  cases hp with
  | write hnot =>
    have hcarries : carryOn.act p.queue b := by
      cases b with
      | turn b' => exact absurd rfl (hnot b')
      | commit | enter | flush | record | wake | retry => exact hok
    exact h.carried hs hcarries hlooks rfl rfl rfl (le_refl _) (le_refl _)
  | attemptAlone | giveBackAlone | seeksOn | checksOn =>
    exact h.carried hs ⟨hok.1, trivial⟩ hlooks rfl rfl rfl (le_refl _) (le_refl _)
  | attempt hk =>
    refine h.carried hs ⟨hok.1, trivial⟩ hlooks rfl rfl rfl ?_ (le_refl _)
    · simp only [tokens, SortedMap.size_insert_of_some _ hk, le_refl]
  | giveBack hw hk =>
    refine h.carried hs ⟨hok.1, trivial⟩ hlooks rfl rfl rfl ?_ (le_refl _)
    · simp only [tokens, SortedMap.size_insert_of_some _ hk, le_refl]
  | @begins r live hr =>
    have hsum := SortedMap.sum_insert_of_some (fun _ task => (ReserveTask.stage task).rank)
      { live, stage := .scanning } hr
    refine work_lt (le_refl _) fun _ => Or.inr ⟨le_refl _, Or.inl ?_⟩
    simp only [Pool.begins, ReserveStage.rank] at hsum ⊢
    omega
  | @ended r ok hr hend =>
    have hsum := SortedMap.sum_insert_of_some (fun _ task => (ReserveTask.stage task).rank)
      { live := true, stage := if ok then .nothing else .failed } hr
    refine h.carried hs ⟨hok.1, trivial⟩ hlooks rfl rfl rfl (le_refl _) ?_
    · have hrank : (if ok then ReserveStage.nothing else .failed).rank = 1 := by cases ok <;> rfl
      rw [hrank] at hsum
      simp only [Pool.begins, ReserveStage.rank] at hsum ⊢
      omega
  | @found r g hg hr hend =>
    have hsum := SortedMap.sum_insert_of_some (fun _ task => (ReserveTask.stage task).rank)
      { live := true, stage := .found g } hr
    refine h.carried hs ⟨hok.1, trivial⟩ hlooks rfl rfl rfl (le_refl _) ?_
    · simp only [Pool.begins, ReserveStage.rank] at hsum ⊢
      omega
  | @endedAlone r ok hr hend =>
    have hsum := SortedMap.sum_erase_add (fun _ task => (ReserveTask.stage task).rank) hr
    refine h.carried hs ⟨hok.1, trivial⟩ hlooks rfl rfl rfl (le_refl _) ?_
    · simp only [Pool.begins]
      omega
  | @foundAlone r g hg hr hend =>
    have hsum := SortedMap.sum_erase_add (fun _ task => (ReserveTask.stage task).rank) hr
    have hcard := Finset.card_insert_le g p.doomed
    refine h.carried hs ⟨hok.1, trivial⟩ hlooks rfl rfl rfl (le_refl _) ?_
    · simp only [Pool.begins, ReserveStage.rank] at hsum ⊢
      omega
  | @ack g o live hg =>
    have hsum := SortedMap.sum_insert_of_some (fun _ task => (AckTask.stage task).rank)
      { live, stage := .running } hg
    refine work_lt (le_refl _) fun _ => Or.inr ⟨?_, Or.inl ?_⟩
    · simp only [tokens, SortedMap.size_insert_of_some _ hg, le_refl]
    · simp only [Pool.begins, AckStage.rank] at hsum ⊢
      omega
  | @record g hg =>
    have hsum := SortedMap.sum_insert_of_some (fun _ task => (AckTask.stage task).rank)
      { live := true, stage := .done true } hg
    refine h.carried hs ⟨hok.1, trivial⟩ hlooks rfl rfl rfl ?_ ?_
    · simp only [tokens, SortedMap.size_insert_of_some _ hg, le_refl]
    · simp only [Pool.begins, AckStage.rank] at hsum ⊢
      omega
  | @recordAlone g hg =>
    have hsize := SortedMap.size_erase_add hg
    have hsum := SortedMap.sum_erase_add (fun _ task => (AckTask.stage task).rank) hg
    refine h.carried hs ⟨hok.1, trivial⟩ hlooks rfl rfl rfl ?_ ?_
    · simp only [tokens]
      omega
    · simp only [Pool.begins]
      omega
  | @releaseDoomed g hg =>
    have hcard := Finset.card_erase_lt_of_mem hg
    refine work_lt (le_refl _) fun _ => Or.inr ⟨le_refl _, Or.inl ?_⟩
    simp only [Pool.begins]
    omega
  | @release g hg =>
    have hsum := SortedMap.sum_insert_of_some (fun _ task => (AckTask.stage task).rank)
      { live := true, stage := .done false } hg
    refine h.carried hs ⟨hok.1, h.failed hs hg⟩ hlooks rfl rfl rfl ?_ ?_
    · simp only [tokens, SortedMap.size_insert_of_some _ hg, le_refl]
    · simp only [Pool.begins, AckStage.rank] at hsum ⊢
      omega
  | @releaseAlone g hg =>
    have hsize := SortedMap.size_erase_add hg
    have hsum := SortedMap.sum_erase_add (fun _ task => (AckTask.stage task).rank) hg
    refine h.carried hs ⟨hok.1, h.failed hs hg⟩ hlooks rfl rfl rfl ?_ ?_
    · simp only [tokens]
      omega
    · simp only [Pool.begins]
      omega

/-- A future that returns uses up what it was sent, and no more. -/
theorem tokens_endPush (k : ℕ) (task : PushTask) :
    (p.toFacade.endPush k task).room.tokens ≤ p.room.tokens := by
  rw [Facade.endPush]
  split
  · exact Notify.tokens_drop
  · exact le_refl _

/-- A reserve returns. -/
theorem endReserve_work {r : ℕ} {task : ReserveTask} (hr : p.reserves.get? r = some task)
    (hands asleep : Finset ℕ) :
    ({ toFacade := { p.toFacade.endReserve r with hands }, asleep } : Pool).work < p.work := by
  have hitems := Notify.tokens_drop (n := p.items) (i := r)
  have hsum := SortedMap.sum_erase_add (fun _ task => (ReserveTask.stage task).rank) hr
  have hrank : 0 < task.stage.rank := by
    cases task.stage <;> exact Nat.succ_pos _
  refine work_lt (le_refl _) fun _ => Or.inr ⟨?_, Or.inl ?_⟩
  · simp only [tokens, Facade.endReserve]
    omega
  · simp only [Pool.begins, Facade.endReserve]
    omega

/-- A step of a task that nobody asked for. -/
theorem Kept.task_work (h : p.Kept) (hok : p.toFacade.Keeps anyRun a) (hasks : a.asks = false)
    (hlooks : ∀ seq ∈ a.looks, seq ∉ p.asleep) (hstep : p.toFacade.Stepped a f') :
    ({ toFacade := f', asleep := p.asleepAfter f' a } : Pool).work < p.work := by
  cases hstep with
  | push | dropPush | reserve | dropScan | dropFound | dropReserve | ack | dropAcked | dropAck
  | nack | close => cases hasks
  | @pushed k waits value hk hok =>
    have hsize := SortedMap.size_erase_add hk
    have hroom := p.tokens_endPush k ⟨waits, value, .writing⟩
    have hitems := Notify.tokens_notifyOne (n := p.items)
    refine work_lt (le_refl _) fun _ => Or.inl ?_
    simp only [tokens, Facade.endPush] at hroom ⊢
    omega
  | @full k value hk =>
    have hsum := SortedMap.sum_insert_of_some
      (fun _ task => if PushTask.stage task = .asleep then 0 else 1)
      { waits := true, value, stage := .asleep } hk
    refine work_lt (le_refl _) fun _ => Or.inr ⟨?_, Or.inr ⟨le_refl _, Or.inr ⟨rfl, ?_⟩⟩⟩
    · simp only [tokens, SortedMap.size_insert_of_some _ hk, le_refl]
    · simp only [awake, reduceCtorEq, if_true, if_false] at hsum ⊢
      omega
  | @refused k task e hk hstage hends =>
    have hsize := SortedMap.size_erase_add hk
    have hroom := p.tokens_endPush k task
    refine work_lt (le_refl _) fun _ => Or.inl ?_
    simp only [tokens, Facade.endPush] at hroom ⊢
    omega
  | @retry k waits value s hk hready hs =>
    have hlt := hready.tokens_forget_lt
    have hroom : (if waits then (p.room.forget k).enable p.queue.log.length
        else p.room.forget k).tokens ≤ (p.room.forget k).tokens := by
      split
      · exact Notify.tokens_enable
      · exact le_refl _
    have hfresh : p.pushes.get? p.queue.log.length = Option.none := by
      rcases hn : p.pushes.get? p.queue.log.length with _ | task
      · rfl
      · exact absurd (h.tied.pushes.numbered _ task hn) (lt_irrefl _)
    have hsize := SortedMap.size_erase_add hk
    have hsize' := SortedMap.size_insert_of_none { waits, value, stage := PushStage.trying }
      (SortedMap.get?_erase_of_none (k := k) hfresh)
    refine work_lt (le_refl _) fun _ => Or.inl ?_
    simp only [tokens]
    omega
  | reserved hr => exact endReserve_work hr _ _
  | none hr | failed hr => exact endReserve_work hr p.hands _
  | @sleeps r hr hleft =>
    have hsum := SortedMap.sum_insert_of_some
      (fun _ task => if ReserveTask.stage task = .asleep then 0 else 1)
      { live := true, stage := .asleep } hr
    have hrank := SortedMap.sum_insert_of_some (fun _ task => (ReserveTask.stage task).rank)
      { live := true, stage := .asleep } hr
    refine work_lt (le_refl _) fun _ => Or.inr ⟨le_refl _, Or.inr ⟨?_, Or.inr ⟨rfl, ?_⟩⟩⟩
    · simp only [Pool.begins, ReserveStage.rank] at hrank ⊢
      omega
    · simp only [awake, reduceCtorEq, if_true, if_false] at hsum ⊢
      omega
  | @rescan r hr hready =>
    have hlt := hready.tokens_forget_lt
    have hitems := Notify.tokens_enable (n := p.items.forget r) (i := p.next)
    refine work_lt (le_refl _) fun _ => Or.inl ?_
    simp only [tokens, Facade.scan]
    omega
  | @acked g hg =>
    have hsize := SortedMap.size_erase_add hg
    have hroom := Notify.tokens_notifyOne (n := p.room)
    refine work_lt (le_refl _) fun _ => Or.inl ?_
    simp only [tokens]
    omega
  | @ackFailed g hg =>
    have hsize := SortedMap.size_erase_add hg
    refine work_lt (le_refl _) fun _ => Or.inl ?_
    simp only [tokens]
    omega
  | @notifyItems n hn =>
    have hitems := Notify.tokens_notifyOne (n := p.items)
    refine work_lt (le_refl _) fun _ => Or.inl ?_
    simp only [tokens, hn]
    omega
  | @closeRoom n hn =>
    have hlt : 2 * n + (p.closingItems + 1) < 2 * p.closingRoom + p.closingItems := by omega
    exact work_lt hlt.le fun heq => absurd heq hlt.ne
  | @closeItems n hn =>
    have hlt : 2 * p.closingRoom + n < 2 * p.closingRoom + p.closingItems := by omega
    exact work_lt hlt.le fun heq => absurd heq hlt.ne
  | queue hs hp =>
    have hasleep := hp.queue_eq
    subst hasleep
    exact h.proceeds_work (hok _ rfl) hs hlooks hp

/-- A step of a task, or of a closure that is not waiting. -/
theorem task_of_step (h : p.step (.task a) = some p') :
    (∀ seq ∈ a.looks, seq ∉ p.asleep) ∧ ∃ f', p.toFacade.step a = some f' ∧
      p' = { toFacade := f', asleep := p.asleepAfter f' a } := by
  simp only [step] at h
  split at h
  · cases h
  · next hlooks =>
    obtain ⟨f', hf', rfl⟩ := Option.map_eq_some_iff.mp h
    exact ⟨fun seq hseq hmem => hlooks ⟨seq, hseq, hmem⟩, f', hf', rfl⟩

theorem Kept.step {a : PoolAct} (h : p.Kept) (hok : p.AnyOrder a) (hs : p.step a = some p') :
    p'.Kept := by
  cases a with
  | task a =>
    obtain ⟨hlooks, f', hf', rfl⟩ := task_of_step hs
    exact h.task hok hlooks hf'
  | stir seq =>
    simp only [Pool.step] at hs
    split at hs
    · next hseq =>
      obtain rfl := Option.some.inj hs
      exact ⟨h.tied, h.scans, h.trials, h.threads.stepped (a := .stir seq) trivial (.stir hseq)⟩
    · cases hs

/-- Who goes on is allowed to. -/
theorem GoesOn.anyOrder {a : PoolAct} (h : p.GoesOn a) : p.AnyOrder a := by
  cases a with
  | task a => exact h.1
  | stir seq => exact h.elim

/-- A step that carries on what has begun leaves less to do. -/
theorem Kept.step_work {a : PoolAct} (h : p.Kept) (hok : p.GoesOn a) (hs : p.step a = some p') :
    p'.Kept ∧ p'.work < p.work := by
  refine ⟨h.step hok.anyOrder hs, ?_⟩
  cases a with
  | task a =>
    obtain ⟨hlooks, f', hf', rfl⟩ := task_of_step hs
    exact h.task_work hok.1 hok.2 hlooks (Facade.stepped_of_step hf')
  | stir seq => exact hok.elim

/-! ## Nothing is left undone -/

/-- No step is possible that carries on what has begun. -/
theorem stuck_task (hstuck : Stuck step GoesOn p) (hok : p.toFacade.Keeps anyRun a)
    (hasks : a.asks = false) (hlooks : ∀ seq ∈ a.looks, seq ∉ p.asleep) :
    p.toFacade.step a = none := by
  have hnone := hstuck (.task a) ⟨hok, hasks⟩
  have hnot : ¬∃ seq ∈ a.looks, seq ∈ p.asleep := by
    rintro ⟨seq, hseq, hmem⟩
    exact hlooks seq hseq hmem
  rw [step, if_neg hnot] at hnone
  exact Option.map_eq_none_iff.mp hnone

/-- A step of a task that is none of the queue's. -/
theorem stuck_poll (hstuck : Stuck step GoesOn p) (hqueue : p.queueAct a = none)
    (hasks : a.asks = false) (hlooks : a.looks = none) : p.toFacade.step a = none := by
  refine stuck_task hstuck (fun b hb => ?_) hasks fun seq hseq => ?_
  · rw [hqueue] at hb
    cases hb
  · rw [hlooks] at hseq
    cases hseq

/-- No close and no ack is about to notify. -/
theorem notifies_rest (hstuck : Stuck step GoesOn p) :
    p.notifying = 0 ∧ p.closingRoom = 0 ∧ p.closingItems = 0 := by
  refine ⟨?_, ?_, ?_⟩
  · have hnone := stuck_poll hstuck (a := .notifyItems) rfl rfl rfl
    simp only [Facade.step] at hnone
    split at hnone
    · assumption
    · cases hnone
  · have hnone := stuck_poll hstuck (a := .closeRoom) rfl rfl rfl
    simp only [Facade.step] at hnone
    split at hnone
    · assumption
    · cases hnone
  · have hnone := stuck_poll hstuck (a := .closeItems) rfl rfl rfl
    simp only [Facade.step] at hnone
    split at hnone
    · assumption
    · cases hnone

/-- A section that is possible in the queue is no part of a closure that goes on. -/
theorem stuck_section (hstuck : Stuck step GoesOn p) {b : Act} {s : Session}
    (hs : p.queue.step b = some s) (hok : anyRun.act p.queue b)
    (hlooks : ∀ seq ∈ (ParkAct.act b).looks, seq ∉ p.asleep) : p.toFacade.proceed s b = none := by
  have hnone := stuck_task hstuck (a := .queue b) ?_ rfl hlooks
  · rw [Facade.step, hs] at hnone
    exact hnone
  · rintro b' hb
    obtain rfl := Option.some.inj hb
    exact hok

/-- The same for turns. -/
theorem stuck_turn (hstuck : Stuck step GoesOn p) {b : Turn} {l : Ledger}
    (hl : p.queue.turn b = some l) (hbelow : p.queue.Below (.turn b)) :
    p.toFacade.proceed { p.queue with toLedger := l } (.turn b) = none :=
  stuck_section hstuck (by rw [Session.step, hl]; rfl) ⟨hbelow, trivial⟩ fun _ hseq => by cases hseq

/-- No scan is on its way. -/
theorem Kept.scans_rest (h : p.Kept) (hstuck : Stuck Pool.step GoesOn p) (r : ℕ) :
    p.queue.reserves.get? r = none := by
  rcases hr : p.queue.reserves.get? r with _ | ⟨pc, behind⟩
  · rfl
  · exfalso
    have hstage := (h.scans.scanning r).mpr (by rw [hr]; rfl)
    obtain ⟨⟨live, stage⟩, hr', rfl⟩ := Option.map_eq_some_iff.mp hstage
    cases pc with
    | seeking cursor =>
      have hl : p.queue.turn (.seek r false) =
          some { p.queue.toLedger with reserves := p.queue.reserves.erase r } := by
        simp only [Ledger.turn, hr, Bool.false_eq_true, if_false]
      have hnone := stuck_turn hstuck hl trivial
      simp only [Facade.proceed, hr', SortedMap.get?_erase_self] at hnone
      cases live <;> cases hnone
    | checking seq value =>
      obtain ⟨g, hg⟩ := Infinite.exists_notMem_finset (p.queue.guards.keys ∪ p.acks.keys)
      simp only [Finset.mem_union, SortedMap.mem_keys, not_or, not_exists,
        ← Option.eq_none_iff_forall_ne_some] at hg
      obtain ⟨l, hl⟩ : ∃ l, p.queue.turn (.check r g) = some l := by
        simp only [Ledger.turn, hr, hg.1]
        split <;> exact ⟨_, rfl⟩
      have hnone := stuck_turn hstuck hl trivial
      simp only [Facade.proceed, hg.2, hr'] at hnone
      rcases hr : l.reserves.get? r with _ | c <;> rw [hr] at hnone <;> cases live <;> cases hnone

/-- What carries on a call of the queue is a section of a closure. -/
theorem Kept.proceed_some (h : p.Kept) (hscans : ∀ r, p.queue.reserves.get? r = none) {b : Act}
    {s : Session} (hok : carryOn.act p.queue b) (hs : p.queue.step b = some s) :
    ∃ f', p.toFacade.proceed s b = some f' := by
  cases b with
  | commit | enter | flush | record | wake | retry => exact ⟨_, rfl⟩
  | turn b =>
    have hm := Facade.moved_of_turn hs
    obtain ⟨l, hm, rfl⟩ := hm
    cases hm with
    | call | close | reserve | remove => exact hok.2.elim
    | turnedAway | waits | claim =>
      simp only [Facade.proceed]
      split <;> exact ⟨_, rfl⟩
    | giveBack hw hstage =>
      simp only [Facade.proceed, hw]
      split <;> exact ⟨_, rfl⟩
    | ended r ok hr | found hr | skipped g hr | handedOut hr =>
      rw [hscans] at hr
      cases hr
    | @record g gd hg hpc =>
      obtain ⟨⟨live, stage⟩, hack, rfl⟩ := Option.map_eq_some_iff.mp
        (((h.tied.held.held g).acking gd hg).mp (by simp [hpc]))
      simp only [Facade.proceed, hack]
      cases live <;> exact ⟨_, rfl⟩
    | @release g gd hg hpc =>
      obtain ⟨gd', hg', hfailed⟩ := hok.2
      obtain rfl := Option.some.inj (hg.symm.trans hg')
      obtain ⟨⟨live, stage⟩, hack, rfl⟩ := Option.map_eq_some_iff.mp
        (((h.tied.held.held g).acking gd hg).mp (by simp [hfailed]))
      simp only [Facade.proceed, hack]
      split
      · exact ⟨_, rfl⟩
      · cases live <;> exact ⟨_, rfl⟩

/-- When no step is possible, none is possible for the threads of the queue. -/
theorem Kept.threads_rest (h : p.Kept) (hstuck : Stuck Pool.step GoesOn p) :
    Stuck Threads.step Threads.GoesOn p.threads := by
  intro a hok
  rw [Option.eq_none_iff_forall_ne_some]
  intro t ht
  cases Threads.stepped_of_step ht with
  | act hs hawake hlooks =>
    obtain ⟨f', hf'⟩ := h.proceed_some (h.scans_rest hstuck) hok hs
    have hnone := stuck_section hstuck hs ((within_anyRun carryOn).act hok) hlooks
    rw [hnone] at hf'
    cases hf'
  | notifyNobody k n hones | notifyOne n hones => cases hones
  | notifyAll n halls => cases halls
  | rouse | stir => exact hok.elim

/-- Who holds a guard when the queue is at rest holds it for good. -/
theorem Kept.holder_rest (h : p.Kept) (hrest : p.threads.AtRest) {g : ℕ}
    (hpos : 0 < p.holders g) :
    ∃ seq value, p.queue.guards.get? g = some ⟨seq, value, .held⟩ ∧
      p.ackStage g ≠ some .running := by
  obtain ⟨⟨seq, value, pc⟩, hg⟩ := (h.tied.held.held g).exists_guard hpos
  obtain rfl : pc = .held := hrest.guards g _ hg
  refine ⟨seq, value, hg, fun hrunning => ?_⟩
  exact ((h.tied.held.held g).acking _ hg).mpr hrunning rfl

/-- No ack is on its way. -/
theorem Kept.acks_rest (h : p.Kept) (hstuck : Stuck Pool.step GoesOn p)
    (hrest : p.threads.AtRest) (g : ℕ) : p.acks.get? g = none := by
  rcases hg : p.acks.get? g with _ | ⟨live, stage⟩
  · rfl
  · exfalso
    have hstage := Facade.ackStage_of_get? hg
    cases stage with
    | done ok =>
      have hlive : live = true := by
        cases live with
        | true => rfl
        | false => cases h.tied.held.dead g _ hg
      subst hlive
      have hnone := stuck_poll hstuck (a := .acked g) rfl rfl rfl
      simp only [Facade.step, hg] at hnone
      cases ok <;> cases hnone
    | starting =>
      have hpos : 0 < p.holders g := by
        simp only [Facade.holders, hstage, Option.elim_some, AckStage.holds]
        omega
      obtain ⟨seq, value, hguard, -⟩ := h.holder_rest hrest hpos
      have hl : p.queue.turn (.ack g .ok) =
          some (p.queue.toLedger.remove g ⟨seq, value, .held⟩ .ok) := by
        simp only [Ledger.turn, hguard]
      have hnone := stuck_turn hstuck hl trivial
      simp only [Facade.proceed, hg] at hnone
      cases hnone
    | running =>
      have hpos : 0 < p.holders g := by
        simp only [Facade.holders, hstage, Option.elim_some, AckStage.holds]
        omega
      obtain ⟨-, -, -, hidle⟩ := h.holder_rest hrest hpos
      exact hidle hstage

/-- No guard waits to be dropped. -/
theorem Kept.doomed_rest (h : p.Kept) (hstuck : Stuck Pool.step GoesOn p)
    (hrest : p.threads.AtRest) : p.doomed = ∅ := by
  rw [Finset.eq_empty_iff_forall_notMem]
  intro g hg
  have hpos : 0 < p.holders g := by
    simp only [Facade.holders, Facade.tally_of_mem hg]
    omega
  obtain ⟨seq, value, hguard, -⟩ := h.holder_rest hrest hpos
  obtain ⟨l, hl⟩ : ∃ l, p.queue.turn (.release g) = some l := by
    simp only [Ledger.turn, hguard]
    exact ⟨_, rfl⟩
  have hnone := stuck_turn hstuck hl trivial
  simp only [Facade.proceed, hg, if_true] at hnone
  cases hnone

/-- A push that is left sleeps, and was not woken. -/
theorem Kept.pushes_rest (h : p.Kept) (hstuck : Stuck Pool.step GoesOn p)
    (hrest : p.threads.AtRest) {k : ℕ} {task : PushTask} (hk : p.pushes.get? k = some task) :
    task.stage = .asleep ∧ k ∈ p.room.waiting := by
  obtain ⟨waits, value, stage⟩ := task
  cases stage with
  | trying =>
    obtain ⟨c, hc⟩ := h.trials.trying k _ hk rfl
    cases (hrest.calls k c hc).1
  | writing =>
    exfalso
    rcases h.trials.writing k _ hk rfl with hok | ⟨t, w, hw, -⟩
    · have hnone := stuck_poll hstuck (a := .pushed k) rfl rfl rfl
      simp only [Facade.step, hk, if_pos hok, reduceCtorEq] at hnone
    · cases (hrest.writes t).symm.trans hw
  | refused e =>
    exfalso
    have hnone := stuck_poll hstuck (a := .pushed k) rfl rfl rfl
    cases waits <;> cases e <;> simp only [Facade.step, hk, reduceCtorEq] at hnone
  | asleep =>
    refine ⟨rfl, (h.tied.pushes.known k _ hk (h.tied.pushes.sleeps k _ hk rfl)).resolve_right ?_⟩
    intro hready
    have hnone := stuck_task hstuck (a := .retry k) (fun b hb => ?_) rfl fun _ hseq => by cases hseq
    · simp only [Facade.step, hk, if_pos hready] at hnone
      cases hnone
    · obtain ⟨task, -, rfl⟩ := Option.map_eq_some_iff.mp hb
      exact ⟨trivial, trivial⟩

/-- A reserve that is left sleeps, and was not woken. -/
theorem Kept.reserves_rest (h : p.Kept) (hstuck : Stuck Pool.step GoesOn p) {r : ℕ}
    {task : ReserveTask} (hr : p.reserves.get? r = some task) :
    task = ⟨true, .asleep⟩ ∧ r ∈ p.items.waiting := by
  obtain ⟨live, stage⟩ := task
  have hidle := h.scans_rest hstuck r
  have hlive : stage ≠ .starting → stage ≠ .scanning → live = true := by
    intro hstarting hscanning
    cases live with
    | true => rfl
    | false => exact ((h.scans.dead r stage hr).elim hstarting hscanning).elim
  cases stage with
  | starting =>
    exfalso
    obtain ⟨l, hl⟩ : ∃ l, p.queue.turn (.reserve r) = some l := by
      simp only [Ledger.turn, hidle]
      exact ⟨_, rfl⟩
    have hnone := stuck_turn hstuck hl trivial
    simp only [Facade.proceed, hr] at hnone
    cases hnone
  | scanning =>
    have hsome := (h.scans.scanning r).mp (Facade.reserveStage_of_get? hr)
    rw [hidle] at hsome
    cases hsome
  | found | nothing | failed =>
    exfalso
    obtain rfl := hlive (by simp) (by simp)
    have hnone := stuck_poll hstuck (a := .reserved r) rfl rfl rfl
    simp only [Facade.step, hr] at hnone
    first | cases hnone | (split at hnone <;> cases hnone)
  | asleep =>
    obtain rfl := hlive (by simp) (by simp)
    refine ⟨rfl, (h.tied.reserves.known r _ hr).resolve_right fun hready => ?_⟩
    have hnone := stuck_poll hstuck (a := .rescan r) rfl rfl rfl
    simp only [Facade.step, hr, if_pos hready] at hnone
    cases hnone

/-- When nothing can go on, the pool is at rest. -/
theorem Kept.atRest (h : p.Kept) (hstuck : Stuck Pool.step GoesOn p)
    (htail : p.queue.inner.tail < u64Max) : p.AtRest := by
  have hrest := h.threads.atRest (h.threads_rest hstuck) htail
  obtain ⟨hnotifying, hroom, hitems⟩ := notifies_rest hstuck
  have hacks := h.acks_rest hstuck hrest
  have hdoomed := h.doomed_rest hstuck hrest
  have hcalls : ∀ k, p.queue.calls.get? k = none := by
    intro k
    rcases hc : p.queue.calls.get? k with _ | c
    · rfl
    · cases (hrest.calls k c hc).1
  refine ⟨⟨fun e he => ?_, fun e he => ?_, SortedMap.entries_nil_of_get? hacks, hdoomed, hnotifying,
    hroom, hitems, SortedMap.entries_nil_of_get? hcalls, SortedMap.entries_nil_of_get? hrest.writes,
    SortedMap.entries_nil_of_get? (h.scans_rest hstuck), fun e he => ?_⟩, hrest.group,
    fun k task hk => (h.pushes_rest hstuck hrest hk).2,
    fun r task hr => (h.reserves_rest hstuck hr).2,
    fun hclosed k => ?_, fun t ht => ?_⟩
  · exact (h.pushes_rest hstuck hrest (SortedMap.get?_eq_some.mpr he)).1
  · exact (h.reserves_rest hstuck (SortedMap.get?_eq_some.mpr he)).1
  · exact hrest.guards e.1 e.2 (SortedMap.get?_eq_some.mpr he)
  · rcases hk : p.pushes.get? k with _ | task
    · rfl
    · -- a push that waits on a closed queue would be owed a wake
      obtain ⟨hasleep, hwaiting⟩ := h.pushes_rest hstuck hrest hk
      have hwaits : task.waits = true := h.tied.pushes.sleeps k task hk hasleep
      have hfull : task.isFull = true := by simp [PushTask.isFull, hwaits, hasleep]
      have hpos := h.trials.closed k ⟨hwaiting, task, hk, hfull⟩ hclosed
      rw [hroom] at hpos
      cases hpos
  · -- nobody but the consumer holds a guard
    obtain ⟨g, gd, hg, rfl⟩ := (h.tied.paired.reserved t).mp ht
    refine ⟨g, ?_, gd, hg, rfl, hrest.guards g gd hg⟩
    have hcount := (h.tied.held.held g).count
    have hfinders : Facade.finders p.reserves g = 0 := by
      refine SortedMap.sum_eq_zero_iff.mpr fun r task hr => ?_
      rw [(h.reserves_rest hstuck hr).1]
      rfl
    have hstage : p.ackStage g = none := by rw [Facade.ackStage, hacks]; rfl
    by_contra hnot
    simp only [Facade.holders, Facade.tally_of_notMem hnot, hdoomed, hstage, hfinders, hg,
      Facade.tally_of_notMem (Finset.notMem_empty g), Option.elim_none, Option.isSome_some,
      if_true] at hcount
    cases hcount

end Pool

/-- **Every future returns or sleeps.** From any state of any run of the facade, under every
policy, whatever futures were dropped and whatever commits came to: left to itself it does not
go on for ever, in whatever order its tasks and closures go on and whatever their commits come
to; when nothing can go on, it is at rest; and it can be brought to that. -/
theorem futures_settle {b : Builder} {st : Store} {s₀ : Session} {p : Pool} {as : List PoolAct}
    (hopen : Opens b st s₀) (hrun : Run Pool.step Pool.AnyOrder (Pool.opened s₀) as p) :
    ¬Endless Pool.step Pool.GoesOn p ∧
    (∀ bs q, Run Pool.step Pool.GoesOn p bs q → Stuck Pool.step Pool.GoesOn q →
      q.queue.inner.tail < u64Max → q.AtRest) ∧
    ∃ bs q, Run Pool.step Pool.GoesOn p bs q ∧ Stuck Pool.step Pool.GoesOn q := by
  have hkept : p.Kept :=
    hrun.invariant (fun _ _ _ h hok hs => h.step hok hs) (Pool.kept_opened hopen)
  have hwork : ∀ p a q, Pool.Kept p → p.GoesOn a → p.step a = some q →
      q.Kept ∧ q.work < p.work := fun _ _ _ h hok hs => h.step_work hok hs
  refine ⟨not_endless Pool.work hwork hkept, fun bs q hgo hstuck htail => ?_,
    exists_stuck Pool.work hwork hkept⟩
  exact (hgo.invariant (fun p a q h hok hs => (hwork p a q h hok hs).1) hkept).atRest hstuck htail

/-- The leader's batch has landed while the closure of the other push waits for the outcome,
and a third push sleeps on `room`. The future of a reserve is dropped while its closure
scans, and the closure finds an item. -/
def leftAlone : List PoolAct :=
  [.task (.push [1] true), .task (.push [2] true), .task (.push [3] true),
    .task (.queue (.turn (.attempt 1))), .task (.queue (.turn (.attempt 2))),
    .task (.queue (.turn (.attempt 3))), .task (.pushed 3),
    .task (.queue (.enter 0)), .task (.queue (.enter 1)),
    .task .reserve, .task (.queue (.turn (.reserve 0))), .task (.queue (.flush 0 .ok)),
    .task (.queue (.turn (.seek 0 true))), .task (.dropReserve 0),
    .task (.queue (.turn (.check 0 0)))]

theorem futures_settle_left_alone :
    ∃ p, Run Pool.step Pool.AnyOrder
        (Pool.opened (Session.fresh (Builder.group64.setCapacity 2 (by decide) (by decide))))
        leftAlone p ∧
      p.asleep = {1} ∧ p.doomed = {0} ∧ p.pushes.get? 3 = some ⟨true, [3], .asleep⟩ ∧
      ¬Endless Pool.step Pool.GoesOn p ∧
      (∀ bs q, Run Pool.step Pool.GoesOn p bs q → Stuck Pool.step Pool.GoesOn q →
        q.queue.inner.tail < u64Max → q.AtRest) ∧
      ∃ bs q, Run Pool.step Pool.GoesOn p bs q ∧ Stuck Pool.step Pool.GoesOn q := by
  have hrun : ∃ p, Run Pool.step Pool.AnyOrder
      (Pool.opened (Session.fresh (Builder.group64.setCapacity 2 (by decide) (by decide))))
      leftAlone p ∧ p.asleep = {1} ∧ p.doomed = {0} ∧
      p.pushes.get? 3 = some ⟨true, [3], .asleep⟩ := by decide
  obtain ⟨p, hrun, hasleep, hdoomed, hk⟩ := hrun
  exact ⟨p, hrun, hasleep, hdoomed, hk, futures_settle (opens_fresh _) hrun⟩

end PersistentQueue
