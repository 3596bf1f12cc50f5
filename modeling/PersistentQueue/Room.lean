import PersistentQueue.Accounting
import PersistentQueue.Tasks

/-!
# Async producers and the room

A push that was answered `Full` sleeps on `room` until it is woken. With `max_bytes`
unbounded every free slot can be taken by any of them, so it is enough to count: while such
a push waits and was not woken, the free slots are at most the wakes in flight
(`Facade.wakes`), which are the notifications on their way to a future, the acks that are
about to send one, and the attempts about to be made. A producer that barges in brings an
attempt and takes a slot; a woken push takes a wake, and a slot or the last free one is
gone; an ack frees a slot and owes a wake.

Only a slot that is freed with no notification owed upsets the count, and only while a push
waits for it and no wake is left over (`Facade.Spared`). A push whose write fails frees one
so: it signals the condvar of the queue, on which no async push waits, and not `room`.
-/

namespace PersistentQueue

/-- The push was answered `Full`, and sleeps or is about to. -/
def PushTask.isFull (task : PushTask) : Bool :=
  task.waits && (task.stage == .refused .full || task.stage == .asleep)

/-- The ack is about to notify. -/
def AckTask.owes (task : AckTask) : ℕ := if task = ⟨true, .done true⟩ then 1 else 0

/-- Whether a turn has to do with the room: it is part of a push, frees a slot, or closes. -/
def Turn.aboutRoom : Turn → Bool
  | .call _ _ | .attempt _ | .giveBack _ | .record _ | .close => true
  | _ => false

namespace Facade

variable {f f' : Facade} {a : AsyncAct} {k : ℕ}

/-- The push was answered `Full`, and was not woken since it registered. -/
def Waits (f : Facade) (k : ℕ) : Prop :=
  k ∈ f.room.waiting ∧ ∃ task ∈ f.pushes.get? k, task.isFull = true

instance (f : Facade) (k : ℕ) : Decidable (f.Waits k) :=
  inferInstanceAs (Decidable (_ ∧ ∃ task ∈ f.pushes.get? k, _))

/-- The free slots. -/
def free (f : Facade) : ℕ := f.queue.cfg.capacity - f.queue.inner.len

/-- The free slots after one more was freed. -/
def freed (f : Facade) : ℕ :=
  f.queue.cfg.capacity - Word.wrapSub f.queue.cfg.usizeBits f.queue.inner.len 1

/-- The wakes in flight for `room`. -/
def wakes (f : Facade) : ℕ :=
  f.room.one.card + f.acks.sum (fun _ task => task.owes) + f.queue.calls.size

/-- While a push waits, every free slot has a wake, and every close a notification to come. -/
structure Roomy (f : Facade) : Prop where
  slots : ∀ k, f.Waits k → f.queue.inner.closed = false → f.free ≤ f.wakes
  closed : ∀ k, f.Waits k → f.queue.inner.closed = true → 0 < f.closingRoom

/-- If a push waits, there are wakes for this many slots. -/
def Spare (f : Facade) (slots : ℕ) : Prop :=
  f.queue.inner.closed = true ∨ (∀ k ∈ f.room.waiting, ¬f.Waits k) ∨ slots ≤ f.wakes

instance (f : Facade) (slots : ℕ) : Decidable (f.Spare slots) :=
  inferInstanceAs (Decidable (_ ∨ _ ∨ _))

/-- Where the step frees a slot, or takes back a wake, with nobody told, there are wakes to
spare: a failed push gives back its slot, the ack of a future that is gone is recorded, or
an ack is dropped that was about to notify. -/
def Spared (f : Facade) : AsyncAct → Prop
  | .queue (.turn (.giveBack _)) => f.Spare f.freed
  | .queue (.turn (.record g)) => (∃ task ∈ f.acks.get? g, task.live = false) → f.Spare f.freed
  | .dropAck g => (∃ task ∈ f.acks.get? g, task.owes = 1) → f.Spare (f.free + 1)
  | _ => True

instance (f : Facade) : DecidablePred f.Spared
  | .queue (.turn (.giveBack _)) => inferInstanceAs (Decidable (f.Spare f.freed))
  | .queue (.turn (.record g)) =>
    inferInstanceAs (Decidable ((∃ task ∈ f.acks.get? g, _) → f.Spare f.freed))
  | .dropAck g => inferInstanceAs (Decidable ((∃ task ∈ f.acks.get? g, _) → f.Spare (f.free + 1)))
  | .queue (.turn (.call _ _)) | .queue (.turn (.attempt _)) | .queue (.turn .close)
  | .queue (.turn (.reserve _)) | .queue (.turn (.seek _ _)) | .queue (.turn (.check _ _))
  | .queue (.turn (.ack _ _)) | .queue (.turn (.release _)) | .queue (.commit _ _)
  | .queue (.enter _) | .queue (.flush _ _) | .queue (.record _) | .queue (.wake _)
  | .queue (.retry _ _) | .push _ _ | .pushed _ | .retry _ | .dropPush _ | .reserve | .reserved _
  | .rescan _ | .dropReserve _ | .ack _ | .acked _ | .nack _ | .notifyItems | .close | .closeRoom
  | .closeItems => isTrue trivial

theorem roomy_opened (s : Session) : (opened s).Roomy :=
  ⟨fun _ h => (by cases h.1), fun _ h => (by cases h.1)⟩

/-- The wakes grow at least as much as the free slots. -/
theorem Roomy.mono (h : f.Roomy) (hwaits : ∀ k, f'.Waits k → f.Waits k)
    (hclosed : f'.queue.inner.closed = f.queue.inner.closed)
    (hclosing : f.closingRoom ≤ f'.closingRoom)
    (hslots : ∀ k, f'.Waits k → f.queue.inner.closed = false →
      f'.free + f.wakes ≤ f.free + f'.wakes) : f'.Roomy := by
  refine ⟨fun k hk hopen => ?_, fun k hk hc => ?_⟩
  · rw [hclosed] at hopen
    have hold := h.slots k (hwaits k hk) hopen
    have hgrow := hslots k hk hopen
    omega
  · rw [hclosed] at hc
    exact (h.closed k (hwaits k hk) hc).trans_le hclosing

/-- A step that has no part in the room. -/
theorem Roomy.same (h : f.Roomy) (hroom : f'.room = f.room) (hpushes : f'.pushes = f.pushes)
    (hcfg : f'.queue.cfg = f.queue.cfg) (hlen : f'.queue.inner.len = f.queue.inner.len)
    (hclosed : f'.queue.inner.closed = f.queue.inner.closed)
    (hcalls : f'.queue.calls = f.queue.calls) (hclosing : f'.closingRoom = f.closingRoom)
    (hacks : f.acks.sum (fun _ task => task.owes) ≤ f'.acks.sum fun _ task => task.owes) :
    f'.Roomy := by
  refine h.mono (fun k hk => ?_) hclosed hclosing.ge fun _ _ _ => ?_
  · rw [Waits, hroom, hpushes] at hk
    exact hk
  · simp only [free, wakes, hroom, hcfg, hlen, hcalls]
    omega

/-- There were wakes to spare for the slots there are now. -/
theorem Spare.roomy (h : f.Roomy) {slots : ℕ} (hspare : f.Spare slots)
    (hwaits : ∀ k, f'.Waits k → f.Waits k)
    (hclosed : f'.queue.inner.closed = f.queue.inner.closed)
    (hclosing : f.closingRoom ≤ f'.closingRoom)
    (hslots : slots ≤ f.wakes → f'.free ≤ f'.wakes) : f'.Roomy := by
  refine ⟨fun k hk hopen => ?_, fun k hk hc => ?_⟩
  · rw [hclosed] at hopen
    rcases hspare with hc | hnone | hle
    · rw [hopen] at hc
      cases hc
    · exact absurd (hwaits k hk) (hnone k (hwaits k hk).1)
    · exact hslots hle
  · rw [hclosed] at hc
    exact (h.closed k (hwaits k hk) hc).trans_le hclosing

/-- The future of a push is gone. -/
theorem Roomy.endPush (h : f.Roomy) (hroom : f.room.Wf) (k : ℕ) (task : PushTask) :
    (f.endPush k task).Roomy := by
  have hwaiting : ∀ k', (f.endPush k task).Waits k' → f.Waits k' ∧ k' ≠ k := by
    rintro k' ⟨hmem, task', hk', hfull⟩
    obtain ⟨hne, hk'⟩ := SortedMap.of_get?_erase hk'
    refine ⟨⟨?_, task', hk', hfull⟩, hne⟩
    simp only [Facade.endPush] at hmem
    split at hmem
    · exact (Notify.waiting_drop hmem).1
    · exact hmem
  refine h.mono (fun k' hk' => (hwaiting k' hk').1) rfl (le_refl _) fun k' hk' _ => ?_
  have hone : f.room.one.card ≤ (f.endPush k task).room.one.card := by
    simp only [Facade.endPush]
    split
    · exact hroom.card_drop (hwaiting k' hk').1.1 (hwaiting k' hk').2
    · exact le_refl _
  simp only [free, wakes, Facade.endPush] at hone ⊢
  omega

/-- With `max_bytes` unbounded only the capacity counts. -/
theorem admits_unbounded {b : Builder} (hbytes : b.maxBytes = Word.maxVal b.usizeBits)
    {len bytes v : ℕ} : b.admits len bytes v = decide (len < b.capacity) := by
  have hfits : Word.satAdd b.usizeBits bytes v ≤ b.maxBytes := hbytes ▸ min_le_right _ _
  simp [Builder.admits, hfits]

/-- A claim takes a slot that was free. -/
theorem free_claim {len capacity w : ℕ} (hle : capacity ≤ Word.maxVal w) (hroom : len < capacity) :
    capacity - Word.wrapAdd w len 1 + 1 = capacity - len := by
  have hlt := Word.lt_of_le_maxVal hle
  rw [Word.wrapAdd_of_lt (by omega)]
  omega

/-- An ack frees at most one slot. -/
theorem free_wrapSub (capacity : ℕ) {len w : ℕ} (hlen : len < 2 ^ w) :
    capacity - Word.wrapSub w len 1 ≤ capacity - len + 1 := by
  rcases Nat.eq_zero_or_pos len with rfl | hpos
  · omega
  · rw [Word.wrapSub_of_le hlen hpos]
    omega

theorem room_moved {l l' : Ledger} {b : Turn} (hm : Ledger.Moved l (.turn b) l')
    (hb : b.aboutRoom = false) : l'.inner.len = l.inner.len ∧ l'.inner.closed = l.inner.closed ∧
      l'.calls = l.calls := by
  cases hm with
  | call | turnedAway | waits | claim | giveBack | record | close => cases hb
  | reserve | ended | found | skipped | handedOut | remove | release => exact ⟨rfl, rfl, rfl⟩

/-- An ack that owes nothing moves on. -/
theorem sum_owes_insert {acks : SortedMap ℕ AckTask} {g : ℕ} {task : AckTask}
    (hg : acks.get? g = some task) (howes : task.owes = 0) (task' : AckTask) :
    acks.sum (fun _ task => task.owes) ≤ (acks.insert g task').sum fun _ task => task.owes := by
  have hsum := SortedMap.sum_insert_of_some (fun _ task => AckTask.owes task) task' hg
  omega

/-- An ack that owes nothing is gone. -/
theorem sum_owes_erase {acks : SortedMap ℕ AckTask} {g : ℕ} {task : AckTask}
    (hg : acks.get? g = some task) (howes : task.owes = 0) :
    acks.sum (fun _ task => task.owes) ≤ (acks.erase g).sum fun _ task => task.owes := by
  have hsum := SortedMap.sum_erase_add (fun _ task => AckTask.owes task) hg
  omega

/-- An attempt takes a slot, or is turned away by a closed queue or one with nothing free. -/
theorem Roomy.attempted {l : Ledger} {k : ℕ} (h : f.Roomy) (hlinks : f.PushLinks)
    (hbytes : f.queue.cfg.maxBytes = Word.maxVal f.queue.cfg.usizeBits)
    (hm : Ledger.Moved f.queue.toLedger (.turn (.attempt k)) l) (pushes : SortedMap ℕ PushTask)
    (hwaits : f.decides k ≠ .refused .full → f.decides k ≠ .asleep → ∀ k',
      ({ f with queue := { f.queue with toLedger := l }, pushes } : Facade).Waits k' → f.Waits k') :
    ({ f with queue := { f.queue with toLedger := l }, pushes } : Facade).Roomy := by
  obtain ⟨c, hc, hcases⟩ := hlinks.attempted hm
  have hsize := SortedMap.size_erase_add hc
  rcases hcases with ⟨hdecides, hopen, hroom, rfl⟩ |
    ⟨rfl, ⟨hdecides, hclosed⟩ | ⟨hdecides, hopen, hfull⟩⟩
  · rw [admits_unbounded hbytes, decide_eq_true_iff] at hroom
    refine h.mono (hwaits (by simp [hdecides]) (by simp [hdecides])) rfl (le_refl _) fun k' _ _ => ?_
    have hfree := free_claim f.queue.cfg.capacity_le hroom
    simp only [free, wakes, Ledger.claim, Inner.claim]
    omega
  · refine h.mono (hwaits (by simp [hdecides]) (by simp [hdecides])) rfl (le_refl _)
      fun _ _ hopen => ?_
    rw [hclosed] at hopen
    cases hopen
  · -- the queue was full, so nothing is free
    rw [admits_unbounded hbytes, decide_eq_false_iff_not] at hfull
    refine ⟨fun _ _ _ => ?_, fun _ _ hclosed => ?_⟩
    · simp only [free]
      omega
    · simp only [hopen] at hclosed
      cases hclosed

theorem Proceeds.roomy {D : Discipline} {s : Session} {b : Act} (h : f.Roomy)
    (hlinks : f.PushLinks) (hcoupled : Coupled f.queue)
    (hlen : f.queue.inner.len < 2 ^ f.queue.cfg.usizeBits)
    (hbytes : f.queue.cfg.maxBytes = Word.maxVal f.queue.cfg.usizeBits) (hok : D.act f.queue b)
    (hspared : f.Spared (.queue b)) (hs : f.queue.step b = some s) (hp : f.Proceeds s b f') :
    f'.Roomy := by
  cases hp with
  | write hturn =>
    have hc := (hcoupled.committed hok hturn hs).1
    exact h.same rfl rfl hc.cfg (congrArg _ hc.inner) (congrArg _ hc.inner) hc.calls rfl (le_refl _)
  | @attempt k waits value hk =>
    obtain ⟨l, hm, rfl⟩ := moved_of_turn hs
    refine h.attempted hlinks hbytes hm _ fun hfull hasleep k' hk' => ?_
    obtain ⟨hmem, task, hk', hisFull⟩ := hk'
    refine ⟨hmem, task, ?_, hisFull⟩
    rcases SortedMap.of_get?_insert hk' with ⟨-, rfl⟩ | ⟨-, hk'⟩
    · simp [PushTask.isFull, hfull, hasleep] at hisFull
    · exact hk'
  | attemptAlone =>
    obtain ⟨l, hm, rfl⟩ := moved_of_turn hs
    exact h.attempted hlinks hbytes hm f.pushes fun _ _ _ hk' => hk'
  | @giveBack seq w waits value hw hk =>
    obtain ⟨l, hm, rfl⟩ := moved_of_turn hs
    cases hm with
    | giveBack =>
      refine Spare.roomy h hspared (fun k' hk' => ?_) rfl (le_refl _) fun hslots => hslots
      obtain ⟨hmem, task, hk', hfull⟩ := hk'
      refine ⟨hmem, task, ?_, hfull⟩
      rcases SortedMap.of_get?_insert hk' with ⟨-, rfl⟩ | ⟨-, hk'⟩
      · simp [PushTask.isFull] at hfull
      · exact hk'
  | giveBackAlone =>
    obtain ⟨l, hm, rfl⟩ := moved_of_turn hs
    cases hm with
    | giveBack =>
      exact Spare.roomy h hspared (fun k' hk' => hk') rfl (le_refl _) fun hslots => hslots
  | @recordAlone g hg =>
    obtain ⟨l, hm, rfl⟩ := moved_of_turn hs
    have hsum := sum_owes_erase hg (if_neg (by simp))
    cases hm with
    | record =>
      refine Spare.roomy h (hspared ⟨_, hg, rfl⟩) (fun k' hk' => hk') Inner.recordAck_closed
        (le_refl _) fun hslots => ?_
      simp only [free, freed, wakes, Inner.recordAck_len] at hslots ⊢
      omega
  | @record g hg =>
    obtain ⟨l, hm, rfl⟩ := moved_of_turn hs
    have hsum := SortedMap.sum_insert_of_some (fun _ task => AckTask.owes task)
      (⟨true, .done true⟩ : AckTask) hg
    cases hm with
    | record =>
      refine h.mono (fun k' hk' => hk') Inner.recordAck_closed (le_refl _) fun k' _ _ => ?_
      have hfree := free_wrapSub f.queue.cfg.capacity hlen
      simp only [free, wakes, Inner.recordAck_len, AckTask.owes, if_true, reduceCtorEq,
        AckTask.mk.injEq, and_false, if_false] at hsum ⊢
      omega
  | begins | ended | endedAlone | seeksOn | found | foundAlone | checksOn | releaseDoomed =>
    obtain ⟨l, hm, rfl⟩ := moved_of_turn hs
    obtain ⟨hlen', hclosed, hcalls⟩ := room_moved hm rfl
    exact h.same rfl rfl (Ledger.cfg_moved hm) hlen' hclosed hcalls rfl (le_refl _)
  | ack o hg | release hg =>
    obtain ⟨l, hm, rfl⟩ := moved_of_turn hs
    obtain ⟨hlen', hclosed, hcalls⟩ := room_moved hm rfl
    refine h.same rfl rfl (Ledger.cfg_moved hm) hlen' hclosed hcalls rfl ?_
    exact sum_owes_insert hg (if_neg (by simp)) _
  | releaseAlone hg =>
    obtain ⟨l, hm, rfl⟩ := moved_of_turn hs
    obtain ⟨hlen', hclosed, hcalls⟩ := room_moved hm rfl
    exact h.same rfl rfl (Ledger.cfg_moved hm) hlen' hclosed hcalls rfl
      (sum_owes_erase hg (if_neg (by simp)))

/-- A push that starts an attempt does not wait for the room. -/
theorem of_waits_started {room : Notify ℕ} {pushes : SortedMap ℕ PushTask} {n : ℕ} {waits : Bool}
    {value : Bytes} (hroom : f'.room = if waits then room.enable n else room)
    (hpushes : f'.pushes = pushes.insert n { waits, value, stage := .trying })
    (h : f'.Waits k) : k ∈ room.waiting ∧ ∃ task ∈ pushes.get? k, task.isFull = true := by
  obtain ⟨hmem, task, hk, hfull⟩ := h
  rw [hpushes] at hk
  rcases SortedMap.of_get?_insert hk with ⟨-, rfl⟩ | ⟨hne, hk⟩
  · simp [PushTask.isFull] at hfull
  · refine ⟨?_, task, hk, hfull⟩
    rw [hroom] at hmem
    split at hmem
    · exact (Notify.waiting_enable hmem).resolve_right hne
    · exact hmem

theorem Stepped.roomy {D : Discipline} (h : f.Roomy) (hlinks : f.PushLinks)
    (hcoupled : Coupled f.queue) (hown : f.queue.OwnCalls)
    (hlen : f.queue.inner.len < 2 ^ f.queue.cfg.usizeBits)
    (hbytes : f.queue.cfg.maxBytes = Word.maxVal f.queue.cfg.usizeBits) (hok : f.Keeps D a)
    (hspared : f.Spared a) (hstep : f.Stepped a f') : f'.Roomy := by
  have hcall : ∀ value, (f.queue.calls.insert f.queue.log.length ⟨value, false⟩).size =
      f.queue.calls.size + 1 := fun value => SortedMap.size_insert_of_none _ hown.fresh
  cases hstep with
  | @push value waits s hs =>
    obtain rfl := Option.some.inj hs
    refine h.mono (fun k' => of_waits_started rfl rfl) rfl (le_refl _) fun _ _ _ => ?_
    simp only [free, wakes, apply_ite Notify.one, Notify.one_enable, ite_self, hcall]
    omega
  | @retry k waits value s hk hready hs =>
    obtain rfl := Option.some.inj hs
    -- the push used up a wake, and is about to try
    have hcard := Notify.card_forget (n := f.room) (i := k)
    refine h.mono (fun k' hk' => ?_) rfl (le_refl _) fun _ _ _ => ?_
    · obtain ⟨hmem, task, hk', hfull⟩ := of_waits_started rfl rfl hk'
      exact ⟨(Notify.waiting_forget.mp hmem).1, task, (SortedMap.of_get?_erase hk').2, hfull⟩
    · simp only [free, wakes, apply_ite Notify.one, Notify.one_enable, ite_self, hcall]
      omega
  | @pushed k waits value hk hok =>
    obtain ⟨hslots, hclosed⟩ := h.endPush hlinks.room k ⟨waits, value, .writing⟩
    exact ⟨hslots, hclosed⟩
  | @full k value hk =>
    refine h.mono (fun k' hk' => ?_) rfl (le_refl _) fun _ _ _ => le_refl _
    obtain ⟨hmem, task, hk', hfull⟩ := hk'
    rcases SortedMap.of_get?_insert hk' with ⟨rfl, -⟩ | ⟨-, hk'⟩
    · exact ⟨hmem, _, hk, rfl⟩
    · exact ⟨hmem, task, hk', hfull⟩
  | refused | dropPush => exact h.endPush hlinks.room _ _
  | @ack g hg hnone =>
    refine h.same rfl rfl rfl rfl rfl rfl rfl ?_
    have hsum := SortedMap.sum_insert_of_none (fun _ task => AckTask.owes task)
      (⟨true, .starting⟩ : AckTask) hnone
    exact (Nat.le_add_right _ _).trans hsum.ge
  | @acked g hg =>
    have hsum := SortedMap.sum_erase_add (fun _ task => AckTask.owes task) hg
    refine h.mono (fun k' hk' => ⟨Notify.mem_waiting_notifyOne hk'.1, hk'.2⟩) rfl (le_refl _)
      fun k' hk' _ => ?_
    have hcard := hlinks.room.card_notifyOne
      (List.ne_nil_of_mem (Notify.mem_waiting_notifyOne hk'.1))
    simp only [free, wakes, hcard, AckTask.owes, if_true] at hsum ⊢
    omega
  | ackFailed hg => exact h.same rfl rfl rfl rfl rfl rfl rfl (sum_owes_erase hg (if_neg (by simp)))
  | @dropAcked g ok hg =>
    cases ok with
    | true =>
      have hsum := SortedMap.sum_erase_add (fun _ task => AckTask.owes task) hg
      refine Spare.roomy h (hspared ⟨_, hg, rfl⟩) (fun k' hk' => hk') rfl (le_refl _)
        fun hslots => ?_
      simp only [free, wakes, AckTask.owes, if_true] at hsum hslots ⊢
      omega
    | false =>
      exact h.same rfl rfl rfl rfl rfl rfl rfl (sum_owes_erase hg (if_neg (by simp)))
  | dropAck hg hstage =>
    exact h.same rfl rfl rfl rfl rfl rfl rfl (sum_owes_insert hg (if_neg (by simp [hstage])) _)
  | nack hg hs =>
    obtain ⟨l, hm, rfl⟩ := moved_of_turn hs
    obtain ⟨hlen', hclosed, hcalls⟩ := room_moved hm rfl
    exact h.same rfl rfl (Ledger.cfg_moved hm) hlen' hclosed hcalls rfl (le_refl _)
  | close hs =>
    obtain ⟨l, hm, rfl⟩ := moved_of_turn hs
    cases hm with
    | close => exact ⟨fun _ _ hopen => (by cases hopen), fun _ _ _ => Nat.succ_pos _⟩
  | closeRoom => exact ⟨fun _ hk => (by cases hk.1), fun _ hk => (by cases hk.1)⟩
  | reserve | reserved | none | sleeps | failed | rescan | dropScan | dropFound | dropReserve
  | notifyItems | closeItems => exact h.same rfl rfl rfl rfl rfl rfl rfl (le_refl _)
  | queue hs hp => exact hp.roomy h hlinks hcoupled hlen hbytes (hok _ rfl) hspared hs

/-- At rest, a push that sleeps waits. -/
theorem waits_of_still (hlinks : f.PushLinks) (hstill : f.Still) (hidle : f.room.Idle)
    {task : PushTask} (hk : f.pushes.get? k = some task) : f.Waits k := by
  have hasleep : task.stage = .asleep := hstill.1 _ (SortedMap.get?_eq_some.mp hk)
  have hwaits := hlinks.sleeps k task hk hasleep
  refine ⟨hidle.waiting (hlinks.known k task hk hwaits), task, hk, ?_⟩
  simp [PushTask.isFull, hwaits, hasleep]

/-- At rest there are no wakes in flight. -/
theorem wakes_of_still (hstill : f.Still) (hidle : f.room.Idle) : f.wakes = 0 := by
  obtain ⟨-, -, hacks, -, -, -, -, hcalls, -⟩ := hstill
  simp [wakes, hidle.2.1, SortedMap.sum, SortedMap.size, hacks, hcalls]

/-- At rest no push sleeps with room in the queue. -/
theorem Roomy.of_still (h : f.Roomy) (hlinks : f.PushLinks) (hstill : f.Still)
    (hidle : f.room.Idle) {task : PushTask} (hk : f.pushes.get? k = some task) :
    f.queue.inner.closed = false ∧ f.queue.cfg.capacity ≤ f.queue.inner.len := by
  have hwaits := waits_of_still hlinks hstill hidle hk
  have hopen : f.queue.inner.closed = false := by
    rcases hc : f.queue.inner.closed
    · rfl
    · have hpos := h.closed k hwaits hc
      have hzero : f.closingRoom = 0 := hstill.2.2.2.2.2.1
      omega
  have hslots := h.slots k hwaits hopen
  rw [wakes_of_still hstill hidle, free] at hslots
  exact ⟨hopen, by omega⟩

/-- No future is dropped, commits that fail have applied nothing, and no slot is freed with
nobody told while a push waits for it. -/
def KeepsRoom (f : Facade) (a : AsyncAct) : Prop := f.Completes a ∧ f.Spared a

instance (f : Facade) : DecidablePred f.KeepsRoom :=
  fun a => inferInstanceAs (Decidable (f.Completes a ∧ f.Spared a))

end Facade

/-- **A push sleeps only while the queue is full.** With `max_bytes` unbounded, in every run
without dropped futures in which no failed push gives back a slot that a waiting push has no
wake for: when nothing is in progress but sleeping pushes and no wake is on its way, a push
sleeps only on an open queue without a free slot. -/
theorem push_sleeps_only_when_full {b : Builder} {st : Store} {s₀ : Session} {f : Facade}
    {as : List AsyncAct} (hopen : Opens b st s₀) (hbytes : b.maxBytes = Word.maxVal b.usizeBits)
    (hrun : Run Facade.step Facade.KeepsRoom (Facade.opened s₀) as f) (hstill : f.Still)
    (hidle : f.room.Idle) {k : ℕ} {task : PushTask} (hk : f.pushes.get? k = some task) :
    f.queue.inner.closed = false ∧ f.queue.cfg.capacity ≤ f.queue.inner.len := by
  obtain ⟨hfresh, -⟩ := hopen.fresh
  have hcfg : s₀.cfg = b := hfresh.cfg_eq
  obtain ⟨-, -, hlinks, hroomy⟩ := Facade.invariant (D := cleanFailures)
    (I := fun l => l.Counted ∧ l.OwnCalls ∧ l.cfg = b) (J := fun f => f.PushLinks ∧ f.Roomy)
    hrun hopen.coupled ⟨Ledger.counted_opened hfresh, Ledger.ownCalls_opened hfresh, hcfg⟩
    ⟨Facade.pushLinks_opened hfresh, Facade.roomy_opened s₀⟩ (fun f a h => h.1.1)
    (fun l m l' hwf ⟨hcounted, hown, hcfg⟩ _ hm =>
      ⟨hcounted.moved hwf hm, hown.moved hm, (Ledger.cfg_moved hm).trans hcfg⟩)
    (fun f a f' hcoupled ⟨hcounted, hown, hcfg⟩ ⟨hlinks, hroomy⟩ hok hstep _ =>
      ⟨hstep.pushLinks hlinks hcoupled hown hok.1.1,
        hstep.roomy hroomy hlinks hcoupled hown hcounted.len_lt (hcfg ▸ hbytes) hok.1.1 hok.2⟩)
  exact hroomy.of_still hlinks hstill hidle hk

/-- An ack wakes the push that sleeps, another one comes in before it, and it sleeps again. -/
def bargedIn : List AsyncAct :=
  [.push [1] true, .queue (.turn (.attempt 1)), .queue (.commit 0 .ok), .pushed 1,
    .push [2] true, .queue (.turn (.attempt 5)), .pushed 5,
    .reserve, .queue (.turn (.reserve 0)), .queue (.turn (.seek 0 true)),
    .queue (.turn (.check 0 0)), .reserved 0, .ack 0, .queue (.turn (.ack 0 .ok)),
    .queue (.turn (.record 0)), .acked 0, .notifyItems,
    .push [3] false, .queue (.turn (.attempt 10)), .queue (.commit 1 .ok), .pushed 10,
    .retry 5, .queue (.turn (.attempt 14)), .pushed 14]

theorem push_sleeps_only_when_full_barged :
    ∃ f, Run Facade.step Facade.KeepsRoom (Facade.opened (Session.fresh oneSlot64)) bargedIn f ∧
      f.Still ∧ f.room.Idle ∧ f.pushes.get? 14 = some ⟨true, [2], .asleep⟩ ∧
      f.queue.inner.closed = false ∧ f.queue.cfg.capacity ≤ f.queue.inner.len := by
  have hrun : ∃ f, Run Facade.step Facade.KeepsRoom (Facade.opened (Session.fresh oneSlot64))
      bargedIn f ∧ f.Still ∧ f.room.Idle ∧ f.pushes.get? 14 = some ⟨true, [2], .asleep⟩ := by
    decide
  obtain ⟨f, hrun, hstill, hidle, hk⟩ := hrun
  exact ⟨f, hrun, hstill, hidle, hk,
    push_sleeps_only_when_full (opens_fresh _) rfl hrun hstill hidle hk⟩

/-- A push takes the only slot, another one finds the queue full and sleeps. The first one's
write fails; it gives back the slot and returns the error, and nobody wakes the second. -/
theorem push_sleeps_next_to_a_slot :
    ∃ f, Run Facade.step Facade.Completes (Facade.opened (Session.fresh oneSlot64))
      [.push [1] true, .queue (.turn (.attempt 1)), .push [2] true, .queue (.turn (.attempt 3)),
        .pushed 3, .queue (.commit 0 .errClean), .queue (.turn (.giveBack 0)), .pushed 1] f ∧
      f.Still ∧ f.room.Idle ∧ f.pushes.get? 3 = some ⟨true, [2], .asleep⟩ ∧
      f.queue.inner.len < f.queue.cfg.capacity := by decide

end PersistentQueue
