import PersistentQueue.Guards
import PersistentQueue.Tasks

/-!
# Who holds an item

Behind the async facade an item that was handed out is in one place (`one_holder`): in the
consumer's hands, in the result of a reserve that was not polled since, in an ack, or on its
way back to the queue, when the future it was returned to is gone. So no future that is
dropped, at whatever await point, leaves an item reserved that nobody will give back or ack,
and none is held twice.
-/

namespace PersistentQueue

/-- Whether a reserve at this stage holds the guard. -/
def ReserveStage.holds (g : ℕ) : ReserveStage → ℕ
  | .found g' => if g' = g then 1 else 0
  | .starting | .scanning | .nothing | .failed | .asleep => 0

/-- Whether an ack at this stage holds its guard. -/
def AckStage.holds : AckStage → ℕ
  | .starting | .running => 1
  | .done _ => 0

/-- Whether a turn has to do with a guard. -/
def Turn.aboutGuards : Turn → Bool
  | .check _ _ | .ack _ _ | .record _ | .release _ => true
  | .call _ _ | .attempt _ | .giveBack _ | .close | .reserve _ | .seek _ _ => false

namespace Facade

variable {f f' : Facade} {a : AsyncAct} {g r : ℕ}

/-- Whether the guard is one of these. -/
def tally (guards : Finset ℕ) (g : ℕ) : ℕ := if g ∈ guards then 1 else 0

theorem tally_of_mem {guards : Finset ℕ} (h : g ∈ guards) : tally guards g = 1 := if_pos h

theorem tally_of_notMem {guards : Finset ℕ} (h : g ∉ guards) : tally guards g = 0 := if_neg h

theorem tally_congr {guards guards' : Finset ℕ} (h : g ∈ guards' ↔ g ∈ guards) :
    tally guards' g = tally guards g := by
  simp only [tally, h]

theorem mem_insert_of_ne {guards : Finset ℕ} {g' : ℕ} (hne : g' ≠ g) :
    g' ∈ insert g guards ↔ g' ∈ guards :=
  ⟨fun h => Finset.mem_of_mem_insert_of_ne h hne, Finset.mem_insert_of_mem⟩

theorem mem_erase_of_ne {guards : Finset ℕ} {g' : ℕ} (hne : g' ≠ g) :
    g' ∈ guards.erase g ↔ g' ∈ guards :=
  ⟨Finset.mem_of_mem_erase, Finset.mem_erase_of_ne_of_mem hne⟩

/-- How many results hold the guard. -/
def finders (reserves : SortedMap ℕ ReserveTask) (g : ℕ) : ℕ :=
  reserves.sum fun _ task => task.stage.holds g

/-- Where the ack of the guard stands. -/
def ackStage (f : Facade) (g : ℕ) : Option AckStage := (f.acks.get? g).map AckTask.stage

/-- How many hold the guard. -/
def holders (f : Facade) (g : ℕ) : ℕ :=
  tally f.hands g + tally f.doomed g + (f.ackStage g).elim 0 AckStage.holds +
    finders f.reserves g

/-- A guard that exists has one holder, and its ack has made the commit if that is running. -/
structure HeldAt (f : Facade) (g : ℕ) : Prop where
  count : f.holders g = if (f.queue.guards.get? g).isSome then 1 else 0
  acking : ∀ gd, f.queue.guards.get? g = some gd → (gd.pc ≠ .held ↔ f.ackStage g = some .running)

/-- The guards that exist are held, and an ack without a future is one that has to end. -/
structure Held (f : Facade) : Prop where
  held : ∀ g, f.HeldAt g
  dead : ∀ g stage, f.acks.get? g = some ⟨false, stage⟩ → stage.holds = 1

theorem held_opened {b : Builder} {s : Session} (h : FreshLedger b s.toLedger) :
    (opened s).Held := by
  have hguards : s.guards = SortedMap.empty := by rw [h.opened]; rfl
  refine ⟨fun g => ⟨?_, fun gd hg => ?_⟩, fun _ _ hg => by cases hg⟩
  · rw [show (opened s).queue.guards = s.guards from rfl, hguards]
    rfl
  · rw [show (opened s).queue.guards = s.guards from rfl, hguards] at hg
    cases hg

namespace HeldAt

/-- A step that is not about the guard. -/
theorem frame (h : f.HeldAt g) (hguards : f'.queue.guards.get? g = f.queue.guards.get? g)
    (hhands : g ∈ f'.hands ↔ g ∈ f.hands) (hdoomed : g ∈ f'.doomed ↔ g ∈ f.doomed)
    (hacks : f'.acks.get? g = f.acks.get? g)
    (hfinders : finders f'.reserves g = finders f.reserves g) : f'.HeldAt g := by
  have hstage : f'.ackStage g = f.ackStage g := congrArg _ hacks
  refine ⟨?_, ?_⟩
  · rw [hguards, ← h.count]
    simp only [holders, tally_congr hhands, tally_congr hdoomed, hstage, hfinders]
  · rw [hguards, hstage]
    exact h.acking

/-- Nobody holds a guard that does not exist. -/
theorem nobody (h : f.HeldAt g) (hnone : f.queue.guards.get? g = none) : f.holders g = 0 := by
  rw [h.count, hnone]
  rfl

/-- A guard with a holder exists, and only its ack takes it out of its holder's hands. -/
theorem exists_guard (h : f.HeldAt g) (hpos : 0 < f.holders g) :
    ∃ gd, f.queue.guards.get? g = some gd := by
  rcases hg : f.queue.guards.get? g with _ | gd
  · rw [h.nobody hg] at hpos
    cases hpos
  · exact ⟨gd, rfl⟩

theorem holders_le (h : f.HeldAt g) : f.holders g ≤ 1 := by
  rw [h.count]
  split
  · exact le_refl 1
  · exact Nat.zero_le 1

/-- Who has the guard in the end has it alone. -/
theorem erased (h : f.HeldAt g) (hpos : 0 < f.holders g)
    (hguards : f'.queue.guards.get? g = none) (hless : f'.holders g + 1 = f.holders g) :
    f'.HeldAt g := by
  have hle := h.holders_le
  refine ⟨?_, fun gd hg => ?_⟩
  · rw [hguards]
    simp only [Option.isSome_none, Bool.false_eq_true, if_false]
    omega
  · rw [hguards] at hg
    cases hg

/-- The guard moves to another holder, and no ack of it is running before or after. -/
theorem moved (h : f.HeldAt g) (hguards : f'.queue.guards.get? g = f.queue.guards.get? g)
    (hcount : f'.holders g = f.holders g) (hbefore : f.ackStage g ≠ some .running)
    (hafter : f'.ackStage g ≠ some .running) : f'.HeldAt g := by
  refine ⟨?_, fun gd hg => ?_⟩
  · rw [hguards, hcount]
    exact h.count
  · rw [hguards] at hg
    rw [h.acking gd hg]
    exact iff_of_false hbefore hafter

end HeldAt

theorem ackStage_of_get? {live : Bool} {stage : AckStage}
    (hg : f.acks.get? g = some ⟨live, stage⟩) : f.ackStage g = some stage := by
  rw [ackStage, hg]
  rfl

/-- A reserve at another stage. -/
theorem finders_insert {reserves : SortedMap ℕ ReserveTask} {task : ReserveTask}
    (hr : reserves.get? r = some task) (task' : ReserveTask) (g : ℕ) :
    finders (reserves.insert r task') g + task.stage.holds g =
      finders reserves g + task'.stage.holds g :=
  SortedMap.sum_insert_of_some (fun _ task => task.stage.holds g) task' hr

/-- A reserve is over. -/
theorem finders_erase {reserves : SortedMap ℕ ReserveTask} {task : ReserveTask}
    (hr : reserves.get? r = some task) (g : ℕ) :
    finders (reserves.erase r) g + task.stage.holds g = finders reserves g :=
  SortedMap.sum_erase_add (fun _ task => task.stage.holds g) hr

/-- A result that is used holds its guard no more, and every other is held as before. -/
theorem finders_erase_found {reserves : SortedMap ℕ ReserveTask} {live : Bool}
    (hr : reserves.get? r = some ⟨live, .found g⟩) :
    finders (reserves.erase r) g + 1 = finders reserves g ∧
      ∀ g', g' ≠ g → finders (reserves.erase r) g' = finders reserves g' := by
  refine ⟨?_, fun g' hne => ?_⟩
  · have hsum := finders_erase hr g
    simp only [ReserveStage.holds, if_true] at hsum
    exact hsum
  · have hsum := finders_erase hr g'
    simp only [ReserveStage.holds, if_neg (Ne.symm hne)] at hsum
    exact hsum

/-- The reserve whose result holds the guard is the only one to hold it. -/
theorem HeldAt.found (h : f.HeldAt g) {live : Bool}
    (hr : f.reserves.get? r = some ⟨live, .found g⟩) :
    g ∉ f.hands ∧ g ∉ f.doomed ∧ f.ackStage g ≠ some .running := by
  obtain ⟨hsum, -⟩ := finders_erase_found hr
  have hle := h.holders_le
  refine ⟨fun hg => ?_, fun hg => ?_, fun hg => ?_⟩
  · simp only [holders, tally_of_mem hg] at hle
    omega
  · simp only [holders, tally_of_mem hg] at hle
    omega
  · simp only [holders, hg, Option.elim_some, AckStage.holds] at hle
    omega

theorem guards_moved {l l' : Ledger} {b : Turn} (hm : Ledger.Moved l (.turn b) l')
    (hb : b.aboutGuards = false) : l'.guards = l.guards := by
  cases hm with
  | call | turnedAway | waits | claim | giveBack | close | reserve | ended | found => rfl
  | skipped | handedOut | remove | record | release => cases hb

namespace Held

/-- A step that leaves the guards and those who hold them. -/
theorem frame (h : f.Held) (hguards : f'.queue.guards = f.queue.guards)
    (hhands : f'.hands = f.hands) (hdoomed : f'.doomed = f.doomed) (hacks : f'.acks = f.acks)
    (hfinders : ∀ g, finders f'.reserves g = finders f.reserves g) : f'.Held := by
  refine ⟨fun g => ?_, fun g stage hg => h.dead g stage (hacks ▸ hg)⟩
  exact (h.held g).frame (by rw [hguards]) (by rw [hhands]) (by rw [hdoomed]) (by rw [hacks])
    (hfinders g)

/-- A reserve that holds no guard moves to a stage where it holds none. -/
theorem stage (h : f.Held) {task task' : ReserveTask} (hr : f.reserves.get? r = some task)
    (hguards : f'.queue.guards = f.queue.guards) (hhands : f'.hands = f.hands)
    (hdoomed : f'.doomed = f.doomed) (hacks : f'.acks = f.acks)
    (hreserves : f'.reserves = f.reserves.insert r task')
    (hstage : ∀ g, task'.stage.holds g = task.stage.holds g) : f'.Held := by
  refine h.frame hguards hhands hdoomed hacks fun g => ?_
  have hsum := finders_insert hr task' g
  rw [hstage g] at hsum
  rw [hreserves]
  omega

/-- A reserve that holds no guard goes. -/
theorem gone (h : f.Held) {task : ReserveTask} (hr : f.reserves.get? r = some task)
    (hguards : f'.queue.guards = f.queue.guards) (hhands : f'.hands = f.hands)
    (hdoomed : f'.doomed = f.doomed) (hacks : f'.acks = f.acks)
    (hreserves : f'.reserves = f.reserves.erase r) (hstage : ∀ g, task.stage.holds g = 0) :
    f'.Held := by
  refine h.frame hguards hhands hdoomed hacks fun g => ?_
  have hsum := finders_erase hr g
  rw [hstage g] at hsum
  rw [hreserves]
  omega

/-- A step about one guard. -/
theorem one (h : f.Held) (g : ℕ) (hself : f'.HeldAt g)
    (hguards : ∀ g', g' ≠ g → f'.queue.guards.get? g' = f.queue.guards.get? g')
    (hhands : ∀ g', g' ≠ g → (g' ∈ f'.hands ↔ g' ∈ f.hands))
    (hdoomed : ∀ g', g' ≠ g → (g' ∈ f'.doomed ↔ g' ∈ f.doomed))
    (hacks : ∀ g', g' ≠ g → f'.acks.get? g' = f.acks.get? g')
    (hfinders : ∀ g', g' ≠ g → finders f'.reserves g' = finders f.reserves g')
    (hdead : ∀ stage, f'.acks.get? g = some ⟨false, stage⟩ → stage.holds = 1) : f'.Held := by
  refine ⟨fun g' => ?_, fun g' stage hg' => ?_⟩
  · by_cases hne : g' = g
    · exact hne ▸ hself
    · exact (h.held g').frame (hguards g' hne) (hhands g' hne) (hdoomed g' hne) (hacks g' hne)
        (hfinders g' hne)
  · by_cases hne : g' = g
    · exact hdead stage (hne ▸ hg')
    · exact h.dead g' stage ((hacks g' hne).symm.trans hg')

/-- An ack whose commit returned is over, and its guard is gone. -/
theorem ackEnds (h : f.Held) {live : Bool} (hg : f.acks.get? g = some ⟨live, .running⟩)
    (hguards : f'.queue.guards = f.queue.guards.erase g) (hhands : f'.hands = f.hands)
    (hdoomed : f'.doomed = f.doomed) (hreserves : f'.reserves = f.reserves)
    (hacks : ∀ g', g' ≠ g → f'.acks.get? g' = f.acks.get? g')
    (hended : ∀ task, f'.acks.get? g = some task → task.live = true ∧ task.stage.holds = 0) :
    f'.Held := by
  have hfinders : ∀ g', finders f'.reserves g' = finders f.reserves g' := fun g' => by
    rw [hreserves]
  have hgone : (f'.ackStage g).elim 0 AckStage.holds = 0 := by
    rw [ackStage]
    rcases hg' : f'.acks.get? g with _ | task
    · rfl
    · exact (hended task hg').2
  have hcount : f'.holders g + 1 = f.holders g := by
    simp only [holders, hhands, hdoomed, hfinders, hgone, ackStage_of_get? hg, Option.elim_some,
      AckStage.holds]
    omega
  refine h.one g ?_ (fun g' hne => ?_) (fun _ _ => by rw [hhands]) (fun _ _ => by rw [hdoomed])
    hacks (fun g' _ => hfinders g') fun stage hg' => ?_
  · refine (h.held g).erased (by omega) ?_ hcount
    rw [hguards]
    exact SortedMap.get?_erase_self _ _
  · rw [hguards]
    exact SortedMap.get?_erase_ne _ hne
  · cases (hended _ hg').1

/-- A guard is released by who holds it. -/
theorem released (h : f.Held) (hguards : f'.queue.guards = f.queue.guards.erase g)
    (hhands : ∀ g', g' ≠ g → (g' ∈ f'.hands ↔ g' ∈ f.hands))
    (hdoomed : ∀ g', g' ≠ g → (g' ∈ f'.doomed ↔ g' ∈ f.doomed)) (hacks : f'.acks = f.acks)
    (hreserves : f'.reserves = f.reserves) (hcount : f'.holders g + 1 = f.holders g) :
    f'.Held := by
  refine h.one g ?_ (fun g' hne => ?_) hhands hdoomed (fun _ _ => by rw [hacks])
    (fun g' _ => by rw [hreserves]) fun stage hg' => h.dead g stage (hacks ▸ hg')
  · refine (h.held g).erased (by omega) ?_ hcount
    rw [hguards]
    exact SortedMap.get?_erase_self _ _
  · rw [hguards]
    exact SortedMap.get?_erase_ne _ hne

/-- The guard of a result passes to the consumer, or is about to be dropped. -/
theorem passed (h : f.Held) {live : Bool} (hr : f.reserves.get? r = some ⟨live, .found g⟩)
    (hqueue : f'.queue = f.queue) (hacks : f'.acks = f.acks)
    (hreserves : f'.reserves = f.reserves.erase r)
    (hhands : ∀ g', g' ≠ g → (g' ∈ f'.hands ↔ g' ∈ f.hands))
    (hdoomed : ∀ g', g' ≠ g → (g' ∈ f'.doomed ↔ g' ∈ f.doomed))
    (hone : tally f'.hands g + tally f'.doomed g = tally f.hands g + tally f.doomed g + 1) :
    f'.Held := by
  obtain ⟨-, -, hidle⟩ := (h.held g).found hr
  obtain ⟨hsum, hothers⟩ := finders_erase_found hr
  have hstage : f'.ackStage g = f.ackStage g := by rw [ackStage, hacks, ackStage]
  refine h.one g ((h.held g).moved (by rw [hqueue]) ?_ hidle (hstage ▸ hidle))
    (fun _ _ => by rw [hqueue]) hhands hdoomed (fun _ _ => by rw [hacks])
    (fun g' hne => by rw [hreserves, hothers g' hne])
    fun stage hg' => h.dead g stage (hacks ▸ hg')
  simp only [holders, hstage, hreserves]
  omega

/-- A guard is made for a reserve, whose future may be gone. -/
theorem handedOut (h : f.Held) {gd : Guard} (hpc : gd.pc = .held)
    (hnone : f.queue.guards.get? g = none) (hg : f.acks.get? g = none)
    (hguards : f'.queue.guards = f.queue.guards.insert g gd) (hhands : f'.hands = f.hands)
    (hdoomed : ∀ g', g' ≠ g → (g' ∈ f'.doomed ↔ g' ∈ f.doomed)) (hacks : f'.acks = f.acks)
    (hfinders : ∀ g', g' ≠ g → finders f'.reserves g' = finders f.reserves g')
    (hcount : f.holders g = 0 → f'.holders g = 1) : f'.Held := by
  have hstage : f'.ackStage g = none := by rw [ackStage, hacks, hg]; rfl
  refine h.one g ⟨?_, fun gd' hg' => ?_⟩ (fun g' hne => ?_) (fun _ _ => by rw [hhands]) hdoomed
    (fun _ _ => by rw [hacks]) hfinders fun stage hg' => h.dead g stage (hacks ▸ hg')
  · rw [hguards, SortedMap.get?_insert_self]
    exact hcount ((h.held g).nobody hnone)
  · rw [hguards, SortedMap.get?_insert_self] at hg'
    obtain rfl := Option.some.inj hg'
    rw [hstage]
    exact iff_of_false (fun hne => hne hpc) fun heq => by cases heq
  · rw [hguards]
    exact SortedMap.get?_insert_ne _ _ hne

end Held

theorem Proceeds.held {D : Discipline} {s : Session} {b : Act} (h : f.Held)
    (hcoupled : Coupled f.queue) (hok : D.act f.queue b) (hs : f.queue.step b = some s)
    (hp : f.Proceeds s b f') : f'.Held := by
  -- a turn that is about no guard
  have hturn : ∀ {b' : Turn}, b = .turn b' → b'.aboutGuards = false →
      s.guards = f.queue.guards := by
    rintro b' rfl hb
    obtain ⟨l, hm, rfl⟩ := moved_of_turn hs
    exact guards_moved hm hb
  cases hp with
  | write hnot =>
    exact h.frame (hcoupled.committed hok hnot hs).1.guards rfl rfl rfl fun _ => rfl
  | attempt | attemptAlone | giveBack | giveBackAlone | seeksOn =>
    exact h.frame (hturn rfl rfl) rfl rfl rfl fun _ => rfl
  | begins hr => exact h.stage hr (hturn rfl rfl) rfl rfl rfl rfl fun _ => rfl
  | ended ok hr =>
    exact h.stage hr (hturn rfl rfl) rfl rfl rfl rfl fun _ => by cases ok <;> rfl
  | endedAlone ok hr => exact h.gone hr (hturn rfl rfl) rfl rfl rfl rfl fun _ => rfl
  | checksOn hg hr hc =>
    obtain ⟨l, hm, rfl⟩ := moved_of_turn hs
    cases hm with
    | skipped => exact h.frame rfl rfl rfl rfl fun _ => rfl
    | handedOut =>
      rw [SortedMap.get?_erase_self] at hc
      cases hc
  | @found r g hg hr hend =>
    obtain ⟨l, hm, rfl⟩ := moved_of_turn hs
    cases hm with
    | skipped =>
      rw [SortedMap.get?_insert_self] at hend
      cases hend
    | handedOut hr' hmem hnone =>
      refine h.handedOut rfl hnone hg rfl rfl (fun _ _ => Iff.rfl) rfl (fun g' hne => ?_)
        fun hzero => ?_
      · have hsum := finders_insert hr { live := true, stage := .found g } g'
        simp only [ReserveStage.holds, if_neg (Ne.symm hne)] at hsum
        exact hsum
      · have hsum := finders_insert hr { live := true, stage := .found g } g
        simp only [ReserveStage.holds, if_true] at hsum
        simp only [holders, ackStage] at hzero ⊢
        omega
  | @foundAlone r g hg hr hend =>
    obtain ⟨l, hm, rfl⟩ := moved_of_turn hs
    cases hm with
    | skipped =>
      rw [SortedMap.get?_insert_self] at hend
      cases hend
    | handedOut hr' hmem hnone =>
      refine h.handedOut rfl hnone hg rfl rfl (fun _ hne => mem_insert_of_ne hne) rfl
        (fun g' _ => finders_erase hr g') fun hzero => ?_
      have hsum : finders (f.reserves.erase r) g = finders f.reserves g := finders_erase hr g
      simp only [holders, ackStage] at hzero
      simp only [holders, ackStage, tally_of_mem (Finset.mem_insert_self g f.doomed), hsum]
      omega
  | @ack g o live hg =>
    obtain ⟨l, hm, rfl⟩ := moved_of_turn hs
    cases hm with
    | @remove _ gd hg' hpc o =>
      refine h.one g ⟨?_, fun gd' hg' => ?_⟩ (fun _ hne => SortedMap.get?_insert_ne _ _ hne)
        (fun _ _ => Iff.rfl) (fun _ _ => Iff.rfl) (fun _ hne => SortedMap.get?_insert_ne _ _ hne)
        (fun _ _ => rfl) fun stage hg' => ?_
      · have hcount := (h.held g).count
        simp only [holders, ackStage, hg, hg', Option.map_some, Option.elim_some,
          Option.isSome_some, Ledger.remove, SortedMap.get?_insert_self, if_true] at hcount ⊢
        exact hcount
      · obtain rfl := Option.some.inj ((SortedMap.get?_insert_self _ _ _).symm.trans hg')
        refine iff_of_true ?_ (ackStage_of_get? (SortedMap.get?_insert_self _ _ _))
        simp only
        split <;> exact fun heq => by cases heq
      · obtain ⟨-, rfl⟩ := AckTask.mk.inj (Option.some.inj
          ((SortedMap.get?_insert_self _ _ _).symm.trans hg'))
        rfl
  | record hg | release hg =>
    obtain ⟨l, hm, rfl⟩ := moved_of_turn hs
    refine h.ackEnds hg ?_ rfl rfl rfl (fun _ hne => SortedMap.get?_insert_ne _ _ hne)
      fun task hg' => ?_
    · cases hm
      all_goals rfl
    · obtain rfl := Option.some.inj ((SortedMap.get?_insert_self _ _ _).symm.trans hg')
      exact ⟨rfl, rfl⟩
  | recordAlone hg | releaseAlone hg =>
    obtain ⟨l, hm, rfl⟩ := moved_of_turn hs
    refine h.ackEnds hg ?_ rfl rfl rfl (fun _ hne => SortedMap.get?_erase_ne _ hne)
      fun task hg' => absurd rfl (SortedMap.of_get?_erase hg').1
    cases hm
    all_goals rfl
  | @releaseDoomed g hg =>
    obtain ⟨l, hm, rfl⟩ := moved_of_turn hs
    cases hm with
    | release =>
      refine h.released rfl (fun _ _ => Iff.rfl) (fun _ hne => mem_erase_of_ne hne) rfl rfl ?_
      simp only [holders, ackStage, tally_of_mem hg,
        tally_of_notMem (Finset.notMem_erase g f.doomed)]
      omega

/-- What a reserve whose future is dropped looked like, if nothing of it is left. -/
theorem endReserve_dropped {stage : ReserveStage} (hr : f.reserves.get? r = some ⟨true, stage⟩)
    (h : f.step (.dropReserve r) = some (f.endReserve r)) :
    stage ≠ .starting ∧ stage ≠ .scanning ∧ ∀ g, stage = .found g → g ∈ f.doomed := by
  have hgone : (f.endReserve r).reserves.get? r = .none := SortedMap.get?_erase_self _ _
  refine ⟨?_, ?_, ?_⟩
  · rintro rfl
    simp only [step, hr] at h
    rw [← Option.some.inj h, SortedMap.get?_insert_self] at hgone
    cases hgone
  · rintro rfl
    simp only [step, hr] at h
    rw [← Option.some.inj h, SortedMap.get?_insert_self] at hgone
    cases hgone
  · rintro g rfl
    simp only [step, hr] at h
    have hdoomed : insert g f.doomed = f.doomed := congrArg Facade.doomed (Option.some.inj h)
    exact hdoomed ▸ Finset.mem_insert_self g f.doomed

/-- An ack that has returned goes. -/
theorem Held.ackReturned (h : f.Held) {live ok : Bool}
    (hg : f.acks.get? g = some ⟨live, .done ok⟩) (hqueue : f'.queue = f.queue)
    (hhands : f'.hands = f.hands) (hdoomed : f'.doomed = f.doomed)
    (hreserves : f'.reserves = f.reserves) (hacks : f'.acks = f.acks.erase g) : f'.Held := by
  have hafter : f'.ackStage g = none := by rw [ackStage, hacks, SortedMap.get?_erase_self]; rfl
  have hbefore := ackStage_of_get? hg
  refine h.one g ((h.held g).moved (by rw [hqueue]) ?_ ?_ ?_) (fun _ _ => by rw [hqueue])
    (fun _ _ => by rw [hhands]) (fun _ _ => by rw [hdoomed]) (fun g' hne => ?_)
    (fun _ _ => by rw [hreserves]) fun stage hg' => ?_
  · simp only [holders, hhands, hdoomed, hreserves, hbefore, hafter, Option.elim_some,
      Option.elim_none, AckStage.holds]
  · rw [hbefore]
    exact fun heq => by cases heq
  · rw [hafter]
    exact fun heq => by cases heq
  · rw [hacks]
    exact SortedMap.get?_erase_ne _ hne
  · rw [hacks, SortedMap.get?_erase_self] at hg'
    cases hg'

/-- The next number is no reserve's yet. -/
theorem ReserveLinks.next_free (h : f.ReserveLinks) : f.reserves.get? f.next = none := by
  rcases hr : f.reserves.get? f.next with _ | task
  · rfl
  · exact absurd (h.reserve_lt _ task hr) (lt_irrefl _)

/-- A new scan holds no guard. -/
theorem Held.scan (h : f.Held) (hnew : f.reserves.get? f.next = none) : f.scan.Held :=
  h.frame rfl rfl rfl rfl fun g =>
    SortedMap.sum_insert_of_none (fun _ task => ReserveStage.holds g (ReserveTask.stage task))
      { live := true, stage := .starting } hnew

theorem Stepped.held {D : Discipline} (h : f.Held) (hreserves : f.ReserveLinks)
    (hcoupled : Coupled f.queue) (hok : f.Keeps D a) (htaken : f.step a = some f')
    (hstep : f.Stepped a f') : f'.Held := by
  have hnew := hreserves.next_free
  cases hstep with
  | push waits hs | retry hk hready hs | close hs =>
    obtain ⟨l, hm, rfl⟩ := moved_of_turn hs
    exact h.frame (guards_moved hm rfl) rfl rfl rfl fun _ => rfl
  | pushed | full | refused | dropPush | notifyItems | closeRoom | closeItems =>
    exact h.frame rfl rfl rfl rfl fun _ => rfl
  | reserve => exact h.scan hnew
  | @rescan r hr hready =>
    have hgone : ({ f with items := f.items.forget r, reserves := f.reserves.erase r } :
        Facade).Held :=
      h.gone hr rfl rfl rfl rfl rfl fun _ => rfl
    exact hgone.scan (SortedMap.get?_erase_of_none hnew)
  | none hr | failed hr => exact h.gone hr rfl rfl rfl rfl rfl fun _ => rfl
  | sleeps hr => exact h.stage hr rfl rfl rfl rfl rfl fun _ => rfl
  | dropScan hr hstage => exact h.stage hr rfl rfl rfl rfl rfl fun _ => rfl
  | @reserved r g hr =>
    obtain ⟨hhands, -, -⟩ := (h.held g).found hr
    refine h.passed hr rfl rfl rfl (fun _ hne => mem_insert_of_ne hne) (fun _ _ => Iff.rfl) ?_
    simp only [endReserve, tally_of_notMem hhands,
      tally_of_mem (Finset.mem_insert_self g f.hands)]
    omega
  | @dropFound r g hr =>
    obtain ⟨-, hdoomed, -⟩ := (h.held g).found hr
    refine h.passed hr rfl rfl rfl (fun _ _ => Iff.rfl) (fun _ hne => mem_insert_of_ne hne) ?_
    simp only [endReserve, tally_of_notMem hdoomed,
      tally_of_mem (Finset.mem_insert_self g f.doomed)]
  | @dropReserve r stage hr =>
    obtain ⟨-, -, hfound⟩ := endReserve_dropped hr htaken
    refine h.gone hr rfl rfl rfl rfl rfl fun g => ?_
    cases stage with
    | found g' => exact absurd (hfound g' rfl) ((h.held g').found hr).2.1
    | starting | scanning | nothing | failed | asleep => rfl
  | @ack g hg hnone =>
    have hbefore : f.ackStage g = .none := by rw [ackStage, hnone]; rfl
    refine h.one g ((h.held g).moved rfl ?_ (by simp [hbefore]) ?_) (fun _ _ => rfl)
      (fun _ hne => mem_erase_of_ne hne) (fun _ _ => Iff.rfl)
      (fun _ hne => SortedMap.get?_insert_ne _ _ hne) (fun _ _ => rfl) fun stage hg' => ?_
    · simp only [holders, ackStage, hnone, SortedMap.get?_insert_self, Option.map_some,
        Option.map_none, Option.elim_some, Option.elim_none, AckStage.holds, tally_of_mem hg,
        tally_of_notMem (Finset.notMem_erase g f.hands)]
      omega
    · rw [ackStage_of_get? (SortedMap.get?_insert_self _ _ _)]
      exact fun heq => by cases heq
    · cases (SortedMap.get?_insert_self _ _ _).symm.trans hg'
  | acked hg | ackFailed hg | dropAcked hg => exact h.ackReturned hg rfl rfl rfl rfl rfl
  | @dropAck g stage hg hstage =>
    have hsame : (f.acks.insert g ⟨false, stage⟩).get? g = some ⟨false, stage⟩ :=
      SortedMap.get?_insert_self _ _ _
    refine h.one g ⟨?_, fun gd hg' => ?_⟩ (fun _ _ => rfl) (fun _ _ => Iff.rfl)
      (fun _ _ => Iff.rfl) (fun _ hne => SortedMap.get?_insert_ne _ _ hne) (fun _ _ => rfl)
      fun stage' hg' => ?_
    · have hcount := (h.held g).count
      simp only [holders, ackStage, hg, hsame, Option.map_some] at hcount ⊢
      exact hcount
    · rw [(h.held g).acking gd hg', ackStage_of_get? hg, ackStage_of_get? hsame]
    · obtain ⟨-, rfl⟩ := AckTask.mk.inj (Option.some.inj (hsame.symm.trans hg'))
      cases stage with
      | starting | running => rfl
      | done ok => exact absurd rfl (hstage ok)
  | @nack g s hg hs =>
    obtain ⟨l, hm, rfl⟩ := moved_of_turn hs
    cases hm with
    | release =>
      refine h.released rfl (fun _ hne => mem_erase_of_ne hne) (fun _ _ => Iff.rfl) rfl rfl ?_
      simp only [holders, ackStage, tally_of_mem hg,
        tally_of_notMem (Finset.notMem_erase g f.hands)]
      omega
  | queue hs hp => exact hp.held h hcoupled (hok _ rfl) hs

/-- What every run of the facade keeps, dropped futures and failed commits included. -/
structure Tied (f : Facade) : Prop where
  coupled : Coupled f.queue
  own : f.queue.OwnCalls
  paired : f.queue.Paired
  pushes : f.PushLinks
  reserves : f.ReserveLinks
  held : f.Held

theorem tied_opened {b : Builder} {st : Store} {s : Session} (h : Opens b st s) :
    (opened s).Tied where
  coupled := h.coupled
  own := Ledger.ownCalls_opened h.fresh.1
  paired := Ledger.paired_opened h.fresh.1
  pushes := pushLinks_opened h.fresh.1
  reserves := reserveLinks_opened s
  held := held_opened h.fresh.1

theorem Tied.step (h : f.Tied) (hok : f.Keeps anyRun a) (hs : f.step a = some f') : f'.Tied := by
  have hstepped := stepped_of_step hs
  have hqueue : Coupled f'.queue ∧ f'.queue.OwnCalls ∧ f'.queue.Paired := by
    rcases hstepped.acts with ⟨-, heq⟩ | ⟨b, hb, hact⟩
    · rw [heq]
      exact ⟨h.coupled, h.own, h.paired⟩
    · obtain ⟨⟨hown, hpaired⟩, hcoupled⟩ := h.coupled.invariant
        (I := fun l => l.OwnCalls ∧ l.Paired) (.single (hok b hb) hact) ⟨h.own, h.paired⟩
        fun l m l' _ hl _ hm => ⟨hl.1.moved hm, hl.2.moved hm⟩
      exact ⟨hcoupled, hown, hpaired⟩
  exact ⟨hqueue.1, hqueue.2.1, hqueue.2.2, hstepped.pushLinks h.pushes h.coupled h.own hok,
    hstepped.reserveLinks h.reserves, hstepped.held h.held h.reserves h.coupled hok hs⟩

end Facade

/-- **An item that was handed out is in one place.** In every run of the facade, whatever
futures are dropped and whatever commits come to: every reserved item has one guard, and
that has one holder; and what a holder holds is a reserved item, whose commit the holder's ack
has made exactly if it is running. -/
theorem one_holder {b : Builder} {st : Store} {s₀ : Session} {f : Facade} {as : List AsyncAct}
    (hopen : Opens b st s₀)
    (hrun : Run Facade.step (Facade.Keeps anyRun) (Facade.opened s₀) as f) :
    (∀ t ∈ f.queue.inner.reserved, ∃ g gd, f.queue.guards.get? g = some gd ∧ gd.seq = t ∧
      f.holders g = 1 ∧ ∀ g' gd', f.queue.guards.get? g' = some gd' → gd'.seq = t → g' = g) ∧
    ∀ g, f.holders g ≠ 0 → f.holders g = 1 ∧ ∃ gd, f.queue.guards.get? g = some gd ∧
      gd.seq ∈ f.queue.inner.reserved ∧ (gd.pc ≠ .held ↔ f.ackStage g = some .running) := by
  have htied : f.Tied := hrun.invariant (fun _ _ _ h hok hs => h.step hok hs)
    (Facade.tied_opened hopen)
  have hone : ∀ {g gd}, f.queue.guards.get? g = some gd → f.holders g = 1 := by
    intro g gd hg
    rw [(htied.held.held g).count, hg]
    rfl
  refine ⟨fun t ht => ?_, fun g hpos => ?_⟩
  · obtain ⟨g, gd, hg, rfl⟩ := (htied.paired.reserved t).mp ht
    exact ⟨g, gd, hg, rfl, hone hg, fun g' gd' hg' heq =>
      htied.paired.distinct g' g gd' gd hg' hg heq⟩
  · obtain ⟨gd, hg⟩ := (htied.held.held g).exists_guard (Nat.pos_of_ne_zero hpos)
    exact ⟨hone hg, gd, hg, (htied.paired.reserved _).mpr ⟨g, gd, hg, rfl⟩,
      (htied.held.held g).acking gd hg⟩

/-- The future of a reserve is dropped while its closure scans. The closure finds the item
and returns it to nobody; its drop is to come. -/
theorem one_holder_dropped_reserve :
    ∃ f, Run Facade.step (Facade.Keeps anyRun) (Facade.opened (Session.fresh .default64))
      [.push [1] true, .queue (.turn (.attempt 1)), .queue (.commit 0 .ok), .pushed 1,
        .reserve, .queue (.turn (.reserve 0)), .queue (.turn (.seek 0 true)), .dropReserve 0,
        .queue (.turn (.check 0 0))] f ∧
      f.reserves.get? 0 = none ∧ f.hands = ∅ ∧ 0 ∈ f.queue.inner.reserved ∧
      (∀ t ∈ f.queue.inner.reserved, ∃ g gd, f.queue.guards.get? g = some gd ∧ gd.seq = t ∧
        f.holders g = 1 ∧ ∀ g' gd', f.queue.guards.get? g' = some gd' → gd'.seq = t → g' = g) ∧
      ∀ g, f.holders g ≠ 0 → f.holders g = 1 ∧ ∃ gd, f.queue.guards.get? g = some gd ∧
        gd.seq ∈ f.queue.inner.reserved ∧ (gd.pc ≠ .held ↔ f.ackStage g = some .running) := by
  have hrun : ∃ f, Run Facade.step (Facade.Keeps anyRun)
      (Facade.opened (Session.fresh .default64))
      [.push [1] true, .queue (.turn (.attempt 1)), .queue (.commit 0 .ok), .pushed 1,
        .reserve, .queue (.turn (.reserve 0)), .queue (.turn (.seek 0 true)), .dropReserve 0,
        .queue (.turn (.check 0 0))] f ∧
      f.reserves.get? 0 = none ∧ f.hands = ∅ ∧ 0 ∈ f.queue.inner.reserved := by decide
  obtain ⟨f, hrun, hr, hhands, hreserved⟩ := hrun
  exact ⟨f, hrun, hr, hhands, hreserved, one_holder (opens_fresh _) hrun⟩

end PersistentQueue
