import PersistentQueue.Lib.Notify
import PersistentQueue.Accounting
import PersistentQueue.Commits

/-!
# The async facade

`AsyncProducer` and `AsyncConsumer` run the calls of the queue as closures on a blocking
pool and wait for room or items on two notification primitives, `room` and `items`. The
state has the queue, the two primitives, and the futures: where each stands between two of
its await points, and what it is about to notify.

A future registers before its closure starts, and looks at the result when it is polled
after the closure's end. A future can be dropped at an await point. Its closure runs on,
and what the closure returns is dropped with nobody told.

The id of a push is that of its current `try_push`, and the id of a reserve is that of its
current scan. A retry is a new call of the queue under a new id.
-/

namespace PersistentQueue

/-- The errors of `try_push`. -/
inductive TryPushError : Type where
  /-- there was no room -/
  | full
  /-- the queue was closed -/
  | closed
  /-- the write failed -/
  | store
  deriving DecidableEq

/-- Where the future of a push or try_push stands. -/
inductive PushStage : Type where
  /-- its closure has not decided yet -/
  | trying
  /-- its closure has a claim -/
  | writing
  /-- its closure has returned an error -/
  | refused (e : TryPushError)
  /-- it awaits `room` -/
  | asleep
  deriving DecidableEq

/-- The future of a `push` (`waits`) or `try_push`. -/
structure PushTask where
  /-- whether it waits when there is no room -/
  waits : Bool
  /-- the bytes to append -/
  value : Bytes
  /-- where it stands -/
  stage : PushStage
  deriving DecidableEq

/-- Where a reserve stands. -/
inductive ReserveStage : Type where
  /-- its closure has not begun -/
  | starting
  /-- its closure scans -/
  | scanning
  /-- its closure has returned an item, under guard `g` -/
  | found (g : ℕ)
  /-- its closure has returned `None` -/
  | nothing
  /-- its closure has returned an error -/
  | failed
  /-- it awaits `items` -/
  | asleep
  deriving DecidableEq

/-- A reserve: its future while it is `live`, and else the closure it left behind. -/
structure ReserveTask where
  /-- whether the future is there -/
  live : Bool
  /-- where it stands -/
  stage : ReserveStage
  deriving DecidableEq

/-- Where an ack stands. -/
inductive AckStage : Type where
  /-- its closure has not begun -/
  | starting
  /-- its closure has made the commit -/
  | running
  /-- its closure has returned -/
  | done (ok : Bool)
  deriving DecidableEq

/-- An ack: its future while it is `live`, and else the closure it left behind. -/
structure AckTask where
  /-- whether the future is there -/
  live : Bool
  /-- where it stands -/
  stage : AckStage
  deriving DecidableEq

/-- An open queue behind the async facade. -/
structure Facade where
  /-- the queue -/
  queue : Session
  /-- fires when a slot frees -/
  room : Notify ℕ
  /-- fires when something becomes reservable, or the queue drains on close -/
  items : Notify ℕ
  /-- the pushes -/
  pushes : SortedMap ℕ PushTask
  /-- the reserves -/
  reserves : SortedMap ℕ ReserveTask
  /-- the number of the next reserve -/
  next : ℕ
  /-- the acks, by guard -/
  acks : SortedMap ℕ AckTask
  /-- the guards of the items in the consumer's hands -/
  hands : Finset ℕ
  /-- the guards that a closure returned to a future that is gone -/
  doomed : Finset ℕ
  /-- calls that are about to `items.notify_one` -/
  notifying : ℕ
  /-- closes that are about to `room.notify_waiters` -/
  closingRoom : ℕ
  /-- closes that are about to `items.notify_waiters` -/
  closingItems : ℕ

/-- One step of a task, or one section of a closure. -/
inductive AsyncAct : Type where
  /-- a push (`waits`) or try_push is called and starts its closure -/
  | push (value : Bytes) (waits : Bool)
  /-- a push is polled after its closure's end -/
  | pushed (k : ℕ)
  /-- a push that was woken tries again -/
  | retry (k : ℕ)
  /-- the future of a push is dropped -/
  | dropPush (k : ℕ)
  /-- a reserve is called and starts its closure -/
  | reserve
  /-- a reserve is polled after its closure's end -/
  | reserved (r : ℕ)
  /-- a reserve that was woken tries again -/
  | rescan (r : ℕ)
  /-- the future of a reserve is dropped -/
  | dropReserve (r : ℕ)
  /-- an ack is called and starts its closure -/
  | ack (g : ℕ)
  /-- an ack is polled after its closure's end -/
  | acked (g : ℕ)
  /-- the future of an ack is dropped -/
  | dropAck (g : ℕ)
  /-- an item is nacked or dropped -/
  | nack (g : ℕ)
  /-- the `items.notify_one` at the end of an ack, nack or drop -/
  | notifyItems
  /-- the queue is closed -/
  | close
  /-- close goes on to `room` -/
  | closeRoom
  /-- and to `items` -/
  | closeItems
  /-- a section of a closure -/
  | queue (a : Act)
  deriving DecidableEq

/-- The step drops a future. -/
def AsyncAct.drops : AsyncAct → Bool
  | .dropPush _ | .dropReserve _ | .dropAck _ => true
  | _ => false

namespace Facade

/-- A facade over a queue that was just opened. -/
def opened (s : Session) : Facade :=
  { queue := s, room := .init, items := .init, pushes := SortedMap.empty
    reserves := SortedMap.empty, next := 0, acks := SortedMap.empty, hands := ∅, doomed := ∅
    notifying := 0, closingRoom := 0, closingItems := 0 }

variable (f : Facade)

/-- Start the closure of a push, which is registered in `room` if it waits. -/
def tryPush (value : Bytes) (waits : Bool) : Option Facade :=
  (f.queue.step (.turn (.call value false))).map fun s =>
    { f with
      queue := s
      room := if waits then f.room.enable f.queue.log.length else f.room
      pushes := f.pushes.insert f.queue.log.length { waits, value, stage := .trying } }

/-- Start the closure of a reserve, which is registered in `items`. -/
def scan : Facade :=
  { f with
    items := f.items.enable f.next
    reserves := f.reserves.insert f.next { live := true, stage := .starting }
    next := f.next + 1 }

/-- The future of a push returns, or is dropped, and its registration with it. -/
def endPush (k : ℕ) (task : PushTask) : Facade :=
  { f with
    room := if task.waits then f.room.drop k else f.room
    pushes := f.pushes.erase k }

/-- The future of a reserve returns, or is dropped, and its registration with it. -/
def endReserve (r : ℕ) : Facade :=
  { f with items := f.items.drop r, reserves := f.reserves.erase r }

/-- What the locked part of `try_push` decides. -/
def decides (k : ℕ) : PushStage :=
  match f.queue.calls.get? k with
  | some c =>
    if f.queue.inner.closed then .refused .closed
    else if f.queue.cfg.admits f.queue.inner.len f.queue.inner.bytes c.value.length then .writing
    else .refused .full
  | none => .trying

/-- What a section of a closure, which led the queue to the state `s`, means for its future.
Sections that are no part of a closure are ruled out. -/
def proceed (s : Session) : Act → Option Facade
  | .turn (.call _ _) | .turn .close => none
  | .turn (.attempt k) =>
    match f.pushes.get? k with
    | some ⟨waits, value, .trying⟩ =>
      some { f with queue := s, pushes := f.pushes.insert k { waits, value, stage := f.decides k } }
    | _ => some { f with queue := s }
  | .turn (.giveBack seq) =>
    match f.queue.writes.get? seq with
    | some w =>
      match f.pushes.get? w.call with
      | some ⟨waits, value, .writing⟩ =>
        some { f with
          queue := s
          pushes := f.pushes.insert w.call { waits, value, stage := .refused .store } }
      | _ => some { f with queue := s }
    | none => none
  | .turn (.reserve r) =>
    match f.reserves.get? r with
    | some ⟨live, .starting⟩ =>
      some { f with queue := s, reserves := f.reserves.insert r { live, stage := .scanning } }
    | _ => none
  | .turn (.seek r ok) =>
    match f.reserves.get? r, s.reserves.get? r with
    | some ⟨true, .scanning⟩, none =>
      some { f with
        queue := s
        reserves := f.reserves.insert r
          { live := true, stage := if ok then .nothing else .failed } }
    | some ⟨false, .scanning⟩, none => some { f with queue := s, reserves := f.reserves.erase r }
    | some ⟨_, .scanning⟩, some _ => some { f with queue := s }
    | _, _ => none
  | .turn (.check r g) =>
    match f.acks.get? g, f.reserves.get? r, s.reserves.get? r with
    | none, some ⟨true, .scanning⟩, none =>
      some { f with
        queue := s, reserves := f.reserves.insert r { live := true, stage := .found g } }
    | none, some ⟨false, .scanning⟩, none =>
      some { f with
        queue := s, reserves := f.reserves.erase r, doomed := insert g f.doomed }
    | none, some ⟨_, .scanning⟩, some _ => some { f with queue := s }
    | _, _, _ => none
  | .turn (.ack g _) =>
    match f.acks.get? g with
    | some ⟨live, .starting⟩ =>
      some { f with queue := s, acks := f.acks.insert g { live, stage := .running } }
    | _ => none
  | .turn (.record g) =>
    match f.acks.get? g with
    | some ⟨true, .running⟩ =>
      some { f with queue := s, acks := f.acks.insert g { live := true, stage := .done true } }
    | some ⟨false, .running⟩ => some { f with queue := s, acks := f.acks.erase g }
    | _ => none
  | .turn (.release g) =>
    if g ∈ f.doomed then some { f with queue := s, doomed := f.doomed.erase g }
    else
      match f.acks.get? g with
      | some ⟨true, .running⟩ =>
        some { f with queue := s, acks := f.acks.insert g { live := true, stage := .done false } }
      | some ⟨false, .running⟩ => some { f with queue := s, acks := f.acks.erase g }
      | _ => none
  | .commit _ _ | .enter _ | .flush _ _ | .record _ | .wake _ | .retry _ _ =>
    some { f with queue := s }

/-- One step. -/
def step : AsyncAct → Option Facade
  | .push value waits => f.tryPush value waits
  | .pushed k =>
    match f.pushes.get? k with
    | some ⟨waits, value, .writing⟩ =>
      if PushedOk f.queue.log k then
        some { f.endPush k ⟨waits, value, .writing⟩ with items := f.items.notifyOne }
      else
        none
    | some ⟨true, value, .refused .full⟩ =>
      some { f with pushes := f.pushes.insert k ⟨true, value, .asleep⟩ }
    | some ⟨waits, value, .refused e⟩ => some (f.endPush k ⟨waits, value, .refused e⟩)
    | _ => none
  | .retry k =>
    match f.pushes.get? k with
    | some ⟨waits, value, .asleep⟩ =>
      if f.room.Ready k then
        { f with room := f.room.forget k, pushes := f.pushes.erase k }.tryPush value waits
      else
        none
    | _ => none
  | .dropPush k => (f.pushes.get? k).map (f.endPush k)
  | .reserve => some f.scan
  | .reserved r =>
    match f.reserves.get? r with
    | some ⟨true, .found g⟩ => some { f.endReserve r with hands := insert g f.hands }
    | some ⟨true, .nothing⟩ =>
      if f.queue.inner.isDrained then
        -- `Ok(None)`
        some (f.endReserve r)
      else
        some { f with reserves := f.reserves.insert r { live := true, stage := .asleep } }
    | some ⟨true, .failed⟩ => some (f.endReserve r)
    | _ => none
  | .rescan r =>
    match f.reserves.get? r with
    | some ⟨true, .asleep⟩ =>
      if f.items.Ready r then
        some { f with items := f.items.forget r, reserves := f.reserves.erase r }.scan
      else
        none
    | _ => none
  | .dropReserve r =>
    match f.reserves.get? r with
    | some ⟨true, .starting⟩ =>
      some { f with
        items := f.items.drop r
        reserves := f.reserves.insert r { live := false, stage := .starting } }
    | some ⟨true, .scanning⟩ =>
      some { f with
        items := f.items.drop r
        reserves := f.reserves.insert r { live := false, stage := .scanning } }
    | some ⟨true, .found g⟩ => some { f.endReserve r with doomed := insert g f.doomed }
    | some ⟨true, _⟩ => some (f.endReserve r)
    | _ => none
  | .ack g =>
    if g ∈ f.hands ∧ f.acks.get? g = none then
      some { f with
        hands := f.hands.erase g, acks := f.acks.insert g { live := true, stage := .starting } }
    else
      none
  | .acked g =>
    match f.acks.get? g with
    | some ⟨true, .done true⟩ =>
      some { f with
        room := f.room.notifyOne, acks := f.acks.erase g, notifying := f.notifying + 1 }
    | some ⟨true, .done false⟩ => some { f with acks := f.acks.erase g }
    | _ => none
  | .dropAck g =>
    match f.acks.get? g with
    | some ⟨true, .done _⟩ => some { f with acks := f.acks.erase g }
    | some ⟨true, stage⟩ => some { f with acks := f.acks.insert g { live := false, stage } }
    | _ => none
  | .nack g =>
    if g ∈ f.hands then
      (f.queue.step (.turn (.release g))).map fun s =>
        { f with queue := s, hands := f.hands.erase g, notifying := f.notifying + 1 }
    else
      none
  | .notifyItems =>
    match f.notifying with
    | 0 => none
    | n + 1 => some { f with notifying := n, items := f.items.notifyOne }
  | .close =>
    (f.queue.step (.turn .close)).map fun s =>
      { f with queue := s, closingRoom := f.closingRoom + 1 }
  | .closeRoom =>
    match f.closingRoom with
    | 0 => none
    | n + 1 =>
      some { f with
        closingRoom := n, room := f.room.notifyWaiters, closingItems := f.closingItems + 1 }
  | .closeItems =>
    match f.closingItems with
    | 0 => none
    | n + 1 => some { f with closingItems := n, items := f.items.notifyWaiters }
  | .queue a => (f.queue.step a).bind fun s => f.proceed s a

/-- No call is in progress but pushes and reserves that sleep. -/
def Still : Prop :=
  (∀ e ∈ f.pushes.entries, e.2.stage = .asleep) ∧
    (∀ e ∈ f.reserves.entries, e.2 = ⟨true, .asleep⟩) ∧ f.acks.entries = [] ∧ f.doomed = ∅ ∧
    f.notifying = 0 ∧ f.closingRoom = 0 ∧ f.closingItems = 0 ∧ f.queue.NoCall

instance : Decidable f.Still := inferInstanceAs (Decidable (_ ∧ _ ∧ _ ∧ _ ∧ _ ∧ _ ∧ _ ∧ _))

/-! ## Everything a step can do -/

/-- What a section of a closure does to the facade. The queue is then in state `s`. -/
inductive Proceeds (s : Session) : Act → Facade → Prop
  | attempt {k : ℕ} {waits : Bool} {value : Bytes}
      (hk : f.pushes.get? k = some ⟨waits, value, .trying⟩) :
    Proceeds s (.turn (.attempt k))
      { f with queue := s, pushes := f.pushes.insert k { waits, value, stage := f.decides k } }
  | attemptAlone {k : ℕ} (hk : ∀ waits value, f.pushes.get? k ≠ some ⟨waits, value, .trying⟩) :
    Proceeds s (.turn (.attempt k)) { f with queue := s }
  | giveBack {seq : ℕ} {w : Write} {waits : Bool} {value : Bytes}
      (hw : f.queue.writes.get? seq = some w)
      (hk : f.pushes.get? w.call = some ⟨waits, value, .writing⟩) :
    Proceeds s (.turn (.giveBack seq))
      { f with
        queue := s, pushes := f.pushes.insert w.call { waits, value, stage := .refused .store } }
  | giveBackAlone {seq : ℕ} {w : Write} (hw : f.queue.writes.get? seq = some w)
      (hk : ∀ waits value, f.pushes.get? w.call ≠ some ⟨waits, value, .writing⟩) :
    Proceeds s (.turn (.giveBack seq)) { f with queue := s }
  | begins {r : ℕ} {live : Bool} (hr : f.reserves.get? r = some ⟨live, .starting⟩) :
    Proceeds s (.turn (.reserve r))
      { f with queue := s, reserves := f.reserves.insert r { live, stage := .scanning } }
  | ended {r : ℕ} (ok : Bool) (hr : f.reserves.get? r = some ⟨true, .scanning⟩)
      (hend : s.reserves.get? r = none) :
    Proceeds s (.turn (.seek r ok))
      { f with
        queue := s
        reserves := f.reserves.insert r
          { live := true, stage := if ok then .nothing else .failed } }
  | endedAlone {r : ℕ} (ok : Bool) (hr : f.reserves.get? r = some ⟨false, .scanning⟩)
      (hend : s.reserves.get? r = none) :
    Proceeds s (.turn (.seek r ok)) { f with queue := s, reserves := f.reserves.erase r }
  | seeksOn {r : ℕ} (ok : Bool) {live : Bool} {c : ReserveCall}
      (hr : f.reserves.get? r = some ⟨live, .scanning⟩) (hc : s.reserves.get? r = some c) :
    Proceeds s (.turn (.seek r ok)) { f with queue := s }
  | found {r g : ℕ} (hg : f.acks.get? g = none) (hr : f.reserves.get? r = some ⟨true, .scanning⟩)
      (hend : s.reserves.get? r = none) :
    Proceeds s (.turn (.check r g))
      { f with queue := s, reserves := f.reserves.insert r { live := true, stage := .found g } }
  | foundAlone {r g : ℕ} (hg : f.acks.get? g = none)
      (hr : f.reserves.get? r = some ⟨false, .scanning⟩) (hend : s.reserves.get? r = none) :
    Proceeds s (.turn (.check r g))
      { f with queue := s, reserves := f.reserves.erase r, doomed := insert g f.doomed }
  | checksOn {r g : ℕ} {live : Bool} {c : ReserveCall} (hg : f.acks.get? g = none)
      (hr : f.reserves.get? r = some ⟨live, .scanning⟩) (hc : s.reserves.get? r = some c) :
    Proceeds s (.turn (.check r g)) { f with queue := s }
  | ack {g : ℕ} (o : Outcome) {live : Bool} (hg : f.acks.get? g = some ⟨live, .starting⟩) :
    Proceeds s (.turn (.ack g o))
      { f with queue := s, acks := f.acks.insert g { live, stage := .running } }
  | record {g : ℕ} (hg : f.acks.get? g = some ⟨true, .running⟩) :
    Proceeds s (.turn (.record g))
      { f with queue := s, acks := f.acks.insert g { live := true, stage := .done true } }
  | recordAlone {g : ℕ} (hg : f.acks.get? g = some ⟨false, .running⟩) :
    Proceeds s (.turn (.record g)) { f with queue := s, acks := f.acks.erase g }
  | releaseDoomed {g : ℕ} (hg : g ∈ f.doomed) :
    Proceeds s (.turn (.release g)) { f with queue := s, doomed := f.doomed.erase g }
  | release {g : ℕ} (hg : f.acks.get? g = some ⟨true, .running⟩) :
    Proceeds s (.turn (.release g))
      { f with queue := s, acks := f.acks.insert g { live := true, stage := .done false } }
  | releaseAlone {g : ℕ} (hg : f.acks.get? g = some ⟨false, .running⟩) :
    Proceeds s (.turn (.release g)) { f with queue := s, acks := f.acks.erase g }
  | write {a : Act} (hturn : ∀ b, a ≠ .turn b) : Proceeds s a { f with queue := s }

/-- What a step does. -/
inductive Stepped : AsyncAct → Facade → Prop
  | push {value : Bytes} (waits : Bool) {s : Session}
      (hs : f.queue.step (.turn (.call value false)) = some s) :
    Stepped (.push value waits)
      { f with
        queue := s
        room := if waits then f.room.enable f.queue.log.length else f.room
        pushes := f.pushes.insert f.queue.log.length { waits, value, stage := .trying } }
  | pushed {k : ℕ} {waits : Bool} {value : Bytes}
      (hk : f.pushes.get? k = some ⟨waits, value, .writing⟩) (hok : PushedOk f.queue.log k) :
    Stepped (.pushed k) { f.endPush k ⟨waits, value, .writing⟩ with items := f.items.notifyOne }
  | full {k : ℕ} {value : Bytes} (hk : f.pushes.get? k = some ⟨true, value, .refused .full⟩) :
    Stepped (.pushed k) { f with pushes := f.pushes.insert k ⟨true, value, .asleep⟩ }
  | refused {k : ℕ} {task : PushTask} {e : TryPushError} (hk : f.pushes.get? k = some task)
      (hstage : task.stage = .refused e) (hends : ¬(task.waits = true ∧ e = .full)) :
    Stepped (.pushed k) (f.endPush k task)
  | retry {k : ℕ} {waits : Bool} {value : Bytes} {s : Session}
      (hk : f.pushes.get? k = some ⟨waits, value, .asleep⟩) (hready : f.room.Ready k)
      (hs : f.queue.step (.turn (.call value false)) = some s) :
    Stepped (.retry k)
      { f with
        queue := s
        room := if waits then (f.room.forget k).enable f.queue.log.length else f.room.forget k
        pushes :=
          (f.pushes.erase k).insert f.queue.log.length { waits, value, stage := .trying } }
  | dropPush {k : ℕ} {task : PushTask} (hk : f.pushes.get? k = some task) :
    Stepped (.dropPush k) (f.endPush k task)
  | reserve : Stepped .reserve f.scan
  | reserved {r g : ℕ} (hr : f.reserves.get? r = some ⟨true, .found g⟩) :
    Stepped (.reserved r) { f.endReserve r with hands := insert g f.hands }
  | none {r : ℕ} (hr : f.reserves.get? r = some ⟨true, .nothing⟩)
      (hdrained : f.queue.inner.isDrained = true) : Stepped (.reserved r) (f.endReserve r)
  | sleeps {r : ℕ} (hr : f.reserves.get? r = some ⟨true, .nothing⟩)
      (hleft : f.queue.inner.isDrained = false) :
    Stepped (.reserved r)
      { f with reserves := f.reserves.insert r { live := true, stage := .asleep } }
  | failed {r : ℕ} (hr : f.reserves.get? r = some ⟨true, .failed⟩) :
    Stepped (.reserved r) (f.endReserve r)
  | rescan {r : ℕ} (hr : f.reserves.get? r = some ⟨true, .asleep⟩) (hready : f.items.Ready r) :
    Stepped (.rescan r)
      { f with items := f.items.forget r, reserves := f.reserves.erase r }.scan
  | dropScan {r : ℕ} {stage : ReserveStage} (hr : f.reserves.get? r = some ⟨true, stage⟩)
      (hstage : stage = .starting ∨ stage = .scanning) :
    Stepped (.dropReserve r)
      { f with
        items := f.items.drop r, reserves := f.reserves.insert r { live := false, stage } }
  | dropFound {r g : ℕ} (hr : f.reserves.get? r = some ⟨true, .found g⟩) :
    Stepped (.dropReserve r) { f.endReserve r with doomed := insert g f.doomed }
  | dropReserve {r : ℕ} {stage : ReserveStage} (hr : f.reserves.get? r = some ⟨true, stage⟩) :
    Stepped (.dropReserve r) (f.endReserve r)
  | ack {g : ℕ} (hg : g ∈ f.hands) (hnone : f.acks.get? g = none) :
    Stepped (.ack g)
      { f with
        hands := f.hands.erase g, acks := f.acks.insert g { live := true, stage := .starting } }
  | acked {g : ℕ} (hg : f.acks.get? g = some ⟨true, .done true⟩) :
    Stepped (.acked g)
      { f with
        room := f.room.notifyOne, acks := f.acks.erase g, notifying := f.notifying + 1 }
  | ackFailed {g : ℕ} (hg : f.acks.get? g = some ⟨true, .done false⟩) :
    Stepped (.acked g) { f with acks := f.acks.erase g }
  | dropAcked {g : ℕ} {ok : Bool} (hg : f.acks.get? g = some ⟨true, .done ok⟩) :
    Stepped (.dropAck g) { f with acks := f.acks.erase g }
  | dropAck {g : ℕ} {stage : AckStage} (hg : f.acks.get? g = some ⟨true, stage⟩)
      (hstage : ∀ ok, stage ≠ .done ok) :
    Stepped (.dropAck g) { f with acks := f.acks.insert g { live := false, stage } }
  | nack {g : ℕ} {s : Session} (hg : g ∈ f.hands)
      (hs : f.queue.step (.turn (.release g)) = some s) :
    Stepped (.nack g)
      { f with queue := s, hands := f.hands.erase g, notifying := f.notifying + 1 }
  | notifyItems {n : ℕ} (hn : f.notifying = n + 1) :
    Stepped .notifyItems { f with notifying := n, items := f.items.notifyOne }
  | close {s : Session} (hs : f.queue.step (.turn .close) = some s) :
    Stepped .close { f with queue := s, closingRoom := f.closingRoom + 1 }
  | closeRoom {n : ℕ} (hn : f.closingRoom = n + 1) :
    Stepped .closeRoom
      { f with
        closingRoom := n, room := f.room.notifyWaiters, closingItems := f.closingItems + 1 }
  | closeItems {n : ℕ} (hn : f.closingItems = n + 1) :
    Stepped .closeItems { f with closingItems := n, items := f.items.notifyWaiters }
  | queue {a : Act} {s : Session} {f' : Facade} (hs : f.queue.step a = some s)
      (hp : f.Proceeds s a f') : Stepped (.queue a) f'

variable {f} {f' : Facade} {a : AsyncAct}

theorem proceeds_of_proceed {s : Session} {a : Act} (h : f.proceed s a = some f') :
    f.Proceeds s a f' := by
  cases a with
  | turn a =>
    cases a with
    | call | close => cases h
    | attempt k =>
      simp only [proceed] at h
      split at h
      · next hk =>
        obtain rfl := Option.some.inj h
        exact .attempt hk
      · next hk =>
        obtain rfl := Option.some.inj h
        exact .attemptAlone fun waits value => hk waits value
    | giveBack seq =>
      simp only [proceed] at h
      split at h
      · next w hw =>
        split at h
        · next hk =>
          obtain rfl := Option.some.inj h
          exact .giveBack hw hk
        · next hk =>
          obtain rfl := Option.some.inj h
          exact .giveBackAlone hw fun waits value => hk waits value
      · cases h
    | reserve r =>
      simp only [proceed] at h
      split at h
      · next hr =>
        obtain rfl := Option.some.inj h
        exact .begins hr
      · cases h
    | seek r ok =>
      simp only [proceed] at h
      split at h
      · next hr hend =>
        obtain rfl := Option.some.inj h
        exact .ended ok hr hend
      · next hr hend =>
        obtain rfl := Option.some.inj h
        exact .endedAlone ok hr hend
      · next hr hc =>
        obtain rfl := Option.some.inj h
        exact .seeksOn ok hr hc
      · cases h
    | check r g =>
      simp only [proceed] at h
      split at h
      · next hg hr hend =>
        obtain rfl := Option.some.inj h
        exact .found hg hr hend
      · next hg hr hend =>
        obtain rfl := Option.some.inj h
        exact .foundAlone hg hr hend
      · next hg hr hc =>
        obtain rfl := Option.some.inj h
        exact .checksOn hg hr hc
      · cases h
    | ack g o =>
      simp only [proceed] at h
      split at h
      · next hg =>
        obtain rfl := Option.some.inj h
        exact .ack o hg
      · cases h
    | record g =>
      simp only [proceed] at h
      split at h
      · next hg =>
        obtain rfl := Option.some.inj h
        exact .record hg
      · next hg =>
        obtain rfl := Option.some.inj h
        exact .recordAlone hg
      · cases h
    | release g =>
      simp only [proceed] at h
      split at h
      · next hg =>
        obtain rfl := Option.some.inj h
        exact .releaseDoomed hg
      · split at h
        · next hg =>
          obtain rfl := Option.some.inj h
          exact .release hg
        · next hg =>
          obtain rfl := Option.some.inj h
          exact .releaseAlone hg
        · cases h
  | commit | enter | flush | record | wake | retry =>
    obtain rfl := Option.some.inj h
    exact .write (by simp)

/-- A step is one of these. -/
theorem stepped_of_step (h : f.step a = some f') : f.Stepped a f' := by
  cases a with
  | push value waits =>
    simp only [step, tryPush] at h
    obtain ⟨s, hs, rfl⟩ := Option.map_eq_some_iff.mp h
    exact .push waits hs
  | pushed k =>
    simp only [step] at h
    split at h
    · next hk =>
      split at h
      · next hok =>
        obtain rfl := Option.some.inj h
        exact .pushed hk hok
      · cases h
    · next hk =>
      obtain rfl := Option.some.inj h
      exact .full hk
    · next hnot hk =>
      obtain rfl := Option.some.inj h
      exact .refused hk rfl fun hand => hnot hand.1 hand.2
    · cases h
  | retry k =>
    simp only [step] at h
    split at h
    · next hk =>
      split at h
      · next hready =>
        obtain ⟨s, hs, rfl⟩ := Option.map_eq_some_iff.mp h
        exact .retry hk hready hs
      · cases h
    · cases h
  | dropPush k =>
    obtain ⟨task, hk, rfl⟩ := Option.map_eq_some_iff.mp h
    exact .dropPush hk
  | reserve =>
    obtain rfl := Option.some.inj h
    exact .reserve
  | reserved r =>
    simp only [step] at h
    split at h
    · next hr =>
      obtain rfl := Option.some.inj h
      exact .reserved hr
    · next hr =>
      split at h
      · next hdrained =>
        obtain rfl := Option.some.inj h
        exact .none hr hdrained
      · next hleft =>
        obtain rfl := Option.some.inj h
        exact .sleeps hr (Bool.not_eq_true _ ▸ hleft)
    · next hr =>
      obtain rfl := Option.some.inj h
      exact .failed hr
    · cases h
  | rescan r =>
    simp only [step] at h
    split at h
    · next hr =>
      split at h
      · next hready =>
        obtain rfl := Option.some.inj h
        exact .rescan hr hready
      · cases h
    · cases h
  | dropReserve r =>
    simp only [step] at h
    split at h
    · next hr =>
      obtain rfl := Option.some.inj h
      exact .dropScan hr (Or.inl rfl)
    · next hr =>
      obtain rfl := Option.some.inj h
      exact .dropScan hr (Or.inr rfl)
    · next hr =>
      obtain rfl := Option.some.inj h
      exact .dropFound hr
    · next _ _ hr =>
      obtain rfl := Option.some.inj h
      exact .dropReserve hr
    · cases h
  | ack g =>
    simp only [step] at h
    split at h
    · next hand =>
      obtain rfl := Option.some.inj h
      exact .ack hand.1 hand.2
    · cases h
  | acked g =>
    simp only [step] at h
    split at h
    · next hg =>
      obtain rfl := Option.some.inj h
      exact .acked hg
    · next hg =>
      obtain rfl := Option.some.inj h
      exact .ackFailed hg
    · cases h
  | dropAck g =>
    simp only [step] at h
    split at h
    · next hg =>
      obtain rfl := Option.some.inj h
      exact .dropAcked hg
    · next hnot hg =>
      obtain rfl := Option.some.inj h
      exact .dropAck hg hnot
    · cases h
  | nack g =>
    simp only [step] at h
    split at h
    · next hg =>
      obtain ⟨s, hs, rfl⟩ := Option.map_eq_some_iff.mp h
      exact .nack hg hs
    · cases h
  | notifyItems =>
    simp only [step] at h
    split at h
    · cases h
    · next hn =>
      obtain rfl := Option.some.inj h
      exact .notifyItems hn
  | close =>
    simp only [step] at h
    obtain ⟨s, hs, rfl⟩ := Option.map_eq_some_iff.mp h
    exact .close hs
  | closeRoom =>
    simp only [step] at h
    split at h
    · cases h
    · next hn =>
      obtain rfl := Option.some.inj h
      exact .closeRoom hn
  | closeItems =>
    simp only [step] at h
    split at h
    · cases h
    · next hn =>
      obtain rfl := Option.some.inj h
      exact .closeItems hn
  | queue a =>
    obtain ⟨s, hs, hp⟩ := Option.bind_eq_some_iff.mp h
    exact .queue hs (proceeds_of_proceed hp)

end Facade

end PersistentQueue
