import PersistentQueue.Lib.Run
import PersistentQueue.Queue
import PersistentQueue.GroupCommit

/-!
# The queue without its group lock

Everything of an open queue but the group commit: the state under the queue's mutex, the
store, and the calls in progress of any number of producers and consumers. A turn is one
section of one call between two points where another thread can come in: a section under
the mutex, or a single store call.

How a claimed entry comes to be committed is left open here: a move may commit any write
that has not landed yet, at any time and with any outcome (`Move.put`), and a write whose
last commit succeeded or failed may return (`Move.returned`, `Move.gaveUp`). The policies
`Sync`, `None` and `Group` are ways to choose these moves.

The history of the run is part of the state, newest event first, and so are a few marks
that no code reads (`Write.stage`, `ReserveCall.behind`). They are what the results speak
about.
-/

namespace PersistentQueue

/-- What happened, as far as callers and the store can tell. -/
inductive Event : Type where
  /-- a queue was opened -/
  | opened
  /-- a push or try_push of this value was called -/
  | called (k : ℕ) (value : Bytes)
  /-- the call claimed a seq -/
  | claimed (k seq : ℕ) (value : Bytes)
  /-- a commit that returned `ok` wrote the entry over `old` -/
  | put (seq : ℕ) (value : Bytes) (old : Option Bytes) (ok : Bool)
  /-- the push returned `Ok` -/
  | pushOk (k seq : ℕ) (value : Bytes)
  /-- reserve handed the item out -/
  | handedOut (seq : ℕ) (value : Bytes)
  /-- the item's guard was acked -/
  | ackCalled (seq : ℕ)
  /-- an ack's commit that returned `ok` deleted the entry; its guard held `value` -/
  | removed (seq : ℕ) (value : Bytes) (old : Option Bytes) (ok : Bool)
  /-- the ack was recorded under the mutex, and returns `Ok` -/
  | acked (seq : ℕ)
  deriving DecidableEq

/-- The events since the queue was opened. -/
def thisSession : List Event → List Event
  | [] => []
  | .opened :: _ => []
  | e :: log => e :: thisSession log

@[simp] theorem thisSession_cons {e : Event} {log : List Event} (he : e ≠ .opened) :
    thisSession (e :: log) = e :: thisSession log := by
  cases e <;> first | rfl | exact absurd rfl he

/-- An ack of the seq has committed its delete. -/
def Deleted (log : List Event) (seq : ℕ) : Prop :=
  ∃ value old, .removed seq value old true ∈ thisSession log

/-- A push or try_push that has not claimed a seq yet. -/
structure Call where
  /-- the bytes to append -/
  value : Bytes
  /-- whether it waits when there is no room (`push`) -/
  blocking : Bool
  deriving DecidableEq

/-- How far the write of a claimed entry got. -/
inductive Stage : Type where
  /-- no commit has held it -/
  | fresh
  /-- a commit holding it failed -/
  | tried
  /-- a commit holding it returned `Ok`; about to return -/
  | landed
  /-- its last commit failed; about to give back the slot -/
  | failed
  deriving DecidableEq

/-- The stage of an entry in the group commit. -/
def Stage.ofPhase : Phase → Stage
  | .fresh => .fresh
  | .tried => .tried
  | .landed => .landed

/-- A push that has claimed a seq and not returned. -/
structure Write where
  /-- the call -/
  call : ℕ
  /-- the bytes to append -/
  value : Bytes
  /-- how far it got -/
  stage : Stage
  deriving DecidableEq

/-- Where a reserve call stands. -/
inductive ReservePc : Type where
  /-- about to seek from the entry key of the cursor -/
  | seeking (cursor : ℕ)
  /-- found this entry; about to look it up in the reserved set -/
  | checking (seq : ℕ) (value : Bytes)
  deriving DecidableEq

/-- How far the scan has come: it looks at nothing below this any more. -/
def ReservePc.position : ReservePc → ℕ
  | .seeking cursor => cursor
  | .checking seq _ => seq

/-- A reserve call that has not returned. -/
structure ReserveCall where
  /-- where it stands -/
  pc : ReservePc
  /-- the entries written below its position since it began -/
  behind : Finset ℕ
  deriving DecidableEq

/-- An entry was written while the call was running. -/
def ReserveCall.notice (c : ReserveCall) (seq : ℕ) : ReserveCall :=
  if seq < c.pc.position then { c with behind := insert seq c.behind } else c

/-- Where a guard stands. -/
inductive GuardPc : Type where
  /-- in its holder's hands -/
  | held
  /-- its ack has committed the delete; about to record it -/
  | deleted
  /-- its ack failed; about to be dropped -/
  | failed
  deriving DecidableEq

/-- A `Reserved` that exists. -/
structure Guard where
  /-- the item's seq -/
  seq : ℕ
  /-- the bytes it was handed out with -/
  value : Bytes
  /-- where it stands -/
  pc : GuardPc
  deriving DecidableEq

/-- An open queue, the store under it, and the calls in progress. -/
structure Ledger where
  /-- what the queue was opened with -/
  cfg : Builder
  /-- the state under the mutex -/
  inner : Inner
  /-- the store -/
  store : Store
  /-- pushes before their claim -/
  calls : SortedMap ℕ Call
  /-- pushes after their claim, by seq -/
  writes : SortedMap ℕ Write
  /-- reserve calls -/
  reserves : SortedMap ℕ ReserveCall
  /-- the guards that exist -/
  guards : SortedMap ℕ Guard
  /-- the history -/
  log : List Event

/-- One section of one call. -/
inductive Turn : Type where
  /-- a push (`blocking`) or try_push begins -/
  | call (value : Bytes) (blocking : Bool)
  /-- the locked part of a push or try_push, or one turn of its loop -/
  | attempt (k : ℕ)
  /-- a push whose write failed gives back its slot and returns the error -/
  | giveBack (seq : ℕ)
  /-- close the queue -/
  | close
  /-- a reserve call begins: read the head -/
  | reserve (r : ℕ)
  /-- its next seek, which may fail -/
  | seek (r : ℕ) (ok : Bool)
  /-- look the found seq up in the reserved set; hand it out under guard `g`, or go on -/
  | check (r g : ℕ)
  /-- an ack commits its delete -/
  | ack (g : ℕ) (o : Outcome)
  /-- and records it -/
  | record (g : ℕ)
  /-- a guard is nacked or dropped -/
  | release (g : ℕ)
  deriving DecidableEq

namespace Ledger

/-- A queue that was just opened. -/
def opened (cfg : Builder) (st : Store) (inner : Inner) (log : List Event) : Ledger :=
  { cfg, inner, store := st, calls := SortedMap.empty, writes := SortedMap.empty
    reserves := SortedMap.empty, guards := SortedMap.empty, log := .opened :: log }

variable (l : Ledger)

/-- The stored items. -/
def items : SortedMap ℕ Bytes := PersistentQueue.items l.store.live

/-- A push claims the next seq. -/
def claim (k : ℕ) (value : Bytes) : Ledger :=
  { l with
    inner := l.inner.claim l.cfg value
    calls := l.calls.erase k
    writes := l.writes.insert l.inner.tail { call := k, value, stage := .fresh }
    log := .claimed k l.inner.tail value :: l.log }

/-- A commit with the `Put` of one entry returned. -/
def put (seq : ℕ) (w : Write) (durable : Bool) (o : Outcome) : Ledger :=
  { l with
    store := l.store.commit [.put (entryKey seq) w.value] durable o
    writes := l.writes.insert seq { w with stage := if o.isOk then .landed else .tried }
    reserves := if o.applies then l.reserves.mapVal fun _ c => c.notice seq else l.reserves
    log :=
      if o.applies then .put seq w.value (l.store.get (entryKey seq)) o.isOk :: l.log else l.log }

/-- A push returns `Ok`. -/
def returned (seq : ℕ) (w : Write) : Ledger :=
  { l with writes := l.writes.erase seq, log := .pushOk w.call seq w.value :: l.log }

/-- The last commit of a push failed. -/
def gaveUp (seq : ℕ) (w : Write) : Ledger :=
  { l with writes := l.writes.insert seq { w with stage := .failed } }

/-- The commit of an ack's delete returned. -/
def remove (g : ℕ) (gd : Guard) (o : Outcome) : Ledger :=
  { l with
    store := l.store.commit [.delete (entryKey gd.seq)] l.cfg.ackDurable o
    guards := l.guards.insert g { gd with pc := if o.isOk then .deleted else .failed }
    log :=
      if o.applies then
        .removed gd.seq gd.value (l.store.get (entryKey gd.seq)) o.isOk :: .ackCalled gd.seq :: l.log
      else
        .ackCalled gd.seq :: l.log }

/-- One section of one call. -/
def turn : Turn → Option Ledger
  | .call value blocking =>
    some { l with
      calls := l.calls.insert l.log.length { value, blocking }
      log := .called l.log.length value :: l.log }
  | .attempt k =>
    match l.calls.get? k with
    | none => none
    | some c =>
      if l.inner.closed then
        -- `Closed`
        some { l with calls := l.calls.erase k }
      else if l.cfg.admits l.inner.len l.inner.bytes c.value.length then
        some (l.claim k c.value)
      else if c.blocking then
        some l
      else
        -- `Full`
        some { l with calls := l.calls.erase k }
  | .giveBack seq =>
    match l.writes.get? seq with
    | some ⟨_, value, .failed⟩ =>
      some { l with inner := l.inner.giveBack l.cfg value, writes := l.writes.erase seq }
    | _ => none
  | .close => some { l with inner := l.inner.close }
  | .reserve r =>
    match l.reserves.get? r with
    | some _ => none
    | none =>
      some { l with reserves := l.reserves.insert r { pc := .seeking l.inner.head, behind := ∅ } }
  | .seek r ok =>
    match l.reserves.get? r with
    | some ⟨.seeking cursor, behind⟩ =>
      if ok then
        match l.store.seek (entryKey cursor) with
        | some (key, value) =>
          if isEntry key then
            some { l with
              reserves := l.reserves.insert r { pc := .checking (seqOf key) value, behind } }
          else
            -- `Ok(None)`
            some { l with reserves := l.reserves.erase r }
        | none => some { l with reserves := l.reserves.erase r }
      else
        -- the store's error
        some { l with reserves := l.reserves.erase r }
    | _ => none
  | .check r g =>
    match l.reserves.get? r with
    | some ⟨.checking seq value, behind⟩ =>
      if seq ∈ l.inner.reserved then
        some { l with
          reserves := l.reserves.insert r { pc := .seeking (u64Succ seq), behind } }
      else
        match l.guards.get? g with
        | some _ => none
        | none =>
          some { l with
            inner := l.inner.reserve seq
            reserves := l.reserves.erase r
            guards := l.guards.insert g { seq, value, pc := .held }
            log := .handedOut seq value :: l.log }
    | _ => none
  | .ack g o =>
    match l.guards.get? g with
    | some ⟨seq, value, .held⟩ => some (l.remove g ⟨seq, value, .held⟩ o)
    | _ => none
  | .record g =>
    match l.guards.get? g with
    | some ⟨seq, value, .deleted⟩ =>
      some { l with
        inner := l.inner.recordAck l.cfg seq value
        guards := l.guards.erase g
        log := .acked seq :: l.log }
    | _ => none
  | .release g =>
    match l.guards.get? g with
    | some ⟨_, _, .deleted⟩ => none
    | some ⟨seq, _, _⟩ =>
      some { l with inner := l.inner.release seq, guards := l.guards.erase g }
    | none => none

end Ledger

/-- A turn, or what becomes of a claimed entry. -/
inductive Move : Type where
  /-- a section of a call -/
  | turn (a : Turn)
  /-- a commit with the entry's `Put` returned -/
  | put (seq : ℕ) (durable : Bool) (o : Outcome)
  /-- the push returned `Ok` -/
  | returned (seq : ℕ)
  /-- the last commit of the push failed -/
  | gaveUp (seq : ℕ)

namespace Ledger

/-- One move. A commit may hold any entry that has not landed and was not given up; it is
durable as the policy says. -/
def step (l : Ledger) : Move → Option Ledger
  | .turn a => l.turn a
  | .put seq durable o =>
    match l.writes.get? seq with
    | some w =>
      if (w.stage = .fresh ∨ w.stage = .tried) ∧ durable = l.cfg.durability.durable then
        some (l.put seq w durable o)
      else
        none
    | none => none
  | .returned seq =>
    match l.writes.get? seq with
    | some w => if w.stage = .landed then some (l.returned seq w) else none
    | none => none
  | .gaveUp seq =>
    match l.writes.get? seq with
    | some w => if w.stage = .tried then some (l.gaveUp seq w) else none
    | none => none

/-- Everything a move can do. -/
inductive Moved (l : Ledger) : Move → Ledger → Prop
  | call (value : Bytes) (blocking : Bool) :
    Moved l (.turn (.call value blocking))
      { l with
        calls := l.calls.insert l.log.length { value, blocking }
        log := .called l.log.length value :: l.log }
  | turnedAway (k : ℕ) {c : Call} (hc : l.calls.get? k = some c)
      (haway : l.inner.closed = false → c.blocking = false ∧
        l.cfg.admits l.inner.len l.inner.bytes c.value.length = false) :
    Moved l (.turn (.attempt k)) { l with calls := l.calls.erase k }
  | waits (k : ℕ) {c : Call} (hc : l.calls.get? k = some c) (hopen : l.inner.closed = false)
      (hfull : l.cfg.admits l.inner.len l.inner.bytes c.value.length = false)
      (hblocking : c.blocking = true) : Moved l (.turn (.attempt k)) l
  | claim {k : ℕ} {c : Call} (hc : l.calls.get? k = some c)
      (hroom : l.cfg.admits l.inner.len l.inner.bytes c.value.length = true)
      (hopen : l.inner.closed = false) :
    Moved l (.turn (.attempt k)) (l.claim k c.value)
  | giveBack {seq : ℕ} {w : Write} (hw : l.writes.get? seq = some w) (hstage : w.stage = .failed) :
    Moved l (.turn (.giveBack seq))
      { l with inner := l.inner.giveBack l.cfg w.value, writes := l.writes.erase seq }
  | close : Moved l (.turn .close) { l with inner := l.inner.close }
  | reserve {r : ℕ} (hr : l.reserves.get? r = none) :
    Moved l (.turn (.reserve r))
      { l with reserves := l.reserves.insert r { pc := .seeking l.inner.head, behind := ∅ } }
  | ended (r : ℕ) (ok : Bool) {cursor : ℕ} {behind : Finset ℕ}
      (hr : l.reserves.get? r = some ⟨.seeking cursor, behind⟩)
      (hend : ok = true → ∀ key value, l.store.seek (entryKey cursor) = some (key, value) →
        isEntry key = false) :
    Moved l (.turn (.seek r ok)) { l with reserves := l.reserves.erase r }
  | found {r cursor : ℕ} {behind : Finset ℕ} {key : Key} {value : Bytes}
      (hr : l.reserves.get? r = some ⟨.seeking cursor, behind⟩)
      (hseek : l.store.seek (entryKey cursor) = some (key, value)) (hkey : isEntry key = true) :
    Moved l (.turn (.seek r true))
      { l with reserves := l.reserves.insert r { pc := .checking (seqOf key) value, behind } }
  | skipped {r : ℕ} (g : ℕ) {seq : ℕ} {value : Bytes} {behind : Finset ℕ}
      (hr : l.reserves.get? r = some ⟨.checking seq value, behind⟩)
      (hmem : seq ∈ l.inner.reserved) :
    Moved l (.turn (.check r g))
      { l with reserves := l.reserves.insert r { pc := .seeking (u64Succ seq), behind } }
  | handedOut {r g seq : ℕ} {value : Bytes} {behind : Finset ℕ}
      (hr : l.reserves.get? r = some ⟨.checking seq value, behind⟩)
      (hmem : seq ∉ l.inner.reserved) (hg : l.guards.get? g = none) :
    Moved l (.turn (.check r g))
      { l with
        inner := l.inner.reserve seq
        reserves := l.reserves.erase r
        guards := l.guards.insert g { seq, value, pc := .held }
        log := .handedOut seq value :: l.log }
  | remove {g : ℕ} {gd : Guard} (hg : l.guards.get? g = some gd) (hpc : gd.pc = .held)
      (o : Outcome) : Moved l (.turn (.ack g o)) (l.remove g gd o)
  | record {g : ℕ} {gd : Guard} (hg : l.guards.get? g = some gd) (hpc : gd.pc = .deleted) :
    Moved l (.turn (.record g))
      { l with
        inner := l.inner.recordAck l.cfg gd.seq gd.value
        guards := l.guards.erase g
        log := .acked gd.seq :: l.log }
  | release {g : ℕ} {gd : Guard} (hg : l.guards.get? g = some gd) (hpc : gd.pc ≠ .deleted) :
    Moved l (.turn (.release g))
      { l with inner := l.inner.release gd.seq, guards := l.guards.erase g }
  | put {seq : ℕ} {w : Write} (hw : l.writes.get? seq = some w)
      (hstage : w.stage = .fresh ∨ w.stage = .tried) (durable : Bool) (o : Outcome)
      (hdurable : durable = l.cfg.durability.durable) :
    Moved l (.put seq durable o) (l.put seq w durable o)
  | returned {seq : ℕ} {w : Write} (hw : l.writes.get? seq = some w) (hstage : w.stage = .landed) :
    Moved l (.returned seq) (l.returned seq w)
  | gaveUp {seq : ℕ} {w : Write} (hw : l.writes.get? seq = some w) (hstage : w.stage = .tried) :
    Moved l (.gaveUp seq) (l.gaveUp seq w)

/-- A step is one of these. -/
theorem moved_of_step {l l' : Ledger} {m : Move} (h : l.step m = some l') : Moved l m l' := by
  cases m with
  | turn a =>
    simp only [step] at h
    cases a with
    | call value blocking =>
      obtain rfl := Option.some.inj h
      exact .call value blocking
    | attempt k =>
      simp only [turn] at h
      split at h
      · cases h
      · next c hc =>
        split at h
        · next hclosed =>
          obtain rfl := Option.some.inj h
          exact .turnedAway k hc fun hopen => (by rw [hopen] at hclosed; cases hclosed)
        · next hopen =>
          rw [Bool.not_eq_true] at hopen
          split at h
          · next hroom =>
            obtain rfl := Option.some.inj h
            exact .claim hc hroom hopen
          · next hfull =>
            rw [Bool.not_eq_true] at hfull
            split at h
            · next hblocking =>
              obtain rfl := Option.some.inj h
              exact .waits k hc hopen hfull hblocking
            · next hblocking =>
              obtain rfl := Option.some.inj h
              exact .turnedAway k hc fun _ => ⟨Bool.not_eq_true _ ▸ hblocking, hfull⟩
    | giveBack seq =>
      simp only [turn] at h
      split at h
      · next hw =>
        obtain rfl := Option.some.inj h
        exact .giveBack hw rfl
      · cases h
    | close =>
      obtain rfl := Option.some.inj h
      exact .close
    | reserve r =>
      simp only [turn] at h
      split at h
      · cases h
      · next hr =>
        obtain rfl := Option.some.inj h
        exact .reserve hr
    | seek r ok =>
      simp only [turn] at h
      split at h
      · next cursor behind hr =>
        split at h
        · next hok =>
          subst hok
          split at h
          · next key value hseek =>
            split at h
            · next hkey =>
              obtain rfl := Option.some.inj h
              exact .found hr hseek hkey
            · next hkey =>
              obtain rfl := Option.some.inj h
              refine .ended r true hr fun _ key' value' hseek' => ?_
              rw [hseek] at hseek'
              obtain ⟨rfl, -⟩ := Prod.mk.inj (Option.some.inj hseek')
              exact Bool.not_eq_true _ ▸ hkey
          · next hseek =>
            obtain rfl := Option.some.inj h
            refine .ended r true hr fun _ key value hseek' => ?_
            rw [hseek] at hseek'
            cases hseek'
        · next hok =>
          obtain rfl := Option.some.inj h
          exact .ended r ok hr fun htrue => absurd htrue hok
      · cases h
    | check r g =>
      simp only [turn] at h
      split at h
      · next seq value behind hr =>
        split at h
        · next hmem =>
          obtain rfl := Option.some.inj h
          exact .skipped g hr hmem
        · next hmem =>
          split at h
          · cases h
          · next hg =>
            obtain rfl := Option.some.inj h
            exact .handedOut hr hmem hg
      · cases h
    | ack g o =>
      simp only [turn] at h
      split at h
      · next hg =>
        obtain rfl := Option.some.inj h
        exact .remove hg rfl o
      · cases h
    | record g =>
      simp only [turn] at h
      split at h
      · next seq value hg =>
        obtain rfl := Option.some.inj h
        exact .record hg rfl
      · cases h
    | release g =>
      simp only [turn] at h
      split at h
      · cases h
      · next seq value pc hne hg =>
        obtain rfl := Option.some.inj h
        exact .release hg hne
      · cases h
  | put seq durable o =>
    simp only [step] at h
    split at h
    · next w hw =>
      split at h
      · next hcond =>
        obtain rfl := Option.some.inj h
        exact .put hw hcond.1 durable o hcond.2
      · cases h
    · cases h
  | returned seq =>
    simp only [step] at h
    split at h
    · next w hw =>
      split at h
      · next hstage =>
        obtain rfl := Option.some.inj h
        exact .returned hw hstage
      · cases h
    · cases h
  | gaveUp seq =>
    simp only [step] at h
    split at h
    · next w hw =>
      split at h
      · next hstage =>
        obtain rfl := Option.some.inj h
        exact .gaveUp hw hstage
      · cases h
    · cases h

/-! ## What a move adds to the history -/

/-- The cause of an event that a move adds. -/
def Caused (l : Ledger) (m : Move) : Event → Prop
  | .opened => False
  | .called k value => ∃ blocking, m = .turn (.call value blocking) ∧ k = l.log.length
  | .claimed k seq value => ∃ c, m = .turn (.attempt k) ∧ l.calls.get? k = some c ∧
      seq = l.inner.tail ∧ value = c.value
  | .put seq value old ok => ∃ w durable o, m = .put seq durable o ∧ l.writes.get? seq = some w ∧
      value = w.value ∧ old = l.store.get (entryKey seq) ∧ o.applies = true ∧ ok = o.isOk
  | .pushOk k seq value => ∃ w, m = .returned seq ∧ l.writes.get? seq = some w ∧
      w.stage = .landed ∧ k = w.call ∧ value = w.value
  | .handedOut seq value => ∃ r g behind, m = .turn (.check r g) ∧
      l.reserves.get? r = some ⟨.checking seq value, behind⟩ ∧ seq ∉ l.inner.reserved
  | .ackCalled seq => ∃ g gd o, m = .turn (.ack g o) ∧ l.guards.get? g = some gd ∧
      gd.pc = .held ∧ seq = gd.seq
  | .removed seq value old ok => ∃ g gd o, m = .turn (.ack g o) ∧ l.guards.get? g = some gd ∧
      gd.pc = .held ∧ seq = gd.seq ∧ value = gd.value ∧ old = l.store.get (entryKey seq) ∧
      o.applies = true ∧ ok = o.isOk
  | .acked seq => ∃ g gd, m = .turn (.record g) ∧ l.guards.get? g = some gd ∧
      gd.pc = .deleted ∧ seq = gd.seq

variable {l l' : Ledger} {m : Move} {e : Event}

theorem cfg_moved (hm : Moved l m l') : l'.cfg = l.cfg := by
  cases hm <;> rfl

/-- The history grows by events with a cause. -/
theorem moved_log (hm : Moved l m l') :
    ∃ es, l'.log = es ++ l.log ∧ ∀ e ∈ es, Caused l m e := by
  have hone : ∀ {l' : Ledger} {e}, l'.log = e :: l.log → Caused l m e →
      ∃ es, l'.log = es ++ l.log ∧ ∀ e ∈ es, Caused l m e := by
    intro l' e heq he
    exact ⟨[e], heq, fun e' he' => List.mem_singleton.mp he' ▸ he⟩
  cases hm with
  | turnedAway | waits | giveBack | close | reserve | ended | found | skipped | release | gaveUp =>
    exact ⟨[], rfl, by simp⟩
  | call value blocking => exact hone rfl ⟨blocking, rfl, rfl⟩
  | claim hc => exact hone rfl ⟨_, rfl, hc, rfl, rfl⟩
  | handedOut hr hmem => exact hone rfl ⟨_, _, _, rfl, hr, hmem⟩
  | record hg hpc => exact hone rfl ⟨_, _, rfl, hg, hpc, rfl⟩
  | returned hw hstage => exact hone rfl ⟨_, rfl, hw, hstage, rfl, rfl⟩
  | put hw hstage durable o =>
    by_cases ho : o.applies = true
    · exact hone (if_pos ho) ⟨_, durable, o, rfl, hw, rfl, rfl, ho, rfl⟩
    · exact ⟨[], if_neg ho, by simp⟩
  | @remove g gd hg hpc o =>
    have hcalled : Caused l (.turn (.ack g o)) (.ackCalled gd.seq) := ⟨g, gd, o, rfl, hg, hpc, rfl⟩
    by_cases ho : o.applies = true
    · refine ⟨[_, _], if_pos ho, fun e he => ?_⟩
      rcases List.mem_cons.mp he with rfl | he
      · exact ⟨g, gd, o, rfl, hg, hpc, rfl, rfl, rfl, ho, rfl⟩
      · exact List.mem_singleton.mp he ▸ hcalled
    · exact hone (if_neg ho) hcalled

theorem thisSession_append {es log : List Event} (h : ∀ e ∈ es, e ≠ .opened) :
    thisSession (es ++ log) = es ++ thisSession log := by
  induction es with
  | nil => rfl
  | cons e es ih =>
    rw [List.cons_append, thisSession_cons (h e List.mem_cons_self),
      ih fun e' he' => h e' (List.mem_cons_of_mem _ he'), List.cons_append]

theorem moved_session (hm : Moved l m l') :
    ∃ es, thisSession l'.log = es ++ thisSession l.log ∧ ∀ e ∈ es, Caused l m e := by
  obtain ⟨es, heq, hes⟩ := moved_log hm
  refine ⟨es, ?_, hes⟩
  rw [heq, thisSession_append]
  rintro e he rfl
  exact hes _ he

theorem mem_log (hm : Moved l m l') (he : e ∈ l'.log) : e ∈ l.log ∨ Caused l m e := by
  obtain ⟨es, heq, hes⟩ := moved_log hm
  rw [heq] at he
  exact (List.mem_append.mp he).symm.imp id (hes e)

theorem mem_session (hm : Moved l m l') (he : e ∈ thisSession l'.log) :
    e ∈ thisSession l.log ∨ Caused l m e := by
  obtain ⟨es, heq, hes⟩ := moved_session hm
  rw [heq] at he
  exact (List.mem_append.mp he).symm.imp id (hes e)

theorem log_mono (hm : Moved l m l') (he : e ∈ l.log) : e ∈ l'.log := by
  obtain ⟨es, heq, -⟩ := moved_log hm
  exact heq ▸ List.mem_append_right _ he

theorem session_mono (hm : Moved l m l') (he : e ∈ thisSession l.log) :
    e ∈ thisSession l'.log := by
  obtain ⟨es, heq, -⟩ := moved_session hm
  exact heq ▸ List.mem_append_right _ he

end Ledger

end PersistentQueue
