import PersistentQueue.Recovery
import PersistentQueue.GroupCommit

/-!
# Whole operations

The operations of an open queue as its only caller sees them: each runs from its call to
its return with nothing in between. The caller holds the guards it was given, under names
of its own choosing.

Every store call of an operation may fail; the outcomes are part of the request. The only
caller of the group commit leads, commits a batch of its own entry, and retries it if that
fails. The loop of `reserve` gets fuel for every stored entry and one more seek.
-/

namespace PersistentQueue

/-- A reserved item in its holder's hands. -/
structure Reserved where
  /-- the item's seq -/
  seq : ℕ
  /-- its bytes -/
  value : Bytes
  deriving DecidableEq

/-- An open queue, the store under it, and the guards its caller holds. -/
structure Handle where
  /-- what the queue was opened with -/
  cfg : Builder
  /-- the state under the mutex -/
  inner : Inner
  /-- the store -/
  store : Store
  /-- the guards, by name -/
  guards : SortedMap ℕ Reserved

/-- A call, with what becomes of its store calls. -/
inductive Request : Type where
  /-- try_push; `first` is the commit of the entry or of its batch, `second` the retry -/
  | tryPush (value : Bytes) (first second : Outcome)
  /-- reserve, its guard to be named `g`; the seek with number `fails` fails -/
  | reserve (g : ℕ) (fails : Option ℕ)
  /-- ack -/
  | ack (g : ℕ) (o : Outcome)
  /-- nack -/
  | nack (g : ℕ)
  /-- a guard is dropped -/
  | dropGuard (g : ℕ)
  /-- close -/
  | close
  /-- len -/
  | len
  /-- both ends are dropped, and a queue is opened over the store -/
  | reopen (b : Builder)

/-- What a call returns. -/
inductive Answer : Type where
  /-- `Ok(())`, or a call that returns nothing -/
  | done
  /-- `Closed` -/
  | closed
  /-- `Full` -/
  | full
  /-- the store's error -/
  | storeError
  /-- `Ok(Some(_))` with this item -/
  | item (seq : ℕ) (value : Bytes)
  /-- `Ok(None)` -/
  | nothing
  /-- a number of items -/
  | count (n : ℕ)
  deriving DecidableEq

namespace Handle

/-- A queue that was just opened. -/
def opened (cfg : Builder) (st : Store) (inner : Inner) : Handle :=
  { cfg, inner, store := st, guards := SortedMap.empty }

variable (q : Handle)

/-- The stored items. -/
def items : SortedMap ℕ Bytes := PersistentQueue.items q.store.live

/-- `group_commit` by its only caller: a batch of one entry, then the retry. -/
def groupCommit (seq : ℕ) (value : Bytes) (first second : Outcome) : Store × Bool :=
  let st := q.store.commit (batchOps [(seq, value)]) true first
  if first.isOk then (st, true)
  else (st.commit [Op.put (entryKey seq) value] true second, second.isOk)

/-- Commit the entry outside the capacity lock; on failure, give back the slot. -/
def write (seq : ℕ) (value : Bytes) (first second : Outcome) : Handle × Answer :=
  let (st, ok) :=
    if q.cfg.durability.isGroup then
      q.groupCommit seq value first second
    else
      (q.store.commit [Op.put (entryKey seq) value] q.cfg.durability.durable first, first.isOk)
  if ok then ({ q with store := st }, .done)
  else ({ q with store := st, inner := q.inner.giveBack q.cfg value }, .storeError)

/-- Append a value, or return `Full` instead of waiting. -/
def tryPush (value : Bytes) (first second : Outcome) : Handle × Answer :=
  if q.inner.closed then
    (q, .closed)
  else if q.cfg.admits q.inner.len q.inner.bytes value.length then
    write { q with inner := q.inner.claim q.cfg value } q.inner.tail value first second
  else
    (q, .full)

/-- The loop of `reserve`: seek from the cursor until an entry is found that nobody holds. -/
def scan : ℕ → Option ℕ → ℕ → Option (Except Unit (Option Reserved))
  | 0, _, _ => none
  | fuel + 1, fails, cursor =>
    if fails = some 0 then
      some (.error ())
    else
      match q.store.seek (entryKey cursor) with
      | some (key, value) =>
        if isEntry key then
          if seqOf key ∈ q.inner.reserved then
            scan fuel (fails.map Nat.pred) (u64Succ (seqOf key))
          else
            some (.ok (some { seq := seqOf key, value }))
        else
          some (.ok none)
      | none => some (.ok none)

/-- Reserve the oldest unreserved item, or nothing if there is none. -/
def reserve (g : ℕ) (fails : Option ℕ) : Option (Handle × Answer) :=
  match q.guards.get? g with
  | some _ => none
  | none =>
    match q.scan (q.items.size + 1) fails q.inner.head with
    | none => none
    | some (.error ()) => some (q, .storeError)
    | some (.ok none) => some (q, .nothing)
    | some (.ok (some r)) =>
      some ({ q with inner := q.inner.reserve r.seq, guards := q.guards.insert g r },
        .item r.seq r.value)

/-- A guard goes, and its item can be handed out again. -/
def release (g : ℕ) (r : Reserved) : Handle :=
  { q with inner := q.inner.release r.seq, guards := q.guards.erase g }

/-- Remove an item: commit the delete, then record it. An ack that fails drops its guard. -/
def ack (g : ℕ) (r : Reserved) (o : Outcome) : Handle × Answer :=
  let q' := { q with store := q.store.commit [Op.delete (entryKey r.seq)] q.cfg.ackDurable o }
  if o.isOk then
    ({ q' with inner := q.inner.recordAck q.cfg r.seq r.value, guards := q.guards.erase g }, .done)
  else
    (q'.release g r, .storeError)

/-- Drop both ends and open a queue over the store, once no guard is left. -/
def reopen (b : Builder) : Option (Handle × Answer) :=
  if q.guards.entries = [] then
    match b.open q.store none (q.items.size + 1) with
    | some (st, .ok inner) => some (opened b st inner, .done)
    | _ => none
  else
    none

/-- One call. -/
def step : Request → Option (Handle × Answer)
  | .tryPush value first second => some (q.tryPush value first second)
  | .reserve g fails => q.reserve g fails
  | .ack g o => (q.guards.get? g).map fun r => q.ack g r o
  | .nack g => (q.guards.get? g).map fun r => (q.release g r, .done)
  | .dropGuard g => (q.guards.get? g).map fun r => (q.release g r, .done)
  | .close => some ({ q with inner := q.inner.close }, .done)
  | .len => some (q, .count q.inner.len)
  | .reopen b => q.reopen b

end Handle

end PersistentQueue
