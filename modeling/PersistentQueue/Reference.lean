import PersistentQueue.Operations

/-!
# What the queue is for

The queue as its caller should see it: a list of items in the order of their seqs, each one
ready or held under a guard's name, a next seq, and whether the queue is closed. There are
no cursors, no keys and no counters. `Machine.step` answers the same requests as the queue,
and the callers' promises (`Machine.Fits`) are that seqs and sizes stay in the range of
their types and that a store call that fails has applied nothing.
-/

namespace PersistentQueue

/-- An item. -/
structure Item where
  /-- its seq -/
  seq : ℕ
  /-- its bytes -/
  value : Bytes
  /-- the name of the guard that holds it, if it is not ready -/
  holder : Option ℕ
  deriving DecidableEq

/-- The item can be handed out. -/
def Item.ready (i : Item) : Bool := i.holder.isNone

/-- A FIFO queue with reservations. -/
structure Machine where
  /-- the limits and the policy -/
  cfg : Builder
  /-- the items, least seq first -/
  items : List Item
  /-- the next seq -/
  next : ℕ
  /-- whether it was closed -/
  closed : Bool

/-- Whether a push fails: under `Group` its batch and its retry, else its one commit. -/
def Builder.pushFails (b : Builder) (first second : Outcome) : Bool :=
  if b.durability.isGroup then !first.isOk && !second.isOk else !first.isOk

namespace Machine

variable (m : Machine)

/-- How many items there are. -/
def count : ℕ := m.items.length

/-- Their total size. -/
def total : ℕ := (m.items.map fun i => i.value.length).sum

/-- Whether there is room for a value of `size` bytes. -/
def HasRoom (size : ℕ) : Prop :=
  m.count < m.cfg.capacity ∧ (m.count = 0 ∨ m.total + size ≤ m.cfg.maxBytes)

instance (size : ℕ) : Decidable (m.HasRoom size) :=
  inferInstanceAs (Decidable (_ ∧ _))

/-- The item held under a name. -/
def held (g : ℕ) : Option Item := m.items.find? fun i => i.holder = some g

/-- Make the item held under a name ready again. -/
def putBack (g : ℕ) : Machine :=
  { m with items := m.items.map fun i => if i.holder = some g then { i with holder := none } else i }

/-- One call. -/
def step : Request → Option (Machine × Answer)
  | .tryPush value first second =>
    some <|
      if m.closed then (m, .closed)
      else if ¬m.HasRoom value.length then (m, .full)
      else if m.cfg.pushFails first second then ({ m with next := m.next + 1 }, .storeError)
      else
        ({ m with items := m.items ++ [⟨m.next, value, none⟩], next := m.next + 1 }, .done)
  | .reserve g fails =>
    if (m.held g).isSome then none
    else
      -- one seek for each held item before the first ready one, and one more
      if ∃ n ∈ fails, n ≤ (m.items.takeWhile fun i => !i.ready).length then
        some (m, .storeError)
      else
        match m.items.find? Item.ready with
        | none => some (m, .nothing)
        | some i =>
          some ({ m with items := m.items.map fun j => if j.seq = i.seq then { j with holder := some g } else j },
            .item i.seq i.value)
  | .ack g o =>
    (m.held g).map fun _ =>
      if o.isOk then
        ({ m with items := m.items.filter fun i => i.holder ≠ some g }, .done)
      else
        (m.putBack g, .storeError)
  | .nack g => (m.held g).map fun _ => (m.putBack g, .done)
  | .dropGuard g => (m.held g).map fun _ => (m.putBack g, .done)
  | .close => some ({ m with closed := true }, .done)
  | .len => some (m, .count m.count)
  | .reopen b =>
    if m.items.all Item.ready then
      some ({ cfg := b, items := m.items, closed := false
              next := (m.items.getLast?.map fun i => i.seq + 1).getD 0 }, .done)
    else none

/-- What the callers promise. -/
def Fits : Request → Prop
  | .tryPush value first second =>
    m.next < u64Max ∧ m.total + value.length < 2 ^ m.cfg.usizeBits ∧ first.Clean ∧ second.Clean
  | .ack _ o => o.Clean
  | .reopen b => b.usizeBits = m.cfg.usizeBits
  | _ => True

instance (m : Machine) : DecidablePred m.Fits
  | .tryPush _ _ _ => inferInstanceAs (Decidable (_ ∧ _ ∧ _ ∧ _))
  | .ack _ o => inferInstanceAs (Decidable o.Clean)
  | .reopen _ => inferInstanceAs (Decidable (_ = _))
  | .reserve _ _ | .nack _ | .dropGuard _ | .close | .len => isTrue trivial

end Machine

end PersistentQueue
