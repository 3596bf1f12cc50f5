import PersistentQueue.Lib.Word
import PersistentQueue.Lib.Watermark
import PersistentQueue.Store

/-!
# The queue's state and its critical sections

`Builder` is the configuration a queue is opened with, `Inner` the state under the
queue's one mutex. The sections of code that run under that mutex are functions on
`Inner`: `claim` (the locked part of `push` and `try_push`), `giveBack` (the release of
a slot after a failed write), `recordAck` (the locked part of `ack`), `release` (nack
and drop). `Builder.open` recovers `Inner` from whatever keys the store holds.

Sequence numbers are `u64`s and the counters `len` and `bytes` are words of the target's
`usize`, `usizeBits` wide; both wrap, as the arithmetic of a release build does.
-/

namespace PersistentQueue

/-- How writes are made durable. -/
inductive Durability : Type where
  /-- fsync every push and ack -/
  | sync
  /-- batch concurrent pushes behind a single fsync -/
  | group
  /-- do not fsync -/
  | none
  deriving DecidableEq, Repr

namespace Durability

/-- Whether pushes are committed durably. -/
def durable : Durability → Bool
  | .none => false
  | _ => true

/-- Whether pushes go through the group commit. -/
def isGroup : Durability → Bool
  | .group => true
  | _ => false

theorem durable_of_isGroup {d : Durability} (h : d.isGroup = true) : d.durable = true := by
  cases d
  · rfl
  · rfl
  · cases h

end Durability

/-- The configuration of a queue. The builder's asserts, and the range of its `usize`
fields, are fields here. -/
structure Builder where
  /-- the width of `usize` on the target -/
  usizeBits : ℕ
  /-- the greatest number of unacked items -/
  capacity : ℕ
  /-- the greatest total size of unacked items -/
  maxBytes : ℕ
  /-- the durability policy -/
  durability : Durability
  /-- whether acks are made durable -/
  durableAcks : Bool
  capacity_pos : 0 < capacity
  maxBytes_pos : 0 < maxBytes
  capacity_le : capacity ≤ Word.maxVal usizeBits
  maxBytes_le : maxBytes ≤ Word.maxVal usizeBits

namespace Builder

/-- The builder's defaults: 1024 items, unbounded bytes, `Sync`, durable acks. -/
def new (usizeBits : ℕ) (h : 16 ≤ usizeBits) : Builder :=
  have hle : 1024 ≤ Word.maxVal usizeBits := by
    have := Nat.pow_le_pow_right (n := 2) (by decide) h
    unfold Word.maxVal
    omega
  { usizeBits, capacity := 1024, maxBytes := Word.maxVal usizeBits, durability := .sync
    durableAcks := true, capacity_pos := by decide, maxBytes_pos := by omega
    capacity_le := hle, maxBytes_le := le_refl _ }

/-- Set the capacity; the builder asserts it is positive. -/
def setCapacity (b : Builder) (capacity : ℕ) (hpos : 0 < capacity)
    (hle : capacity ≤ Word.maxVal b.usizeBits) : Builder :=
  { b with capacity, capacity_pos := hpos, capacity_le := hle }

/-- Set the byte bound; the builder asserts it is positive. -/
def setMaxBytes (b : Builder) (maxBytes : ℕ) (hpos : 0 < maxBytes)
    (hle : maxBytes ≤ Word.maxVal b.usizeBits) : Builder :=
  { b with maxBytes, maxBytes_pos := hpos, maxBytes_le := hle }

/-- Set the durability policy. -/
def setDurability (b : Builder) (durability : Durability) : Builder := { b with durability }

/-- Set whether acks are made durable. -/
def setDurableAcks (b : Builder) (durableAcks : Bool) : Builder := { b with durableAcks }

/-- The builder's defaults on a 64-bit target. -/
def default64 : Builder := .new 64 (by decide)

/-- The same with group commit. -/
def group64 : Builder := default64.setDurability .group

/-- The defaults on a 32-bit target. -/
def default32 : Builder := .new 32 (by decide)

/-- Whether an ack's delete is committed durably. -/
def ackDurable (b : Builder) : Bool := b.durability.durable && b.durableAcks

/-- Whether a value of `v` bytes can be admitted now: under the item-count capacity, and
either under the byte bound or into an empty queue. -/
def admits (b : Builder) (len bytes v : ℕ) : Bool :=
  decide (len < b.capacity) &&
    (decide (len = 0) || decide (Word.satAdd b.usizeBits bytes v ≤ b.maxBytes))

/-- With the whole range of a `usize` as the bound, a saturating sum is never above it. -/
theorem admits_of_maxVal {b : Builder} (hmax : b.maxBytes = Word.maxVal b.usizeBits)
    {len : ℕ} (hlen : len < b.capacity) (bytes v : ℕ) : b.admits len bytes v = true := by
  simp [admits, hlen, hmax, Word.satAdd_le]

end Builder

/-- Room for one item. -/
def oneSlot64 : Builder := Builder.default64.setCapacity 1 (by decide) (by decide)

/-- Room for two bytes. -/
def twoBytes64 : Builder := Builder.default64.setMaxBytes 2 (by decide) (by decide)

/-- Room for two items, and for three bytes. -/
def tight64 : Builder :=
  (Builder.default64.setCapacity 2 (by decide) (by decide)).setMaxBytes 3 three_pos (by decide)

/-- The state under the queue's mutex. -/
@[ext] structure Inner where
  /-- the next sequence number to claim -/
  tail : ℕ
  /-- the lowest unacked seq: where `reserve` starts scanning -/
  head : ℕ
  /-- seqs acked out of order, above `head` -/
  ackedAbove : Finset ℕ
  /-- the number of unacked items -/
  len : ℕ
  /-- the total bytes of unacked items -/
  bytes : ℕ
  /-- the seqs handed out and not yet acked or released -/
  reserved : Finset ℕ
  /-- whether the queue was closed -/
  closed : Bool
  deriving DecidableEq

namespace Inner

variable (b : Builder) (i : Inner)

/-- Take the next seq and a slot for a value. The claimed seq is the old `tail`. -/
def claim (value : Bytes) : Inner :=
  { i with
    tail := u64Succ i.tail
    len := Word.wrapAdd b.usizeBits i.len 1
    bytes := Word.wrapAdd b.usizeBits i.bytes value.length }

/-- Give back the slot of a push whose write failed. -/
def giveBack (value : Bytes) : Inner :=
  { i with
    len := Word.wrapSub b.usizeBits i.len 1
    bytes := Word.wrapSub b.usizeBits i.bytes value.length }

/-- Remove the contiguous run of remembered acks that starts at `next`. -/
def jump (above : Finset ℕ) (next : ℕ) : ℕ × Finset ℕ := sweep u64Succ above.card above next

/-- Record an ack whose delete has committed: free the slot, and advance `head` over the
contiguous acked run when the oldest unacked seq is the one acked. -/
def recordAck (seq : ℕ) (value : Bytes) : Inner :=
  let i' : Inner :=
    { i with
      reserved := i.reserved.erase seq
      len := Word.wrapSub b.usizeBits i.len 1
      bytes := Word.wrapSub b.usizeBits i.bytes value.length }
  if seq = i.head then
    let (next, above) := jump i.ackedAbove (u64Succ i.head)
    { i' with head := next, ackedAbove := above }
  else
    { i' with ackedAbove := insert seq i.ackedAbove }

/-- Return a reserved seq for redelivery. -/
def release (seq : ℕ) : Inner := { i with reserved := i.reserved.erase seq }

/-- Mark a seq as handed out. -/
def reserve (seq : ℕ) : Inner := { i with reserved := insert seq i.reserved }

/-- Close the queue. -/
def close : Inner := { i with closed := true }

/-- The queue is closed and nothing remains to reserve. -/
def isDrained : Bool := i.closed && decide (i.len = 0)

/-! ### What the critical sections touch -/

variable {b i} {seq : ℕ} {value : Bytes}

@[simp] theorem claim_tail : (i.claim b value).tail = u64Succ i.tail := rfl
@[simp] theorem claim_head : (i.claim b value).head = i.head := rfl
@[simp] theorem claim_ackedAbove : (i.claim b value).ackedAbove = i.ackedAbove := rfl
@[simp] theorem claim_reserved : (i.claim b value).reserved = i.reserved := rfl
@[simp] theorem giveBack_tail : (i.giveBack b value).tail = i.tail := rfl
@[simp] theorem giveBack_head : (i.giveBack b value).head = i.head := rfl
@[simp] theorem giveBack_ackedAbove : (i.giveBack b value).ackedAbove = i.ackedAbove := rfl
@[simp] theorem giveBack_reserved : (i.giveBack b value).reserved = i.reserved := rfl
@[simp] theorem release_tail : (i.release seq).tail = i.tail := rfl
@[simp] theorem release_head : (i.release seq).head = i.head := rfl
@[simp] theorem release_ackedAbove : (i.release seq).ackedAbove = i.ackedAbove := rfl
@[simp] theorem release_reserved : (i.release seq).reserved = i.reserved.erase seq := rfl
@[simp] theorem release_len : (i.release seq).len = i.len := rfl
@[simp] theorem release_bytes : (i.release seq).bytes = i.bytes := rfl
@[simp] theorem reserve_tail : (i.reserve seq).tail = i.tail := rfl
@[simp] theorem reserve_head : (i.reserve seq).head = i.head := rfl
@[simp] theorem reserve_ackedAbove : (i.reserve seq).ackedAbove = i.ackedAbove := rfl
@[simp] theorem reserve_reserved : (i.reserve seq).reserved = insert seq i.reserved := rfl
@[simp] theorem reserve_len : (i.reserve seq).len = i.len := rfl
@[simp] theorem reserve_bytes : (i.reserve seq).bytes = i.bytes := rfl

@[simp] theorem recordAck_tail : (i.recordAck b seq value).tail = i.tail := by
  rw [recordAck]
  split <;> rfl

@[simp] theorem recordAck_reserved :
    (i.recordAck b seq value).reserved = i.reserved.erase seq := by
  rw [recordAck]
  split <;> rfl

@[simp] theorem recordAck_len :
    (i.recordAck b seq value).len = Word.wrapSub b.usizeBits i.len 1 := by
  rw [recordAck]
  split <;> rfl

@[simp] theorem recordAck_bytes :
    (i.recordAck b seq value).bytes = Word.wrapSub b.usizeBits i.bytes value.length := by
  rw [recordAck]
  split <;> rfl

@[simp] theorem recordAck_closed : (i.recordAck b seq value).closed = i.closed := by
  rw [recordAck]
  split <;> rfl

/-- Where an ack moves the head: `head` only crosses seqs that were acked, and the
remembered acks stay acked seqs. The bounds say that no seq is the last `u64`. -/
theorem recordAck_cursor (hseq : seq < u64Max) (habove : ∀ t ∈ i.ackedAbove, t < u64Max) :
    i.head ≤ (i.recordAck b seq value).head ∧
    (∀ t, i.head ≤ t → t < (i.recordAck b seq value).head → t = seq ∨ t ∈ i.ackedAbove) ∧
    ∀ t ∈ (i.recordAck b seq value).ackedAbove, t = seq ∨ t ∈ i.ackedAbove := by
  rw [recordAck]
  split
  · next heq =>
    subst heq
    have hsucc : u64Succ i.head = i.head + 1 := u64Succ_of_lt hseq
    obtain ⟨hle, hmem, -⟩ := @sweep_interval u64Succ i.ackedAbove.card i.ackedAbove
      (u64Succ i.head) fun x hx => u64Succ_of_lt (habove x hx)
    simp only [jump]
    rw [hsucc] at hle hmem ⊢
    refine ⟨by omega, fun t hht ht => ?_, fun t ht => Or.inr (sweep_snd_subset ht)⟩
    rcases eq_or_lt_of_le hht with rfl | hlt
    · exact Or.inl rfl
    · exact Or.inr (hmem t hlt ht)
  · exact ⟨le_refl _, fun t hht ht => absurd ht hht.not_gt,
      fun t ht => by simpa using ht⟩

/-- An ack moves the head as an acknowledgement moves a low-water mark. -/
theorem recordAck_mark {start : ℕ} {acks : List ℕ}
    (h : Watermark start acks i.head i.ackedAbove) (hstart : start ≤ seq) (hseq : seq < u64Max)
    (habove : ∀ t ∈ i.ackedAbove, t < u64Max) :
    Watermark start (seq :: acks) (i.recordAck b seq value).head
      (i.recordAck b seq value).ackedAbove := by
  rw [recordAck]
  split
  · next heq =>
    subst heq
    simp only [jump, u64Succ_of_lt hseq]
    exact h.advance fun t ht => u64Succ_of_lt (habove t ht)
  · next hne => exact h.remember hstart hne

end Inner

end PersistentQueue
