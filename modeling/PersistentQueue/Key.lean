import PersistentQueue.Lib.BigEndian
import PersistentQueue.Lib.SortedMap

/-!
# Keys

The key space of the store: the meta record under `[0x00]`, one entry under
`0x01 ++ seq` with the sequence number as a big-endian `u64`. Bytes are `Fin 256` and
keys are byte strings in lexicographic order, the order every store keeps.

A `u64` is modelled by its value, a natural number below `u64Size`; `u64Succ` is the
wrapping increment. The entry keys are an order-isomorphic copy of the `u64`s inside
the byte-string order (`entryKey_lt_entryKey`, `entryKey_seqOf`), which is what every
scan of the queue rests on.
-/

namespace PersistentQueue

/-- A `u8`. -/
abbrev Byte : Type := Fin 256

instance neZeroByte : NeZero 256 := ⟨by decide⟩

/-- A byte string: a key, or the bytes of an item. -/
abbrev Bytes : Type := List Byte

/-- A store key. -/
abbrev Key : Type := Bytes

/-- How many `u64`s there are. -/
def u64Size : ℕ := 2 ^ 64

/-- `u64::MAX`. -/
def u64Max : ℕ := u64Size - 1

/-- `seq + 1` on a `u64`, wrapping. -/
def u64Succ (seq : ℕ) : ℕ := (seq + 1) % u64Size

theorem u64Succ_of_lt {seq : ℕ} (h : seq < u64Max) : u64Succ seq = seq + 1 := by
  simp only [u64Succ, u64Max, u64Size] at *
  omega

theorem u64Succ_lt (seq : ℕ) : u64Succ seq < u64Size := Nat.mod_lt _ (by decide)

theorem lt_u64Size_of_lt_u64Max {seq : ℕ} (h : seq < u64Max) : seq < u64Size := by
  rw [u64Max] at h
  omega

/-- The key of the meta record. -/
def metaKey : Key := [0x00]

/-- The first byte of every entry key. -/
def entryPrefix : Byte := 0x01

/-- A key below every entry key. -/
def entryLow : Key := [entryPrefix]

/-- The greatest entry key. -/
def entryHigh : Key := entryPrefix :: List.replicate 8 0xff

/-- The on-disk format version this code reads and writes. -/
def formatVersion : Byte := 1

/-- The key of the entry with sequence number `seq`: the prefix, then `seq` in eight
big-endian bytes. -/
def entryKey (seq : ℕ) : Key := entryPrefix :: BigEndian.digits 256 8 seq

/-- The sequence number in bytes 1 to 8 of an entry key. -/
def seqOf (key : Key) : ℕ := BigEndian.value ((key.drop 1).take 8)

/-- Whether a key has the shape of an entry key. -/
def isEntry (key : Key) : Bool := key.length == 9 && key.head? == some entryPrefix

/-! ## The entry keys are a copy of the `u64`s -/

@[simp] theorem isEntry_entryKey (seq : ℕ) : isEntry (entryKey seq) = true := by
  simp [isEntry, entryKey]

theorem seqOf_entryKey {seq : ℕ} (h : seq < u64Size) : seqOf (entryKey seq) = seq := by
  have htake : (BigEndian.digits 256 8 seq).take 8 = BigEndian.digits 256 8 seq :=
    List.take_of_length_le (by simp)
  rw [seqOf, entryKey, List.drop_one, List.tail_cons, htake]
  exact BigEndian.value_digits h

/-- An entry key is the prefix followed by eight bytes. -/
theorem isEntry_iff {key : Key} :
    isEntry key = true ↔ ∃ ds : Bytes, ds.length = 8 ∧ key = entryPrefix :: ds := by
  cases key with
  | nil => simp [isEntry]
  | cons d ds => simp [isEntry, and_comm]

theorem seqOf_cons {ds : Bytes} (h : ds.length = 8) :
    seqOf (entryPrefix :: ds) = BigEndian.value ds := by
  rw [seqOf, List.drop_one, List.tail_cons, List.take_of_length_le h.le]

theorem seqOf_lt {key : Key} (h : isEntry key = true) : seqOf key < u64Size := by
  obtain ⟨ds, hlen, rfl⟩ := isEntry_iff.mp h
  have hlt := BigEndian.value_lt ds
  rw [hlen] at hlt
  rw [seqOf_cons hlen]
  exact hlt

/-- An entry key is the key of its own sequence number. -/
theorem entryKey_seqOf {key : Key} (h : isEntry key = true) : entryKey (seqOf key) = key := by
  obtain ⟨ds, hlen, rfl⟩ := isEntry_iff.mp h
  have hdigits := BigEndian.digits_value ds
  rw [hlen] at hdigits
  rw [seqOf_cons hlen, entryKey, hdigits]

/-- Entry keys are ordered as their sequence numbers. -/
theorem entryKey_lt_entryKey {s t : ℕ} (hs : s < u64Size) (ht : t < u64Size) :
    entryKey s < entryKey t ↔ s < t := by
  rw [entryKey, entryKey, List.cons_lt_cons_iff]
  simp only [lt_irrefl, true_and, false_or]
  exact BigEndian.digits_lt_digits hs ht

theorem entryKey_le_entryKey {s t : ℕ} (hs : s < u64Size) (ht : t < u64Size) :
    entryKey s ≤ entryKey t ↔ s ≤ t := by
  rw [← not_lt, entryKey_lt_entryKey ht hs, not_lt]

theorem entryKey_inj {s t : ℕ} (hs : s < u64Size) (ht : t < u64Size) :
    entryKey s = entryKey t ↔ s = t := by
  refine ⟨fun h => ?_, fun h => h ▸ rfl⟩
  rw [← seqOf_entryKey hs, h, seqOf_entryKey ht]

theorem entryKey_ne_metaKey (seq : ℕ) : entryKey seq ≠ metaKey := by
  intro h
  have := (List.cons.inj h).1
  revert this
  decide

theorem metaKey_lt_entryLow : metaKey < entryLow := by decide

theorem entryLow_le_entryKey (seq : ℕ) : entryLow ≤ entryKey seq := by
  rw [← not_lt, entryLow, entryKey, List.cons_lt_cons_iff]
  simp

theorem entryHigh_eq : entryHigh = entryKey u64Max := by decide

theorem entryKey_le_entryHigh {seq : ℕ} (h : seq < u64Size) : entryKey seq ≤ entryHigh := by
  rw [entryHigh_eq, entryKey_le_entryKey h (by decide)]
  rw [u64Max]
  omega

end PersistentQueue
