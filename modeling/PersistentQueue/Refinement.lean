import PersistentQueue.Lib.Replies
import PersistentQueue.Reference
import PersistentQueue.Sound

/-!
# The queue is that machine

The state of a queue between two calls stands for a state of the reference machine
(`Handle.abs`): its items are the stored entries in key order, each held by the guard that
has its seq, and the next seq is the tail. Every call commutes with this
(`Handle.step_abs`), under an invariant that explains the rest of the state: the head is
not above any entry, no remembered ack is stored, the counters are exact, and the reserved
set is the set of the guards' seqs (`Handle.Inv`). So a queue gives the answers of the
reference machine to every list of requests: `refines_fifo`.
-/

namespace PersistentQueue

namespace Handle

/-- The name of the guard that holds a seq. -/
def holder (q : Handle) (t : ℕ) : Option ℕ :=
  (q.guards.entries.find? fun e => e.2.seq = t).map Prod.fst

/-- An entry as an item. -/
def item (q : Handle) (e : ℕ × Bytes) : Item := ⟨e.1, e.2, q.holder e.1⟩

/-- The machine a queue stands for. -/
def abs (q : Handle) : Machine :=
  { cfg := q.cfg, items := q.items.entries.map q.item, next := q.inner.tail
    closed := q.inner.closed }

/-- What holds between two calls. -/
structure Inv (q : Handle) : Prop where
  keyed : WellKeyed q.store.live
  versioned : ∃ record, q.store.get metaKey = some record ∧ record.head?.getD 0 = formatVersion
  tail_le : q.inner.tail ≤ u64Max
  head_le_tail : q.inner.head ≤ q.inner.tail
  stored_lt : ∀ t v, q.items.get? t = some v → t < q.inner.tail
  head_le : ∀ t v, q.items.get? t = some v → q.inner.head ≤ t
  above_lt : ∀ t ∈ q.inner.ackedAbove, t < q.inner.tail
  above_gone : ∀ t ∈ q.inner.ackedAbove, q.items.get? t = none
  len : q.inner.len = q.items.size
  bytes : q.inner.bytes = q.items.sum fun _ v => v.length
  size_lt : q.items.size < 2 ^ q.cfg.usizeBits
  sum_lt : (q.items.sum fun _ v => v.length) < 2 ^ q.cfg.usizeBits
  reserved : ∀ t, t ∈ q.inner.reserved ↔ ∃ g r, q.guards.get? g = some r ∧ r.seq = t
  distinct : ∀ g g' r r', q.guards.get? g = some r → q.guards.get? g' = some r' →
    r.seq = r'.seq → g = g'
  held : ∀ g r, q.guards.get? g = some r → q.items.get? r.seq = some r.value

variable {q q' : Handle} {g t : ℕ} {r : Reserved} {value : Bytes} {first second o : Outcome}

/-! ## Reading the machine off the queue -/

theorem Inv.lt_u64Max (h : q.Inv) (ht : t < q.inner.tail) : t < u64Max :=
  ht.trans_le h.tail_le

theorem Inv.lt_u64Size (h : q.Inv) (ht : t < q.inner.tail) : t < u64Size :=
  lt_u64Size_of_lt_u64Max (h.lt_u64Max ht)

theorem Inv.guard_lt (h : q.Inv) (hg : q.guards.get? g = some r) : r.seq < q.inner.tail :=
  h.stored_lt _ _ (h.held g r hg)

theorem Inv.sound (h : q.Inv) : q.Sound :=
  { h with guard_lt := fun _ _ hg => h.guard_lt hg }

/-- A seq is held by the guard that has it. -/
theorem holder_eq_some (hdistinct : ∀ g g' r r', q.guards.get? g = some r →
    q.guards.get? g' = some r' → r.seq = r'.seq → g = g') :
    q.holder t = some g ↔ ∃ r, q.guards.get? g = some r ∧ r.seq = t := by
  rw [holder]
  constructor
  · intro h
    obtain ⟨⟨g', r⟩, hfind, rfl⟩ := Option.map_eq_some_iff.mp h
    exact ⟨r, SortedMap.get?_eq_some.mpr (List.mem_of_find?_eq_some hfind),
      by simpa using List.find?_some hfind⟩
  · rintro ⟨r, hg, rfl⟩
    rcases hfind : q.guards.entries.find? fun e => e.2.seq = r.seq with _ | ⟨g', r'⟩
    · have hnone := List.find?_eq_none.mp hfind _ (SortedMap.get?_eq_some.mp hg)
      simp at hnone
    · have hg' := SortedMap.get?_eq_some.mpr (List.mem_of_find?_eq_some hfind)
      have hseq : r'.seq = r.seq := by simpa using List.find?_some hfind
      rw [hfind, Option.map_some, hdistinct g' g r' r hg' hg hseq]

theorem Inv.holder_iff (h : q.Inv) :
    q.holder t = some g ↔ ∃ r, q.guards.get? g = some r ∧ r.seq = t :=
  holder_eq_some h.distinct

theorem Inv.ready_iff (h : q.Inv) {e : ℕ × Bytes} :
    (q.item e).ready = true ↔ e.1 ∉ q.inner.reserved := by
  rw [Item.ready, Option.isNone_iff_eq_none, h.reserved, Option.eq_none_iff_forall_ne_some]
  constructor
  · rintro hnone ⟨g, r, hg, heq⟩
    exact hnone g (h.holder_iff.mpr ⟨r, hg, heq⟩)
  · rintro hnone g hg
    obtain ⟨r, hr, heq⟩ := h.holder_iff.mp hg
    exact hnone ⟨g, r, hr, heq⟩

@[simp] theorem count_abs : q.abs.count = q.items.size := by
  simp [Machine.count, abs, SortedMap.size]

@[simp] theorem total_abs : q.abs.total = q.items.sum fun _ v => v.length := by
  simp [Machine.total, abs, SortedMap.sum, item, Function.comp_def]

/-- The item held under a name is the guard's. -/
theorem Inv.held_abs (h : q.Inv) (g : ℕ) :
    q.abs.held g = (q.guards.get? g).map fun r => ⟨r.seq, r.value, some g⟩ := by
  rcases hg : q.guards.get? g with _ | r
  · refine List.find?_eq_none.mpr fun i hi hholder => ?_
    obtain ⟨e, -, rfl⟩ := List.mem_map.mp hi
    obtain ⟨r, hr, -⟩ := h.holder_iff.mp (of_decide_eq_true hholder)
    rw [hg] at hr
    cases hr
  · rcases hfind : q.abs.held g with _ | i
    · have hmem : q.item (r.seq, r.value) ∈ q.abs.items :=
        List.mem_map_of_mem (SortedMap.get?_eq_some.mp (h.held g r hg))
      have hnone := List.find?_eq_none.mp hfind _ hmem
      simp [item, h.holder_iff.mpr ⟨r, hg, rfl⟩] at hnone
    · obtain ⟨⟨t, v⟩, hmem, rfl⟩ := List.mem_map.mp (List.mem_of_find?_eq_some hfind)
      have hholder : q.holder t = some g := by
        have hsome := List.find?_some hfind
        exact of_decide_eq_true hsome
      obtain ⟨r', hr', rfl⟩ := h.holder_iff.mp hholder
      obtain rfl := Option.some.inj (hg.symm.trans hr')
      have hv := (h.held g r hg).symm.trans (SortedMap.get?_eq_some.mpr hmem)
      rw [Option.map_some, item, hholder, ← Option.some.inj hv]

/-! ## try_push -/

/-- A push that fails cleanly gives its slot back, and one that does not commits the entry. -/
theorem write_eq (hfirst : first.Clean) (hsecond : second.Clean) (seq : ℕ) :
    q.write seq value first second =
      if q.cfg.pushFails first second then
        ({ q with inner := q.inner.giveBack q.cfg value }, .storeError)
      else
        ({ q with
            store := q.store.commit [.put (entryKey seq) value] q.cfg.durability.durable .ok },
          .done) := by
  have hcases : ∀ {o : Outcome}, o.Clean → o = .ok ∨ o = .err [] := by
    rintro (_ | applied) ho
    · exact Or.inl rfl
    · obtain rfl : applied = [] := ho
      exact Or.inr rfl
  rw [write, groupCommit, Builder.pushFails]
  cases hgroup : q.cfg.durability.isGroup
  · rcases hcases hfirst with rfl | rfl <;> simp [Outcome.isOk]
  · rw [Durability.durable_of_isGroup hgroup]
    rcases hcases hfirst with rfl | rfl <;> rcases hcases hsecond with rfl | rfl <;>
      simp [Outcome.isOk, batchOps]

/-- What a commit of one op on an entry key does to the store. -/
theorem Inv.committed (h : q.Inv) (op : Op) {seq : ℕ} {c : Option Bytes} (hseq : seq < u64Size)
    (hop : op.update = (entryKey seq, c)) (durable : Bool) :
    WellKeyed (q.store.commit [op] durable .ok).live ∧
      (∃ record, (q.store.commit [op] durable .ok).get metaKey = some record ∧
        record.head?.getD 0 = formatVersion) ∧
      PersistentQueue.items (q.store.commit [op] durable .ok).live = q.items.apply (seq, c) := by
  have hlive : (q.store.commit [op] durable .ok).live = q.store.live.apply (entryKey seq, c) := by
    rw [Store.commit_one_live, hop]
    rfl
  refine ⟨?_, ?_, ?_⟩
  · rw [hlive]
    exact h.keyed.apply (fun _ => isEntry_entryKey seq) c
  · obtain ⟨record, hget, hversion⟩ := h.versioned
    refine ⟨record, ?_, hversion⟩
    rw [Store.get, hlive, SortedMap.get?_apply, if_neg (entryKey_ne_metaKey seq).symm]
    exact hget
  · rw [hlive]
    exact items_apply hseq c

/-- The queue after a push that landed. -/
def pushed (q : Handle) (value : Bytes) : Handle :=
  { q with
    inner := q.inner.claim q.cfg value
    store := q.store.commit [.put (entryKey q.inner.tail) value] q.cfg.durability.durable .ok }

/-- The queue after a push that failed. -/
def unpushed (q : Handle) (value : Bytes) : Handle :=
  { q with inner := (q.inner.claim q.cfg value).giveBack q.cfg value }

theorem Inv.items_pushed (h : q.Inv) (htail : q.inner.tail < u64Max) :
    (q.pushed value).items = q.items.insert q.inner.tail value :=
  (h.committed (.put _ value) (lt_u64Size_of_lt_u64Max htail) rfl _).2.2

theorem Inv.fresh_tail (h : q.Inv) : q.items.get? q.inner.tail = none := by
  rcases hi : q.items.get? q.inner.tail with _ | v
  · rfl
  · exact absurd (h.stored_lt _ v hi) (lt_irrefl _)

theorem Inv.pushed (h : q.Inv) (htail : q.inner.tail < u64Max)
    (hcap : q.items.size < q.cfg.capacity)
    (hsum : (q.items.sum fun _ v => v.length) + value.length < 2 ^ q.cfg.usizeBits) :
    (q.pushed value).Inv := by
  obtain ⟨hkeyed, hversioned, -⟩ := h.committed (.put (entryKey q.inner.tail) value)
    (lt_u64Size_of_lt_u64Max htail) rfl q.cfg.durability.durable
  have hitems : (q.pushed value).items = q.items.insert q.inner.tail value := h.items_pushed htail
  have hsucc : (q.pushed value).inner.tail = q.inner.tail + 1 := u64Succ_of_lt htail
  have hfresh := h.fresh_tail
  have hsize : (q.pushed value).items.size = q.items.size + 1 := by
    rw [hitems, SortedMap.size, SortedMap.entries_insert_of_lt h.stored_lt, List.length_append]
    rfl
  have hbytes : ((q.pushed value).items.sum fun _ v => v.length) =
      (q.items.sum fun _ v => v.length) + value.length := by
    rw [hitems, SortedMap.sum_insert_of_none _ _ hfresh]
  have hmax : q.items.size + 1 < 2 ^ q.cfg.usizeBits := by
    have hcap := Word.lt_of_le_maxVal q.cfg.capacity_le
    omega
  refine
    { keyed := hkeyed, versioned := hversioned, tail_le := ?_, head_le_tail := ?_
      stored_lt := fun t v ht => ?_, head_le := fun t v ht => ?_
      above_lt := fun t ht => ?_, above_gone := fun t ht => ?_, len := ?_, bytes := ?_
      size_lt := ?_, sum_lt := ?_, reserved := h.reserved, distinct := h.distinct
      held := fun g r hg => ?_ }
  · rw [hsucc]
    omega
  · rw [hsucc]
    exact h.head_le_tail.trans (Nat.le_succ _)
  · rw [hsucc]
    rw [hitems] at ht
    rcases SortedMap.of_get?_insert ht with ⟨rfl, -⟩ | ⟨-, ht⟩
    · exact Nat.lt_succ_self _
    · exact (h.stored_lt t v ht).trans (Nat.lt_succ_self _)
  · rw [hitems] at ht
    rcases SortedMap.of_get?_insert ht with ⟨rfl, -⟩ | ⟨-, ht⟩
    · exact h.head_le_tail
    · exact h.head_le t v ht
  · rw [hsucc]
    exact (h.above_lt t ht).trans (Nat.lt_succ_self _)
  · rw [hitems, SortedMap.get?_insert_ne _ _ (h.above_lt t ht).ne]
    exact h.above_gone t ht
  · rw [hsize, ← h.len]
    exact Word.wrapAdd_of_lt (h.len ▸ hmax)
  · rw [hbytes, ← h.bytes]
    exact Word.wrapAdd_of_lt (h.bytes ▸ hsum)
  · rw [hsize]
    exact hmax
  · rw [hbytes]
    exact hsum
  · rw [hitems, SortedMap.get?_insert_ne _ _ (h.guard_lt hg).ne]
    exact h.held g r hg

theorem Inv.unpushed (h : q.Inv) (htail : q.inner.tail < u64Max) : (q.unpushed value).Inv := by
  have hsucc : (q.unpushed value).inner.tail = q.inner.tail + 1 := u64Succ_of_lt htail
  refine
    { h with
      tail_le := ?_, head_le_tail := ?_, stored_lt := fun t v ht => ?_, above_lt := fun t ht => ?_
      len := ?_, bytes := ?_ }
  · rw [hsucc]
    omega
  · rw [hsucc]
    exact h.head_le_tail.trans (Nat.le_succ _)
  · rw [hsucc]
    exact (h.stored_lt t v ht).trans (Nat.lt_succ_self _)
  · rw [hsucc]
    exact (h.above_lt t ht).trans (Nat.lt_succ_self _)
  · exact (Word.wrapSub_wrapAdd (h.len ▸ h.size_lt) 1).trans h.len
  · exact (Word.wrapSub_wrapAdd (h.bytes ▸ h.sum_lt) value.length).trans h.bytes

theorem Inv.abs_pushed (h : q.Inv) (htail : q.inner.tail < u64Max) :
    (q.pushed value).abs =
      { q.abs with
        items := q.abs.items ++ [⟨q.abs.next, value, none⟩], next := q.abs.next + 1 } := by
  have hholder : q.holder q.inner.tail = none := by
    refine Option.eq_none_iff_forall_ne_some.mpr fun g hg => ?_
    obtain ⟨r, hr, heq⟩ := h.holder_iff.mp hg
    exact absurd (h.guard_lt hr) (heq ▸ lt_irrefl _)
  have hentries : (q.pushed value).items.entries = q.items.entries ++ [(q.inner.tail, value)] := by
    rw [h.items_pushed htail, SortedMap.entries_insert_of_lt h.stored_lt]
  have hsucc : (q.pushed value).inner.tail = q.inner.tail + 1 := u64Succ_of_lt htail
  simp only [Handle.abs]
  rw [hentries, hsucc, List.map_append, List.map_singleton]
  simp only [Machine.mk.injEq, true_and]
  refine ⟨rfl, congrArg (q.items.entries.map q.item ++ ·) ?_, rfl⟩
  rw [List.cons.injEq]
  refine ⟨?_, rfl⟩
  rw [← hholder]
  rfl

theorem Inv.abs_unpushed (htail : q.inner.tail < u64Max) :
    (q.unpushed value).abs = { q.abs with next := q.abs.next + 1 } := by
  have hsucc : (q.unpushed value).inner.tail = q.inner.tail + 1 := u64Succ_of_lt htail
  rw [Handle.abs]
  rw [hsucc]
  rfl

/-- The counters admit what the machine has room for. -/
theorem Inv.admits_iff (h : q.Inv)
    (hsum : (q.items.sum fun _ v => v.length) + value.length < 2 ^ q.cfg.usizeBits) :
    q.cfg.admits q.inner.len q.inner.bytes value.length = true ↔ q.abs.HasRoom value.length := by
  rw [h.len, h.bytes, Builder.admits, Word.satAdd_of_lt hsum]
  simp [Machine.HasRoom, Handle.abs, ← count_abs, ← total_abs]

/-- What a try_push comes to. -/
theorem Inv.tryPush_eq (h : q.Inv)
    (hsum : (q.items.sum fun _ v => v.length) + value.length < 2 ^ q.cfg.usizeBits)
    (hfirst : first.Clean) (hsecond : second.Clean) :
    q.tryPush value first second =
      if q.abs.closed then (q, .closed)
      else if ¬q.abs.HasRoom value.length then (q, .full)
      else if q.cfg.pushFails first second then (q.unpushed value, .storeError)
      else (q.pushed value, .done) := by
  have hadmits := h.admits_iff hsum
  rw [tryPush]
  rw [write_eq hfirst hsecond]
  by_cases hroom : q.abs.HasRoom value.length
  · rw [if_pos (hadmits.mpr hroom), if_neg (not_not.mpr hroom)]
    rfl
  · rw [if_neg fun hok => hroom (hadmits.mp hok), if_pos hroom]
    rfl

theorem Inv.tryPush_abs (h : q.Inv) (hfits : q.abs.Fits (.tryPush value first second)) :
    (q.step (.tryPush value first second)).map (Prod.map Handle.abs id) =
      q.abs.step (.tryPush value first second) := by
  obtain ⟨htail, hsum, hfirst, hsecond⟩ := hfits
  rw [total_abs] at hsum
  simp only [Handle.step, Machine.step, Option.map_some]
  rw [h.tryPush_eq hsum hfirst hsecond]
  split
  · rfl
  · split
    · rfl
    · rw [show q.abs.cfg = q.cfg from rfl]
      split
      · rw [Prod.map_apply, abs_unpushed htail]
        rfl
      · rw [Prod.map_apply, h.abs_pushed htail]
        rfl

theorem Inv.tryPush (h : q.Inv) (hfits : q.abs.Fits (.tryPush value first second)) :
    (q.tryPush value first second).1.Inv := by
  obtain ⟨htail, hsum, hfirst, hsecond⟩ := hfits
  rw [total_abs] at hsum
  rw [h.tryPush_eq hsum hfirst hsecond]
  split
  · exact h
  · split
    · exact h
    · next hroom =>
      split
      · exact h.unpushed htail
      · refine h.pushed htail ?_ hsum
        rw [← count_abs]
        exact (not_not.mp hroom).1

/-! ## reserve -/

/-- What the loop of `reserve` finds: the first item nobody holds, unless the failing seek comes
before. -/
theorem Inv.scan_eq (h : q.Inv) (fails : Option ℕ) :
    q.scan (q.items.size + 1) fails q.inner.head = some
      (if ∃ n ∈ fails, n ≤ (q.abs.items.takeWhile fun i => !i.ready).length then
        .error ()
      else
        .ok ((q.abs.items.find? Item.ready).map fun i => ⟨i.seq, i.value⟩)) := by
  have hall : q.items.above q.inner.head = q.items.entries := SortedMap.above_eq_entries h.head_le
  have hready : ∀ e, (q.item e).ready = decide (e.1 ∉ q.inner.reserved) := fun e =>
    Bool.eq_iff_iff.mpr (h.ready_iff.trans decide_eq_true_iff.symm)
  have hheld : (fun i : Item => !i.ready) ∘ q.item = fun e => decide (e.1 ∈ q.inner.reserved) :=
    funext fun e => by simp [hready]
  have hfree : Item.ready ∘ q.item = fun e => decide (e.1 ∉ q.inner.reserved) := funext hready
  rw [h.sound.scan_eq _ fails h.head_le_tail (by rw [hall]; exact Nat.lt_succ_self _), hall]
  simp only [abs, List.takeWhile_map, hheld, List.length_map, List.find?_map, hfree,
    Option.map_map]
  rfl

theorem Inv.reserve (h : q.Inv) (hg : q.guards.get? g = none)
    (hr : q.items.get? r.seq = some r.value) (hfree : r.seq ∉ q.inner.reserved) :
    Inv { q with inner := q.inner.reserve r.seq, guards := q.guards.insert g r } := by
  have hsound := h.sound.reserve hg hr hfree
  refine
    { h with reserved := hsound.reserved, distinct := hsound.distinct
             held := fun g' r' hg' => ?_ }
  rcases SortedMap.of_get?_insert hg' with ⟨-, rfl⟩ | ⟨-, hg'⟩
  · exact hr
  · exact h.held g' r' hg'

/-- What a reserve comes to. -/
theorem Inv.reserve_eq (h : q.Inv) (g : ℕ) (fails : Option ℕ) :
    q.reserve g fails =
      if (q.abs.held g).isSome then none
      else if ∃ n ∈ fails, n ≤ (q.abs.items.takeWhile fun i => !i.ready).length then
        some (q, .storeError)
      else
        match q.abs.items.find? Item.ready with
        | none => some (q, .nothing)
        | some i =>
          some ({ q with
            inner := q.inner.reserve i.seq, guards := q.guards.insert g ⟨i.seq, i.value⟩ },
            .item i.seq i.value) := by
  rw [Handle.reserve, h.held_abs]
  rcases hg : q.guards.get? g with _ | r
  · simp only [Option.map_none, Option.isSome_none, Bool.false_eq_true, if_false, h.scan_eq]
    by_cases hfails : ∃ n ∈ fails, n ≤ (q.abs.items.takeWhile fun i => !i.ready).length
    · rw [if_pos hfails, if_pos hfails]
    · rw [if_neg hfails, if_neg hfails]
      rcases q.abs.items.find? Item.ready with _ | i <;> rfl
  · rfl

/-- The item that a reserve finds is stored, and nobody holds it. -/
theorem Inv.of_find (h : q.Inv) {i : Item} (hi : q.abs.items.find? Item.ready = some i) :
    q.items.get? i.seq = some i.value ∧ i.seq ∉ q.inner.reserved := by
  obtain ⟨⟨t, v⟩, hmem, rfl⟩ := List.mem_map.mp (List.mem_of_find?_eq_some hi)
  exact ⟨SortedMap.get?_eq_some.mpr hmem, h.ready_iff.mp (List.find?_some hi)⟩

theorem Inv.holder_insert (h : q.Inv) (hg : q.guards.get? g = none)
    (hr : q.items.get? r.seq = some r.value) (hfree : r.seq ∉ q.inner.reserved) (t : ℕ) :
    holder { q with inner := q.inner.reserve r.seq, guards := q.guards.insert g r } t =
      if t = r.seq then some g else q.holder t := by
  refine Option.ext fun g' => ?_
  rw [(h.reserve hg hr hfree).holder_iff]
  constructor
  · rintro ⟨r', hg', rfl⟩
    rcases SortedMap.of_get?_insert hg' with ⟨rfl, rfl⟩ | ⟨-, hg'⟩
    · rw [if_pos rfl]
    · rw [if_neg fun heq => hfree ((h.reserved _).mpr ⟨g', r', hg', heq⟩)]
      exact h.holder_iff.mpr ⟨r', hg', rfl⟩
  · split
    · next heq =>
      rintro hsome
      obtain rfl := Option.some.inj hsome
      exact ⟨r, SortedMap.get?_insert_self _ _ _, heq.symm⟩
    · intro hholder
      obtain ⟨r', hg', heq⟩ := h.holder_iff.mp hholder
      refine ⟨r', (SortedMap.get?_insert_ne _ _ ?_).trans hg', heq⟩
      rintro rfl
      rw [hg] at hg'
      cases hg'

theorem Inv.reserve_abs (h : q.Inv) (g : ℕ) (fails : Option ℕ) :
    (q.step (.reserve g fails)).map (Prod.map Handle.abs id) = q.abs.step (.reserve g fails) := by
  simp only [Handle.step, Machine.step]
  rw [h.reserve_eq]
  by_cases hheld : (q.abs.held g).isSome
  · rw [if_pos hheld, if_pos hheld]
    rfl
  · have hg : q.guards.get? g = none := by
      rw [h.held_abs] at hheld
      simpa using hheld
    rw [if_neg hheld, if_neg hheld]
    split
    · rfl
    · rcases hi : q.abs.items.find? Item.ready with _ | i
      · rfl
      · obtain ⟨hstored, hfree⟩ := h.of_find hi
        simp only [Option.map_some, Prod.map_apply, id, Option.some.injEq, Prod.mk.injEq, and_true]
        simp only [Handle.abs, Machine.mk.injEq, true_and]
        refine ⟨?_, rfl, rfl⟩
        rw [List.map_map]
        refine List.map_congr_left fun e _ => ?_
        have hholder := h.holder_insert (r := ⟨i.seq, i.value⟩) hg hstored hfree e.1
        simp only [item, Function.comp_apply, hholder]
        by_cases heq : e.1 = i.seq <;> simp [heq]

/-- Every reserve keeps the invariant. -/
theorem Inv.reserve_inv (h : q.Inv) {fails : Option ℕ} {a : Answer}
    (hstep : q.reserve g fails = some (q', a)) : q'.Inv := by
  rw [h.reserve_eq] at hstep
  split at hstep
  · cases hstep
  · next hheld =>
    split at hstep
    · obtain ⟨rfl, -⟩ := Prod.mk.inj (Option.some.inj hstep)
      exact h
    · split at hstep
      · obtain ⟨rfl, -⟩ := Prod.mk.inj (Option.some.inj hstep)
        exact h
      · next i hi =>
        obtain ⟨rfl, -⟩ := Prod.mk.inj (Option.some.inj hstep)
        obtain ⟨hstored, hfree⟩ := h.of_find hi
        rw [h.held_abs] at hheld
        exact h.reserve (r := ⟨i.seq, i.value⟩) (by simpa using hheld) hstored hfree

/-! ## ack, nack and drop -/

theorem Inv.release (h : q.Inv) (hg : q.guards.get? g = some r) : (q.release g r).Inv :=
  { h with
    reserved := h.sound.reserved_erase hg
    distinct := h.sound.distinct_erase
    held := fun g' r' hg' => h.held g' r' (SortedMap.of_get?_erase hg').2 }

/-- The other guards hold what they held. -/
theorem Inv.holder_erase (h : q.Inv) {q' : Handle} (hguards : q'.guards = q.guards.erase g)
    (t : ℕ) : q'.holder t = if q.holder t = some g then none else q.holder t := by
  have hdistinct : ∀ g₁ g₂ r₁ r₂, q'.guards.get? g₁ = some r₁ → q'.guards.get? g₂ = some r₂ →
      r₁.seq = r₂.seq → g₁ = g₂ := by
    rw [hguards]
    exact h.sound.distinct_erase
  refine Option.ext fun g' => ?_
  rw [holder_eq_some hdistinct, hguards]
  constructor
  · rintro ⟨r', hg', rfl⟩
    obtain ⟨hne, hg'⟩ := SortedMap.of_get?_erase hg'
    have hholder : q.holder r'.seq = some g' := h.holder_iff.mpr ⟨r', hg', rfl⟩
    rw [hholder, if_neg fun heq => hne (Option.some.inj heq)]
  · split
    · intro hnone
      cases hnone
    · next hne =>
      intro hholder
      obtain ⟨r', hg', heq⟩ := h.holder_iff.mp hholder
      refine ⟨r', (SortedMap.get?_erase_ne _ ?_).trans hg', heq⟩
      rintro rfl
      exact hne hholder

theorem Inv.abs_release (h : q.Inv) (g : ℕ) (r : Reserved) :
    (q.release g r).abs = q.abs.putBack g := by
  simp only [Handle.abs, Machine.putBack, Machine.mk.injEq]
  refine ⟨rfl, ?_, rfl, rfl⟩
  rw [List.map_map]
  refine List.map_congr_left fun e _ => ?_
  have hholder := h.holder_erase (show (q.release g r).guards = q.guards.erase g from rfl) e.1
  by_cases heq : q.holder e.1 = some g <;> simp [item, hholder, heq]

/-- The queue after an ack that succeeded. -/
def acked (q : Handle) (g : ℕ) (r : Reserved) : Handle :=
  { q with
    store := q.store.commit [.delete (entryKey r.seq)] q.cfg.ackDurable .ok
    inner := q.inner.recordAck q.cfg r.seq r.value
    guards := q.guards.erase g }

/-- What an ack comes to. -/
theorem ack_eq (ho : o.Clean) (g : ℕ) (r : Reserved) :
    q.ack g r o = if o.isOk then (q.acked g r, .done) else (q.release g r, .storeError) := by
  rcases o with _ | applied
  · rfl
  · obtain rfl : applied = [] := ho
    simp only [ack, Store.commit_err_nil, Outcome.isOk, Bool.false_eq_true, if_false]

theorem Inv.items_acked (h : q.Inv) (hg : q.guards.get? g = some r) :
    (q.acked g r).items = q.items.erase r.seq :=
  (h.committed (.delete _) (h.lt_u64Size (h.guard_lt hg)) rfl _).2.2

theorem Inv.acked (h : q.Inv) (hg : q.guards.get? g = some r) : (q.acked g r).Inv := by
  have hsound : (q.acked g r).Sound := (h.sound.ack hg .ok).1
  obtain ⟨-, hversioned, -⟩ := h.committed (.delete (entryKey r.seq))
    (h.lt_u64Size (h.guard_lt hg)) rfl q.cfg.ackDurable
  have hitems := h.items_acked hg
  have hstored := h.held g r hg
  have hsize := SortedMap.sum_erase_add (fun _ _ => 1) hstored
  have hsum := SortedMap.sum_erase_add (fun _ v => v.length) hstored
  rw [← SortedMap.size_eq_sum, ← SortedMap.size_eq_sum] at hsize
  have hsizelt := h.size_lt
  have hsumlt := h.sum_lt
  refine
    { hsound with versioned := hversioned, len := ?_, bytes := ?_, size_lt := ?_, sum_lt := ?_
                  held := fun g' r' hg' => ?_ }
  · have hlen : (q.acked g r).inner.len = Word.wrapSub q.cfg.usizeBits q.inner.len 1 :=
      Inner.recordAck_len
    rw [hlen, hitems, h.len, Word.wrapSub_of_le hsizelt (by omega)]
    omega
  · have hbytes : (q.acked g r).inner.bytes =
        Word.wrapSub q.cfg.usizeBits q.inner.bytes r.value.length := Inner.recordAck_bytes
    rw [hbytes, hitems, h.bytes, Word.wrapSub_of_le hsumlt (by omega)]
    omega
  · rw [hitems]
    exact lt_of_le_of_lt (by omega) hsizelt
  · rw [hitems]
    exact lt_of_le_of_lt (by omega) hsumlt
  · obtain ⟨hne, hg'⟩ := SortedMap.of_get?_erase hg'
    rw [hitems, SortedMap.get?_erase_ne _ fun heq => hne (h.distinct g' g r' r hg' hg heq)]
    exact h.held g' r' hg'

theorem Inv.abs_acked (h : q.Inv) (hg : q.guards.get? g = some r) :
    (q.acked g r).abs =
      { q.abs with items := q.abs.items.filter fun i => i.holder ≠ some g } := by
  have htail : (q.acked g r).inner.tail = q.inner.tail := Inner.recordAck_tail
  have hclosed : (q.acked g r).inner.closed = q.inner.closed := Inner.recordAck_closed
  simp only [Handle.abs, Machine.mk.injEq, htail, hclosed, and_true]
  refine ⟨rfl, ?_⟩
  have hsame : ∀ e ∈ q.items.entries, e.1 ≠ r.seq ↔ q.holder e.1 ≠ some g := by
    intro e _
    rw [not_iff_not, h.holder_iff]
    constructor
    · intro heq
      exact ⟨r, hg, heq.symm⟩
    · rintro ⟨r', hg', heq⟩
      obtain rfl := Option.some.inj (hg.symm.trans hg')
      exact heq.symm
  have hentries : (q.items.erase r.seq).entries =
      q.items.entries.filter ((fun i => decide (i.holder ≠ some g)) ∘ q.item) :=
    List.filter_congr fun e he => decide_eq_decide.mpr (hsame e he)
  rw [h.items_acked hg, hentries, List.filter_map]
  refine List.map_congr_left fun e he => ?_
  have hne : q.holder e.1 ≠ some g := by
    have hmem := (List.mem_filter.mp he).2
    exact of_decide_eq_true hmem
  have hholder := h.holder_erase (show (q.acked g r).guards = q.guards.erase g from rfl) e.1
  simp [item, hholder, hne]

/-! ## reopen -/

/-- A queue just opened holds what is stored, all of it ready. -/
theorem inv_opened {b : Builder} {st : Store} {inner : Inner} (hkeyed : WellKeyed st.live)
    (hbound : ∀ t v, (PersistentQueue.items st.live).get? t = some v → t < u64Max)
    (hsize : (PersistentQueue.items st.live).size < 2 ^ b.usizeBits)
    (hsum : ((PersistentQueue.items st.live).sum fun _ v => v.length) < 2 ^ b.usizeBits)
    (hversion : ∃ record, st.get metaKey = some record ∧ record.head?.getD 0 = formatVersion)
    (h : Recovered b (PersistentQueue.items st.live) inner) : (opened b st inner).Inv where
  keyed := hkeyed
  versioned := hversion
  tail_le := by
    rcases h.tail_pred with hzero | ⟨s, v, hs, htail⟩
    · exact hzero ▸ Nat.zero_le _
    · have hlt := hbound s v hs
      simp only [opened]
      omega
  head_le_tail := by
    rcases h.head_eq with heq | ⟨v, hv⟩
    · exact heq.le
    · exact (h.lt_tail _ v hv).le
  stored_lt := h.lt_tail
  head_le := h.head_le
  above_lt := fun t ht => by simp [opened, h.ackedAbove_eq] at ht
  above_gone := fun t ht => by simp [opened, h.ackedAbove_eq] at ht
  len := h.len_eq
  bytes := h.bytes_eq.trans (Nat.mod_eq_of_lt hsum)
  size_lt := hsize
  sum_lt := hsum
  reserved := fun t => by
    simp only [opened, h.reserved_eq]
    constructor
    · intro ht
      cases ht
    · rintro ⟨g, r, hg, -⟩
      cases hg
  distinct := fun _ _ _ _ hg => by cases hg
  held := fun _ _ hg => by cases hg

/-- The machine over a store: all items ready, and the next seq above the last one. -/
theorem abs_opened {b : Builder} {st : Store} {inner : Inner}
    (h : Recovered b (PersistentQueue.items st.live) inner) :
    (opened b st inner).abs =
      { cfg := b, items := (PersistentQueue.items st.live).entries.map fun e => ⟨e.1, e.2, none⟩
        next := ((PersistentQueue.items st.live).entries.getLast?.map fun e => e.1 + 1).getD 0
        closed := false } := by
  rw [← h.tail_eq, ← h.closed_eq]
  rfl

/-- The items are all ready when no guard is left. -/
theorem Inv.all_ready (h : q.Inv) : q.abs.items.all Item.ready = true ↔ q.guards.entries = [] := by
  rw [List.all_eq_true]
  constructor
  · intro hall
    refine List.eq_nil_iff_forall_not_mem.mpr ?_
    rintro ⟨g, r⟩ hmem
    have hg := SortedMap.get?_eq_some.mpr hmem
    have hready := hall (q.item (r.seq, r.value))
      (List.mem_map_of_mem (SortedMap.get?_eq_some.mp (h.held g r hg)))
    exact h.ready_iff.mp hready ((h.reserved _).mpr ⟨g, r, hg, rfl⟩)
  · intro hnil i hi
    obtain ⟨e, -, rfl⟩ := List.mem_map.mp hi
    refine h.ready_iff.mpr fun hmem => ?_
    obtain ⟨g, r, hg, -⟩ := (h.reserved _).mp hmem
    rw [SortedMap.get?_of_entries_nil hnil] at hg
    cases hg

/-- What a reopen comes to. -/
theorem Inv.reopen_eq (h : q.Inv) {b : Builder} (hb : b.usizeBits = q.cfg.usizeBits) :
    ∃ inner, Recovered b q.items inner ∧ (opened b q.store inner).Inv ∧
      q.reopen b =
        if q.guards.entries = [] then some (opened b q.store inner, .done) else none := by
  obtain ⟨record, hget, hversion⟩ := h.versioned
  have hbound : ∀ t v, q.items.get? t = some v → t < u64Max :=
    fun t v ht => h.lt_u64Max (h.stored_lt t v ht)
  have hsize := h.size_lt
  have hsum := h.sum_lt
  rw [← hb] at hsize hsum
  obtain ⟨inner, hopen⟩ := open_again (b := b) h.keyed hbound hget hversion (Nat.lt_succ_self _)
  have hrecovered := open_recovered h.keyed hbound hsize hopen
  refine ⟨inner, hrecovered,
    inv_opened h.keyed hbound hsize hsum ⟨record, hget, hversion⟩ hrecovered, ?_⟩
  rw [Handle.reopen]
  split
  · rw [show q.items.size = (PersistentQueue.items q.store.live).size from rfl, hopen]
  · rfl

theorem Inv.reopen_abs (h : q.Inv) {b : Builder} (hfits : q.abs.Fits (.reopen b)) :
    (q.step (.reopen b)).map (Prod.map Handle.abs id) = q.abs.step (.reopen b) := by
  obtain ⟨inner, hrecovered, -, heq⟩ := h.reopen_eq hfits
  simp only [Handle.step, Machine.step, heq]
  by_cases hnil : q.guards.entries = []
  · rw [if_pos hnil, if_pos (h.all_ready.mpr hnil), Option.map_some, Prod.map_apply,
      abs_opened hrecovered]
    have hitem : ∀ e, q.item e = ⟨e.1, e.2, none⟩ := by
      intro e
      simp [item, holder, hnil]
    have hitems : q.abs.items = q.items.entries.map fun e => ⟨e.1, e.2, none⟩ :=
      List.map_congr_left fun e _ => hitem e
    rw [hitems, List.getLast?_map, Option.map_map]
    rfl
  · rw [if_neg hnil, if_neg fun hall => hnil (h.all_ready.mp hall)]
    rfl

/-! ## Every call -/

/-- **Every call commutes with the abstraction.** -/
theorem step_abs (q : Handle) (a : Request) (h : q.Inv) (hfits : q.abs.Fits a) :
    (q.step a).map (Prod.map Handle.abs id) = q.abs.step a := by
  have hput : ∀ g, ((q.guards.get? g).map fun r => (q.release g r, Answer.done)).map
      (Prod.map Handle.abs id) = (q.abs.held g).map fun _ => (q.abs.putBack g, Answer.done) := by
    intro g
    rw [h.held_abs, Option.map_map, Option.map_map]
    refine congrArg (Option.map · _) (funext fun r => ?_)
    simp only [Function.comp_apply, Prod.map_apply, id, h.abs_release]
  cases a with
  | tryPush value first second => exact h.tryPush_abs hfits
  | reserve g fails => exact h.reserve_abs g fails
  | ack g o =>
    have ho : o.Clean := hfits
    simp only [Handle.step, Machine.step]
    rw [h.held_abs, Option.map_map, Option.map_map]
    rcases hg : q.guards.get? g with _ | r
    · rfl
    · simp only [Option.map_some, Function.comp_apply, ack_eq ho]
      split
      · rw [Prod.map_apply, h.abs_acked hg]
        rfl
      · rw [Prod.map_apply, h.abs_release]
        rfl
  | nack g => exact hput g
  | dropGuard g => exact hput g
  | close => rfl
  | len =>
    simp only [Handle.step, Machine.step, Option.map_some, Prod.map_apply, id, count_abs, h.len]
  | reopen b => exact h.reopen_abs hfits

/-- Every call keeps the invariant. -/
theorem step_inv (q : Handle) (a : Request) (q' : Handle) (b : Answer) (h : q.Inv)
    (hfits : q.abs.Fits a) (hstep : q.step a = some (q', b)) : q'.Inv := by
  have hput : ∀ g, ((q.guards.get? g).map fun r => (q.release g r, Answer.done)) = some (q', b) →
      q'.Inv := by
    intro g hstep
    obtain ⟨r, hg, heq⟩ := Option.map_eq_some_iff.mp hstep
    obtain ⟨rfl, -⟩ := Prod.mk.inj heq
    exact h.release hg
  cases a with
  | tryPush value first second =>
    have hinv := h.tryPush hfits
    rw [Option.some.inj hstep] at hinv
    exact hinv
  | reserve g fails => exact h.reserve_inv hstep
  | ack g o =>
    have ho : o.Clean := hfits
    obtain ⟨r, hg, heq⟩ := Option.map_eq_some_iff.mp hstep
    rw [ack_eq ho] at heq
    split at heq
    · obtain ⟨rfl, -⟩ := Prod.mk.inj heq
      exact h.acked hg
    · obtain ⟨rfl, -⟩ := Prod.mk.inj heq
      exact h.release hg
  | nack g => exact hput g hstep
  | dropGuard g => exact hput g hstep
  | close =>
    obtain ⟨rfl, -⟩ := Prod.mk.inj (Option.some.inj hstep)
    exact { h with }
  | len =>
    obtain ⟨rfl, -⟩ := Prod.mk.inj (Option.some.inj hstep)
    exact h
  | reopen c =>
    obtain ⟨inner, -, hinv, heq⟩ := h.reopen_eq hfits
    rw [show q.step (.reopen c) = q.reopen c from rfl, heq] at hstep
    split at hstep
    · obtain ⟨rfl, -⟩ := Prod.mk.inj (Option.some.inj hstep)
      exact hinv
    · cases hstep

end Handle

/-- The reference machine over the items of a store. -/
def Machine.opened (b : Builder) (m : SortedMap ℕ Bytes) : Machine :=
  { cfg := b, items := m.entries.map fun e => ⟨e.1, e.2, none⟩
    next := (m.entries.getLast?.map fun e => e.1 + 1).getD 0, closed := false }

/-- **The queue refines the reference machine.** Opened over any well-keyed store, it gives
the machine's answers to every list of requests whose callers keep their promises. -/
theorem refines_fifo {b : Builder} {st st' : Store} {inner : Inner} {fuel : ℕ}
    {requests : List Request} (hkeyed : WellKeyed st.live)
    (hbound : ∀ t v, (items st.live).get? t = some v → t < u64Max)
    (hsize : b.usizeBits < 64 → (items st.live).size < 2 ^ b.usizeBits)
    (hsum : ((items st.live).sum fun _ v => v.length) < 2 ^ b.usizeBits)
    (hopen : b.open st none fuel = some (st', .ok inner))
    (hfits : Promised Machine.step Machine.Fits (Machine.opened b (items st.live)) requests) :
    (replies Handle.step (Handle.opened b st' inner) requests).map (Prod.map Handle.abs id) =
      replies Machine.step (Machine.opened b (items st.live)) requests := by
  have hfit := size_fits hbound hsize
  have hrecovered := open_recovered hkeyed hbound hfit hopen
  obtain ⟨hitems, hkeyed'⟩ := open_items hopen
  rw [← hitems] at hbound hfit hsum hfits ⊢
  have habs : (Handle.opened b st' inner).abs = Machine.opened b (items st'.live) :=
    Handle.abs_opened hrecovered
  rw [← habs] at hfits ⊢
  exact replies_map Handle.abs Handle.step_abs Handle.step_inv
    (Handle.inv_opened (hkeyed' hkeyed) hbound hfit hsum (open_version hopen) hrecovered) hfits

/-- A store with a gap between its two entries, and no meta record. -/
def gapped : Store :=
  Store.empty.commit [.put (entryKey 3) [1], .put (entryKey 5) [2, 2]] true .ok

/-- Calls of every kind, with failures, a close, and a reopen under another policy. -/
def manyCalls : List Request :=
  [.len, .reserve 0 (some 1), .reserve 1 (some 1), .reserve 1 none, .nack 0,
    .tryPush [3] .errClean .ok, .tryPush [4] .ok .ok, .ack 1 .errClean, .reserve 0 none,
    .ack 0 .ok, .close, .tryPush [5] .ok .ok,
    .reopen (Builder.group64.setCapacity 3 (by decide) (by decide)),
    .tryPush [5] .errClean .ok, .tryPush [6] .ok .ok, .reserve 2 none, .dropGuard 2]

/-- `refines_fifo` over that store, for those calls. -/
theorem refines_fifo_gapped :
    ∃ st' inner, Builder.default64.open gapped none 3 = some (st', .ok inner) ∧
      (replies Handle.step (Handle.opened .default64 st' inner) manyCalls).map
          (Prod.map Handle.abs id) =
        replies Machine.step (Machine.opened .default64 (items gapped.live)) manyCalls := by
  have hkeyed : WellKeyed gapped.live := by decide
  have hseqs : ∀ e ∈ (items gapped.live).entries, e.1 < u64Max := by decide
  have hopen : ∃ st' inner, Builder.default64.open gapped none 3 = some (st', .ok inner) :=
    ⟨_, _, rfl⟩
  refine hopen.imp fun st' => Exists.imp fun inner h => ⟨h, ?_⟩
  exact refines_fifo hkeyed (fun t v ht => hseqs (t, v) (SortedMap.get?_eq_some.mp ht))
    (by decide) (by decide) h (by decide)

end PersistentQueue
