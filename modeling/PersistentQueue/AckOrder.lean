import PersistentQueue.Lib.Replies
import PersistentQueue.Operations

/-!
# Acks commute

An ack either moves the head over a row of remembered acks or is remembered itself, so two
acks leave different states behind between them in one order and in the other. Afterwards
nothing shows which one was first: the head is the first seq from the one recovered at open on
that was not acked, and `acked_above` has the acked seqs above it (`Inner.recordAll_mark`).
Everything else an ack does (free a slot, give up the guard, delete the entry) is the same in
any order, down to what a crash may leave of the store (`Journaled.write_perm`).
-/

namespace PersistentQueue

namespace Inner

variable {b : Builder} {i : Inner}

/-- Record the acks of these items, first to last. -/
def recordAll (b : Builder) (i : Inner) (rs : List Reserved) : Inner :=
  rs.foldl (fun i r => i.recordAck b r.seq r.value) i

@[simp] theorem recordAll_nil : i.recordAll b [] = i := rfl

@[simp] theorem recordAll_cons (r : Reserved) (rs : List Reserved) :
    i.recordAll b (r :: rs) = (i.recordAck b r.seq r.value).recordAll b rs := rfl

/-- No remembered ack is of the last `u64`. -/
theorem recordAck_above_lt {r : Reserved} (hr : r.seq < u64Max)
    (habove : ∀ t ∈ i.ackedAbove, t < u64Max) :
    ∀ t ∈ (i.recordAck b r.seq r.value).ackedAbove, t < u64Max := by
  intro t ht
  rcases (recordAck_cursor hr habove).2.2 t ht with rfl | hold
  · exact hr
  · exact habove t hold

/-- A row of acks moves the head as acknowledgements move a low-water mark. -/
theorem recordAll_mark {start : ℕ} : ∀ {rs : List Reserved} {i : Inner} {acks : List ℕ},
    Watermark start acks i.head i.ackedAbove → (∀ r ∈ rs, start ≤ r.seq ∧ r.seq < u64Max) →
    (∀ t ∈ i.ackedAbove, t < u64Max) →
    Watermark start ((rs.map Reserved.seq).reverse ++ acks) (i.recordAll b rs).head
      (i.recordAll b rs).ackedAbove := by
  intro rs
  induction rs with
  | nil => intro i acks h _ _; exact h
  | cons r rs ih =>
    intro i acks h hrs habove
    obtain ⟨hstart, hmax⟩ := hrs r List.mem_cons_self
    rw [List.map_cons, List.reverse_cons, List.append_assoc, List.singleton_append]
    exact ih (recordAck_mark h hstart hmax habove)
      (fun r' hr' => hrs r' (List.mem_cons_of_mem _ hr')) (recordAck_above_lt hmax habove)

/-- What a row of acks does to the rest of the state does not depend on its order. -/
theorem recordAll_perm {rs rs' : List Reserved} (hperm : rs.Perm rs') :
    (i.recordAll b rs).tail = (i.recordAll b rs').tail ∧
    (i.recordAll b rs).len = (i.recordAll b rs').len ∧
    (i.recordAll b rs).bytes = (i.recordAll b rs').bytes ∧
    (i.recordAll b rs).reserved = (i.recordAll b rs').reserved ∧
    (i.recordAll b rs).closed = (i.recordAll b rs').closed := by
  -- each of these fields is a fold of its own
  have hfold : ∀ {α : Type} (field : Inner → α) (move : α → Reserved → α),
      (∀ i r, field (recordAck b i r.seq r.value) = move (field i) r) →
      (∀ a r r', move (move a r) r' = move (move a r') r) →
      field (i.recordAll b rs) = field (i.recordAll b rs') := by
    intro α field move hmove hcomm
    have heq : ∀ (rs : List Reserved) (i : Inner),
        field (i.recordAll b rs) = rs.foldl move (field i) := by
      intro rs
      induction rs with
      | nil => intro i; rfl
      | cons r rs ih =>
        intro i
        rw [recordAll_cons, ih, hmove, List.foldl_cons]
    rw [heq, heq]
    exact hperm.foldl_eq' (fun r _ r' _ a => hcomm a r r') _
  refine ⟨hfold tail (fun a _ => a) (fun _ _ => recordAck_tail) fun _ _ _ => rfl,
    hfold len (fun a _ => Word.wrapSub b.usizeBits a 1) (fun _ _ => recordAck_len)
      fun _ _ _ => rfl,
    hfold bytes (fun a r => Word.wrapSub b.usizeBits a r.value.length)
      (fun _ _ => recordAck_bytes) fun _ _ _ => Word.wrapSub_right_comm _ _ _ _,
    hfold reserved (fun a r => a.erase r.seq) (fun _ _ => recordAck_reserved)
      fun _ _ _ => Finset.erase_right_comm,
    hfold closed (fun a _ => a) (fun _ _ => recordAck_closed) fun _ _ _ => rfl⟩

end Inner

namespace Handle

variable {q : Handle} {held other : List (ℕ × Reserved)}

/-- The acks of these guards, one after the other, each of them successful. -/
def acksOf (held : List (ℕ × Reserved)) : List Request := held.map fun e => .ack e.1 .ok

/-- The seqs under these guards. -/
def seqsOf (held : List (ℕ × Reserved)) : Finset ℕ := (held.map fun e => e.2.seq).toFinset

/-- The queue after these acks. -/
def ackAll (q : Handle) (held : List (ℕ × Reserved)) : Handle :=
  { q with
    inner := q.inner.recordAll q.cfg (held.map Prod.snd)
    store := q.store.write (held.map fun e => (entryKey e.2.seq, none)) q.cfg.ackDurable
    guards := q.guards.applyAll (held.map fun e => (e.1, none)) }

/-- The queue has these guards, of different seqs from the head on. -/
structure Holds (q : Handle) (held : List (ℕ × Reserved)) : Prop where
  guards : ∀ e ∈ held, q.guards.get? e.1 = some e.2
  head_le : ∀ e ∈ held, q.inner.head ≤ e.2.seq
  lt_max : ∀ e ∈ held, e.2.seq < u64Max
  nodup : (held.map fun e => e.2.seq).Nodup

namespace Holds

theorem perm (h : q.Holds held) (hperm : other.Perm held) : q.Holds other where
  guards := fun e he => h.guards e (hperm.mem_iff.mp he)
  head_le := fun e he => h.head_le e (hperm.mem_iff.mp he)
  lt_max := fun e he => h.lt_max e (hperm.mem_iff.mp he)
  nodup := (hperm.map _).nodup_iff.mpr h.nodup

/-- A guard has one seq, so the names are different too. -/
theorem names_nodup (h : q.Holds held) : (held.map Prod.fst).Nodup := by
  refine List.Nodup.of_map (fun g => (q.guards.get? g).map Reserved.seq) ?_
  rw [List.map_map]
  have heq : (held.map fun e => (q.guards.get? e.1).map Reserved.seq) =
      (held.map fun e => e.2.seq).map some := by
    rw [List.map_map]
    exact List.map_congr_left fun e he => by rw [h.guards e he]; rfl
  exact heq ▸ h.nodup.map (Option.some_injective ℕ)

theorem keys_nodup (h : q.Holds held) : (held.map fun e => entryKey e.2.seq).Nodup := by
  have hkeys : (held.map fun e => entryKey e.2.seq) = (held.map fun e => e.2.seq).map entryKey := by
    rw [List.map_map]
    rfl
  rw [hkeys]
  refine List.Nodup.map_on (fun s hs t ht heq => ?_) h.nodup
  have hlt : ∀ {t}, t ∈ held.map (fun e => e.2.seq) → t < u64Size := by
    rintro _ hmem
    obtain ⟨e, he, rfl⟩ := List.mem_map.mp hmem
    exact lt_u64Size_of_lt_u64Max (h.lt_max e he)
  exact (entryKey_inj (hlt hs) (hlt ht)).mp heq

end Holds

/-- One ack after the other leads to the state with all of them. -/
theorem replies_acksOf : ∀ {held : List (ℕ × Reserved)} {q : Handle},
    (∀ e ∈ held, q.guards.get? e.1 = some e.2) → (held.map Prod.fst).Nodup →
    replies Handle.step q (acksOf held) = some (q.ackAll held, held.map fun _ => .done) := by
  intro held
  induction held with
  | nil =>
    intro q _ _
    have hnil : q.ackAll [] = q := by simp [ackAll]
    rw [hnil]
    rfl
  | cons e held ih =>
    intro q hheld hnodup
    obtain ⟨hne, hnodup⟩ := List.nodup_cons.mp hnodup
    have hstep : q.step (.ack e.1 .ok) = some (q.ackAll [e], .done) := by
      rw [step, hheld e List.mem_cons_self]
      rfl
    have hleft : ∀ e' ∈ held, (q.ackAll [e]).guards.get? e'.1 = some e'.2 := by
      intro e' he'
      rw [← hheld e' (List.mem_cons_of_mem _ he')]
      refine SortedMap.get?_erase_ne _ fun heq => hne ?_
      exact heq ▸ List.mem_map_of_mem he'
    have hall : (q.ackAll [e]).ackAll held = q.ackAll (e :: held) := by
      simp only [ackAll, List.map_cons, List.map_nil, SortedMap.applyAll_cons,
        SortedMap.applyAll_nil, Inner.recordAll_cons, Inner.recordAll_nil]
      congr 1
      exact (Journaled.write_append _ [_] _ _).symm
    rw [show acksOf (e :: held) = .ack e.1 .ok :: acksOf held from rfl, replies, hstep]
    simp only [ih hleft hnodup, hall, Option.map_some, List.map_cons]

/-- The head stops at the first seq that was not acked, and remembers the acks above it. -/
theorem ackAll_head (h : q.Holds held) (hnone : q.inner.ackedAbove = ∅) :
    IsLeast {t | q.inner.head ≤ t ∧ t ∉ seqsOf held} (q.ackAll held).inner.head ∧
    (q.ackAll held).inner.ackedAbove =
      (seqsOf held).filter ((q.ackAll held).inner.head < ·) := by
  have hseqs : ∀ r ∈ held.map Prod.snd, q.inner.head ≤ r.seq ∧ r.seq < u64Max := by
    intro r hr
    obtain ⟨e, he, rfl⟩ := List.mem_map.mp hr
    exact ⟨h.head_le e he, h.lt_max e he⟩
  have hmark : Watermark q.inner.head (((held.map Prod.snd).map Reserved.seq).reverse ++ [])
      (q.ackAll held).inner.head (q.ackAll held).inner.ackedAbove :=
    Inner.recordAll_mark (hnone ▸ Watermark.init q.inner.head) hseqs
      fun t ht => absurd (hnone ▸ ht) (Finset.notMem_empty t)
  rw [List.append_nil, List.map_map] at hmark
  have hmem : ∀ t, t ∈ (held.map (Reserved.seq ∘ Prod.snd)).reverse ↔ t ∈ seqsOf held :=
    fun t => List.mem_reverse.trans List.mem_toFinset.symm
  have hleast := hmark.isLeast
  simp only [hmem] at hleast
  refine ⟨hleast, Finset.ext fun t => ?_⟩
  rw [Finset.mem_filter, ← hmem]
  exact hmark.mem_above (List.nodup_reverse.mpr h.nodup)

/-- Acks in another order lead to the same state. -/
theorem ackAll_perm (h : q.Holds held) (hnone : q.inner.ackedAbove = ∅)
    (hperm : other.Perm held) :
    (q.ackAll other).inner = (q.ackAll held).inner ∧
    (q.ackAll other).guards = (q.ackAll held).guards ∧
    (q.ackAll other).store.Alike (q.ackAll held).store := by
  have hother := h.perm hperm
  have hseqs : seqsOf other = seqsOf held := List.toFinset_eq_of_perm _ _ (hperm.map _)
  obtain ⟨hleast, habove⟩ := ackAll_head hother hnone
  obtain ⟨hleast', habove'⟩ := ackAll_head h hnone
  rw [hseqs] at hleast habove
  have hhead := hleast.unique hleast'
  obtain ⟨htail, hlen, hbytes, hreserved, hclosed⟩ :=
    Inner.recordAll_perm (b := q.cfg) (i := q.inner) (hperm.map Prod.snd)
  refine ⟨?_, SortedMap.applyAll_perm (hperm.map _) ?_ _,
    Journaled.write_perm (hperm.map _) ?_ _⟩
  · refine Inner.ext htail hhead ?_ hlen hbytes hreserved hclosed
    rw [habove, habove', hhead]
  · rw [List.map_map]
    exact hother.names_nodup
  · rw [List.map_map]
    exact hother.keys_nodup

end Handle

/-- **Acks commute.** From a head set at open, the acks of any guards with distinct seqs from
the head on, one after the other and in any order, leave the head at the least seq that was
not acked, remember exactly the acks above it, and leave the same state and the same store. The
loop that moves the head has at most as many iterations as there are remembered acks. -/
theorem acks_commute {q : Handle} {held : List (ℕ × Reserved)} (h : q.Holds held)
    (hnone : q.inner.ackedAbove = ∅) :
    (∃ q', replies Handle.step q (Handle.acksOf held) = some (q', held.map fun _ => .done) ∧
      IsLeast {t | q.inner.head ≤ t ∧ t ∉ Handle.seqsOf held} q'.inner.head ∧
      q'.inner.ackedAbove = (Handle.seqsOf held).filter (q'.inner.head < ·) ∧
      ∀ other, other.Perm held → ∃ q'',
        replies Handle.step q (Handle.acksOf other) = some (q'', other.map fun _ => .done) ∧
        q''.inner = q'.inner ∧ q''.guards = q'.guards ∧ q''.store.Alike q'.store) ∧
    ∀ i : Inner, ∃ n ≤ i.ackedAbove.card, Sweeps u64Succ n i.ackedAbove (u64Succ i.head)
      (Inner.jump i.ackedAbove (u64Succ i.head)) := by
  obtain ⟨hleast, habove⟩ := Handle.ackAll_head h hnone
  refine ⟨⟨q.ackAll held, Handle.replies_acksOf h.guards h.names_nodup, hleast, habove,
    fun other hperm => ⟨q.ackAll other, ?_, Handle.ackAll_perm h hnone hperm⟩⟩,
    fun i => sweeps_sweep (le_refl _)⟩
  have hother := h.perm hperm
  exact Handle.replies_acksOf hother.guards hother.names_nodup

/-- Three items, all of them handed out. -/
def threeHeld : Handle where
  cfg := .default64
  inner :=
    { tail := 3, head := 0, ackedAbove := ∅, len := 3, bytes := 6, reserved := {0, 1, 2}
      closed := false }
  store := Store.empty.commit
    [.put (entryKey 0) [1], .put (entryKey 1) [2, 2], .put (entryKey 2) [3, 3, 3]] true .ok
  guards := SortedMap.empty.applyAll
    [(0, some ⟨0, [1]⟩), (1, some ⟨1, [2, 2]⟩), (2, some ⟨2, [3, 3, 3]⟩)]

/-- The acks of the first and the third, in both orders. -/
theorem acks_commute_two :
    ∃ q q', replies Handle.step threeHeld [.ack 2 .ok, .ack 0 .ok] = some (q, [.done, .done]) ∧
      replies Handle.step threeHeld [.ack 0 .ok, .ack 2 .ok] = some (q', [.done, .done]) ∧
      IsLeast {t | 0 ≤ t ∧ t ∉ Handle.seqsOf [(2, ⟨2, [3, 3, 3]⟩), (0, ⟨0, [1]⟩)]} q.inner.head ∧
      q'.inner = q.inner ∧ q'.store.Alike q.store := by
  have hholds : threeHeld.Holds [(2, ⟨2, [3, 3, 3]⟩), (0, ⟨0, [1]⟩)] :=
    ⟨by decide, by decide, by decide, by decide⟩
  obtain ⟨⟨q, hq, hleast, -, hother⟩, -⟩ := acks_commute hholds rfl
  obtain ⟨q', hq', hinner, -, halike⟩ := hother _ (List.Perm.swap _ _ _)
  exact ⟨q, q', hq, hq', hleast, hinner, halike⟩

end PersistentQueue
