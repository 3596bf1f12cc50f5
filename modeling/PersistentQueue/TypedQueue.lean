import PersistentQueue.Typed
import PersistentQueue.Refinement

/-!
# A queue of values

Two layers over the queue take values instead of bytes: the typed one, with a codec, and the
zero-copy one. They differ in what they make of the bytes of a reserved item and in what its
guard keeps, which is a `Layer`; everything else they pass on to the queue below.

To its caller such a queue is a list of values (`TypedMachine`): what is pushed is received, in
the same order, and bytes or encodings are nowhere to be seen. An item of another origin may
not decode, and it stays in front. `Layer.refines_values` is the refinement, for any layer, and
`typed_refines_fifo` is the typed queue.
-/

namespace PersistentQueue

variable {T V G : Type}

namespace Handle

variable (q : Handle)

/-- Append a value, waiting while the queue is at capacity: its only caller waits for ever. -/
def push (value : Bytes) (first second : Outcome) : Option (Handle × Answer) :=
  if q.inner.closed then
    some (q, .closed)
  else if q.cfg.admits q.inner.len q.inner.bytes value.length then
    some (write { q with inner := q.inner.claim q.cfg value } q.inner.tail value first second)
  else
    none

/-- Whether the queue holds no unacked items. -/
def isEmpty : Bool := q.inner.len = 0

variable {q} {value : Bytes} {first second o : Outcome} {g : ℕ}

theorem write_guards (seq : ℕ) : (q.write seq value first second).1.guards = q.guards := by
  rw [write]
  split
  split <;> rfl

theorem write_ne_full (seq : ℕ) : (q.write seq value first second).2 ≠ .full := by
  rw [write]
  split
  split <;> simp

theorem tryPush_guards : (q.tryPush value first second).1.guards = q.guards := by
  rw [tryPush]
  split
  · rfl
  · split
    · exact write_guards _
    · rfl

/-- A push is a try_push, but for a full queue. -/
theorem push_eq : q.push value first second =
    if (q.tryPush value first second).2 = .full then none
    else some (q.tryPush value first second) := by
  rw [push, tryPush]
  split
  · rw [if_neg (by simp)]
  · split
    · rw [if_neg (write_ne_full _)]
    · rw [if_pos rfl]

theorem ack_guards {r : Reserved} : (q.ack g r o).1.guards = q.guards.erase g := by
  rw [ack]
  split <;> rfl

end Handle

/-! ## The layers -/

/-- What a queue of values does with bytes. -/
structure Layer (T V G : Type) where
  /-- the bytes that a push stores -/
  encode : T → Except CodecError Bytes
  /-- what a reserve makes of the bytes -/
  decode : Bytes → Except CodecError V
  /-- what the guard of an item keeps -/
  keep : Bytes → V → G
  /-- reading a guard; nothing where that has no defined behaviour -/
  read : G → Option V

/-- A call of a queue of values, with what becomes of its store calls. -/
inductive TypedRequest (T : Type) : Type where
  /-- push -/
  | push (value : T) (first second : Outcome)
  /-- reserve, its guard to be named `g`; the seek with number `fails` fails -/
  | reserve (g : ℕ) (fails : Option ℕ)
  /-- the value of a guard is read -/
  | read (g : ℕ)
  /-- seq -/
  | seq (g : ℕ)
  /-- ack -/
  | ack (g : ℕ) (o : Outcome)
  /-- nack -/
  | nack (g : ℕ)
  /-- a guard is dropped -/
  | dropGuard (g : ℕ)
  /-- close -/
  | close
  /-- len -/
  | len
  /-- is_empty -/
  | isEmpty
  /-- both ends are dropped, and a queue is opened over the store -/
  | reopen (b : Builder)

/-- What a call of a queue of values returns. -/
inductive TypedReply (V : Type) : Type where
  /-- what the queue below returns -/
  | answer (a : Answer)
  /-- the encoder's error -/
  | encodeError (e : CodecError)
  /-- the decoder's error -/
  | decodeError (e : CodecError)
  /-- `Ok(Some(_))` with a guard -/
  | guard
  /-- a value -/
  | value (v : V)
  /-- a seq -/
  | seq (n : ℕ)
  /-- whether there are no items -/
  | empty (b : Bool)
  /-- a read without a defined behaviour -/
  | undefined
  deriving DecidableEq

/-- An open queue of values: the queue below, and what the guards keep. -/
structure TypedHandle (G : Type) where
  /-- the queue below -/
  queue : Handle
  /-- what the guards keep, by their names -/
  kept : SortedMap ℕ G

/-- A queue of values that was just opened. -/
def TypedHandle.opened (cfg : Builder) (st : Store) (inner : Inner) : TypedHandle G :=
  { queue := Handle.opened cfg st inner, kept := SortedMap.empty }

namespace Layer

variable (L : Layer T V G) (t : TypedHandle G)

/-- Encode and push a value. -/
def push (value : T) (first second : Outcome) : Option (TypedHandle G × TypedReply V) :=
  match L.encode value with
  | .error e => some (t, .encodeError e)
  | .ok bytes =>
    (t.queue.push bytes first second).map fun r => ({ t with queue := r.1 }, .answer r.2)

/-- Reserve the oldest item and decode it. -/
def reserve (g : ℕ) (fails : Option ℕ) : Option (TypedHandle G × TypedReply V) :=
  match t.queue.reserve g fails with
  | none => none
  | some (q, .item seq bytes) =>
    match L.decode bytes with
    | .ok value => some ({ queue := q, kept := t.kept.insert g (L.keep bytes value) }, .guard)
    | .error e =>
      -- the `?` drops the guard
      some ({ t with queue := q.release g ⟨seq, bytes⟩ }, .decodeError e)
  | some (q, a) => some ({ t with queue := q }, .answer a)

/-- One call. -/
def step : TypedRequest T → Option (TypedHandle G × TypedReply V)
  | .push value first second => L.push t value first second
  | .reserve g fails => L.reserve t g fails
  | .read g =>
    (t.kept.get? g).map fun k =>
      match L.read k with
      | some v => (t, .value v)
      | none => (t, .undefined)
  | .seq g => (t.queue.guards.get? g).map fun r => (t, .seq r.seq)
  | .ack g o =>
    (t.queue.step (.ack g o)).map fun r =>
      ({ queue := r.1, kept := t.kept.erase g }, .answer r.2)
  | .nack g =>
    (t.queue.step (.nack g)).map fun r => ({ queue := r.1, kept := t.kept.erase g }, .answer r.2)
  | .dropGuard g =>
    (t.queue.step (.dropGuard g)).map fun r =>
      ({ queue := r.1, kept := t.kept.erase g }, .answer r.2)
  | .close => (t.queue.step .close).map fun r => ({ t with queue := r.1 }, .answer r.2)
  | .len => (t.queue.step .len).map fun r => ({ t with queue := r.1 }, .answer r.2)
  | .isEmpty => some (t, .empty t.queue.isEmpty)
  | .reopen b =>
    (t.queue.step (.reopen b)).map fun r =>
      ({ queue := r.1, kept := SortedMap.empty }, .answer r.2)

/-- The size of a value's encoding. -/
def size (value : T) : Except CodecError ℕ := (L.encode value).map List.length

/-- What was encoded is decoded, and seen as `view` says. -/
def RoundTrips (view : T → V) : Prop :=
  ∀ value bytes, L.encode value = .ok bytes → L.decode bytes = .ok (view value)

/-- The guard of an item that decodes can be read. -/
def Readable : Prop :=
  ∀ bytes value, L.decode bytes = .ok value → L.read (L.keep bytes value) = some value

end Layer

/-! ## What it is for -/

/-- An item that a queue of values holds. -/
structure TypedItem (V : Type) where
  /-- its seq -/
  seq : ℕ
  /-- how much room it takes up -/
  size : ℕ
  /-- what it is, or why it is nothing -/
  value : Except CodecError V
  /-- the name of the guard that holds it, if it is not ready -/
  holder : Option ℕ

/-- The item can be handed out. -/
def TypedItem.ready (i : TypedItem V) : Bool := i.holder.isNone

/-- A FIFO queue of values with reservations. -/
structure TypedMachine (V : Type) where
  /-- the limits and the policy -/
  cfg : Builder
  /-- the items, least seq first -/
  items : List (TypedItem V)
  /-- the next seq -/
  next : ℕ
  /-- whether it was closed -/
  closed : Bool

namespace TypedMachine

variable (size : T → Except CodecError ℕ) (view : T → V) (m : TypedMachine V)

/-- How many items there are. -/
def count : ℕ := m.items.length

/-- Their total size. -/
def total : ℕ := (m.items.map TypedItem.size).sum

/-- Whether there is room for a value of `n` bytes. -/
def HasRoom (n : ℕ) : Prop :=
  m.count < m.cfg.capacity ∧ (m.count = 0 ∨ m.total + n ≤ m.cfg.maxBytes)

instance (n : ℕ) : Decidable (m.HasRoom n) :=
  inferInstanceAs (Decidable (_ ∧ _))

/-- The item held under a name. -/
def held (g : ℕ) : Option (TypedItem V) := m.items.find? fun i => i.holder = some g

/-- Make the item held under a name ready again. -/
def putBack (g : ℕ) : TypedMachine V :=
  { m with items := m.items.map fun i => if i.holder = some g then { i with holder := none } else i }

/-- One call, where `size` is the room that a pushed value takes up and `view` is what its
receiver sees of it. -/
def step : TypedRequest T → Option (TypedMachine V × TypedReply V)
  | .push value first second =>
    match size value with
    | .error e => some (m, .encodeError e)
    | .ok n =>
      if m.closed then some (m, .answer .closed)
      else if ¬m.HasRoom n then none
      else if m.cfg.pushFails first second then
        some ({ m with next := m.next + 1 }, .answer .storeError)
      else
        some ({ m with items := m.items ++ [⟨m.next, n, .ok (view value), none⟩]
                       next := m.next + 1 }, .answer .done)
  | .reserve g fails =>
    if (m.held g).isSome then none
    else if ∃ n ∈ fails, n ≤ (m.items.takeWhile fun i => !i.ready).length then
      some (m, .answer .storeError)
    else
      match m.items.find? TypedItem.ready with
      | none => some (m, .answer .nothing)
      | some i =>
        match i.value with
        | .error e => some (m, .decodeError e)
        | .ok _ =>
          some ({ m with items := m.items.map fun j => if j.seq = i.seq then { j with holder := some g } else j },
            .guard)
  | .read g =>
    (m.held g).bind fun i =>
      match i.value with
      | .error _ => none
      | .ok v => some (m, .value v)
  | .seq g => (m.held g).map fun i => (m, .seq i.seq)
  | .ack g o =>
    (m.held g).map fun _ =>
      if o.isOk then
        ({ m with items := m.items.filter fun i => i.holder ≠ some g }, .answer .done)
      else
        (m.putBack g, .answer .storeError)
  | .nack g => (m.held g).map fun _ => (m.putBack g, .answer .done)
  | .dropGuard g => (m.held g).map fun _ => (m.putBack g, .answer .done)
  | .close => some ({ m with closed := true }, .answer .done)
  | .len => some (m, .answer (.count m.count))
  | .isEmpty => some (m, .empty m.items.isEmpty)
  | .reopen b =>
    if m.items.all TypedItem.ready then
      some ({ cfg := b, items := m.items, closed := false
              next := (m.items.getLast?.map fun i => i.seq + 1).getD 0 }, .answer .done)
    else none

/-- What the callers promise. -/
def Fits : TypedRequest T → Prop
  | .push value first second =>
    ∀ n ∈ (size value).toOption,
      m.next < u64Max ∧ m.total + n < 2 ^ m.cfg.usizeBits ∧ first.Clean ∧ second.Clean
  | .ack _ o => o.Clean
  | .reopen b => b.usizeBits = m.cfg.usizeBits
  | _ => True

instance : DecidablePred (m.Fits size)
  | .push _ _ _ => inferInstanceAs (Decidable (∀ _ ∈ _, _))
  | .ack _ o => inferInstanceAs (Decidable o.Clean)
  | .reopen _ => inferInstanceAs (Decidable (_ = _))
  | .reserve _ _ | .read _ | .seq _ | .nack _ | .dropGuard _ | .close | .len | .isEmpty =>
    isTrue trivial

end TypedMachine

namespace Layer

variable (L : Layer T V G)

/-- An item of the queue below as an item of values. -/
def item (i : Item) : TypedItem V := ⟨i.seq, i.value.length, L.decode i.value, i.holder⟩

/-- The queue below as a queue of values. -/
def see (m : Machine) : TypedMachine V :=
  { cfg := m.cfg, items := m.items.map L.item, next := m.next, closed := m.closed }

/-- What holds between two calls: the guards are those of items that decode. -/
structure Inv (t : TypedHandle G) : Prop where
  queue : t.queue.Inv
  kept : ∀ g r, t.queue.guards.get? g = some r →
    ∃ v, L.decode r.value = .ok v ∧ t.kept.get? g = some (L.keep r.value v)
  gone : ∀ g, t.queue.guards.get? g = none → t.kept.get? g = none

variable {L} {m : Machine} {t t' : TypedHandle G} {g : ℕ}

/-! ## Reading it off the queue below -/

@[simp] theorem see_count : (L.see m).count = m.count := by
  simp [TypedMachine.count, Machine.count, see]

@[simp] theorem see_total : (L.see m).total = m.total := by
  simp [TypedMachine.total, Machine.total, see, item, Function.comp_def]

@[simp] theorem see_hasRoom {n : ℕ} : (L.see m).HasRoom n ↔ m.HasRoom n := by
  simp only [TypedMachine.HasRoom, Machine.HasRoom, see_count, see_total]
  rfl

@[simp] theorem see_held : (L.see m).held g = (m.held g).map L.item := by
  rw [TypedMachine.held, see, List.find?_map]
  rfl

@[simp] theorem see_putBack : (L.see m).putBack g = L.see (m.putBack g) := by
  simp only [TypedMachine.putBack, see, Machine.putBack, List.map_map, TypedMachine.mk.injEq,
    true_and, and_true]
  refine List.map_congr_left fun i _ => ?_
  by_cases hi : i.holder = some g <;> simp [item, hi]

/-- The machine with a ready item in a guard's hands. -/
theorem see_hold {seq : ℕ} :
    (L.see m).items.map (fun j => if j.seq = seq then { j with holder := some g } else j) =
      (m.items.map fun j => if j.seq = seq then { j with holder := some g } else j).map L.item := by
  simp only [see, List.map_map]
  refine List.map_congr_left fun i _ => ?_
  by_cases hi : i.seq = seq <;> simp [item, hi]

theorem see_find_ready :
    (L.see m).items.find? TypedItem.ready = (m.items.find? Item.ready).map L.item := by
  rw [see, List.find?_map]
  rfl

theorem see_held_before :
    ((L.see m).items.takeWhile fun i => !i.ready).length =
      (m.items.takeWhile fun i => !i.ready).length := by
  rw [see, List.takeWhile_map, List.length_map]
  rfl

theorem see_all_ready : (L.see m).items.all TypedItem.ready = m.items.all Item.ready := by
  rw [see, List.all_map]
  rfl

/-! ## The guards -/

theorem Inv.same (h : L.Inv t) {q : Handle} (hq : q.Inv) (hguards : q.guards = t.queue.guards) :
    L.Inv { t with queue := q } where
  queue := hq
  kept := by
    rw [hguards]
    exact h.kept
  gone := by
    rw [hguards]
    exact h.gone

theorem Inv.erase (h : L.Inv t) {q : Handle} (hq : q.Inv)
    (hguards : q.guards = t.queue.guards.erase g) :
    L.Inv { queue := q, kept := t.kept.erase g } where
  queue := hq
  kept := by
    intro g' r hg'
    rw [hguards] at hg'
    obtain ⟨hne, hg'⟩ := SortedMap.of_get?_erase hg'
    obtain ⟨v, hv, hk⟩ := h.kept g' r hg'
    exact ⟨v, hv, (SortedMap.get?_erase_ne _ hne).trans hk⟩
  gone := by
    intro g' hg'
    by_cases hne : g' = g
    · rw [hne, SortedMap.get?_erase_self]
    · rw [hguards, SortedMap.get?_erase_ne _ hne] at hg'
      exact (SortedMap.get?_erase_ne _ hne).trans (h.gone g' hg')

theorem Inv.insert (h : L.Inv t) {q : Handle} (hq : q.Inv) {r : Reserved} {v : V}
    (hguards : q.guards = t.queue.guards.insert g r) (hv : L.decode r.value = .ok v) :
    L.Inv { queue := q, kept := t.kept.insert g (L.keep r.value v) } where
  queue := hq
  kept := by
    intro g' r' hg'
    rw [hguards] at hg'
    rcases SortedMap.of_get?_insert hg' with ⟨rfl, rfl⟩ | ⟨hne, hg'⟩
    · exact ⟨v, hv, SortedMap.get?_insert_self _ _ _⟩
    · obtain ⟨w, hw, hk⟩ := h.kept g' r' hg'
      exact ⟨w, hw, (SortedMap.get?_insert_ne _ _ hne).trans hk⟩
  gone := by
    intro g' hg'
    by_cases hne : g' = g
    · rw [hguards, hne, SortedMap.get?_insert_self] at hg'
      cases hg'
    · rw [hguards, SortedMap.get?_insert_ne _ _ hne] at hg'
      exact (SortedMap.get?_insert_ne _ _ hne).trans (h.gone g' hg')

theorem inv_empty {q : Handle} (hq : q.Inv) (hguards : q.guards = SortedMap.empty) :
    L.Inv { queue := q, kept := SortedMap.empty } where
  queue := hq
  kept := by
    intro g r hg
    rw [hguards] at hg
    cases hg
  gone := fun _ _ => rfl

/-! ## Every call -/

/-- A call that is passed on, seen from above. -/
theorem see_passed {a : Request} {kept : SortedMap ℕ G}
    (hcomm : (t.queue.step a).map (Prod.map Handle.abs id) = t.queue.abs.step a) :
    ((t.queue.step a).map fun r => (⟨r.1, kept⟩, TypedReply.answer r.2)).map
        (Prod.map (fun t : TypedHandle G => L.see t.queue.abs) id) =
      (t.queue.abs.step a).map fun r => (L.see r.1, (.answer r.2 : TypedReply V)) := by
  rw [← hcomm, Option.map_map, Option.map_map]
  rfl

theorem Inv.push_see (h : L.Inv t) {view : T → V} (hround : L.RoundTrips view) {value : T}
    {first second : Outcome}
    (hfits : (L.see t.queue.abs).Fits L.size (.push value first second)) :
    (L.step t (.push value first second)).map
        (Prod.map (fun t : TypedHandle G => L.see t.queue.abs) id) =
      (L.see t.queue.abs).step L.size view (.push value first second) := by
  rcases hbytes : L.encode value with e | bytes
  · simp only [step, push, TypedMachine.step, size, hbytes]
    rfl
  · have hsize : L.size value = .ok bytes.length := by rw [size, hbytes]; rfl
    have hpromise : t.queue.abs.Fits (.tryPush bytes first second) := by
      have hall := hfits bytes.length (by rw [hsize]; rfl)
      rwa [see_total] at hall
    have hcomm := h.queue.tryPush_abs hpromise
    simp only [Handle.step, Machine.step, Option.map_some, Option.some.injEq] at hcomm
    -- a push that waits is a try_push that answers `Full`
    have hpush : (L.step t (.push value first second)).map
        (Prod.map (fun t : TypedHandle G => L.see t.queue.abs) id) =
        if (Prod.map Handle.abs id (t.queue.tryPush bytes first second)).2 = .full then none
        else some (L.see (Prod.map Handle.abs id (t.queue.tryPush bytes first second)).1,
          .answer (Prod.map Handle.abs id (t.queue.tryPush bytes first second)).2) := by
      simp only [step, push, hbytes, Handle.push_eq, Prod.map_fst, Prod.map_snd, id]
      split <;> rfl
    rw [hpush, hcomm]
    simp only [TypedMachine.step, hsize, see_hasRoom]
    rw [show (L.see t.queue.abs).closed = t.queue.abs.closed from rfl,
      show (L.see t.queue.abs).cfg = t.queue.abs.cfg from rfl]
    split
    · simp
    · split
      · simp
      · split
        · simp [see]
        · simp [see, item, hround value bytes hbytes]

theorem Inv.push (h : L.Inv t) {value : T} {first second : Outcome} {b : TypedReply V}
    (hfits : (L.see t.queue.abs).Fits L.size (.push value first second))
    (hstep : L.step t (.push value first second) = some (t', b)) : L.Inv t' := by
  rcases hbytes : L.encode value with e | bytes
  · simp only [step, Layer.push, hbytes] at hstep
    obtain ⟨rfl, -⟩ := Prod.mk.inj (Option.some.inj hstep)
    exact h
  · have hpromise : t.queue.abs.Fits (.tryPush bytes first second) := by
      have hall := hfits bytes.length (by rw [size, hbytes]; rfl)
      rwa [see_total] at hall
    simp only [step, Layer.push, hbytes, Handle.push_eq] at hstep
    split at hstep
    · cases hstep
    · obtain ⟨rfl, -⟩ := Prod.mk.inj (Option.some.inj hstep)
      exact h.same (h.queue.tryPush hpromise) Handle.tryPush_guards

/-- What a reserve comes to. -/
theorem Inv.reserve_eq (h : L.Inv t) (g : ℕ) (fails : Option ℕ) :
    L.reserve t g fails =
      if (t.queue.abs.held g).isSome then none
      else if ∃ n ∈ fails, n ≤ (t.queue.abs.items.takeWhile fun i => !i.ready).length then
        some (t, .answer .storeError)
      else
        match t.queue.abs.items.find? Item.ready with
        | none => some (t, .answer .nothing)
        | some i =>
          match L.decode i.value with
          | .error e => some (t, .decodeError e)
          | .ok v =>
            some ({ queue := { t.queue with
                      inner := t.queue.inner.reserve i.seq
                      guards := t.queue.guards.insert g ⟨i.seq, i.value⟩ }
                    kept := t.kept.insert g (L.keep i.value v) }, .guard) := by
  rw [Layer.reserve, h.queue.reserve_eq]
  by_cases hheld : (t.queue.abs.held g).isSome
  · rw [if_pos hheld, if_pos hheld]
  · rw [if_neg hheld, if_neg hheld]
    by_cases hfails : ∃ n ∈ fails, n ≤ (t.queue.abs.items.takeWhile fun i => !i.ready).length
    · rw [if_pos hfails, if_pos hfails]
    · rw [if_neg hfails, if_neg hfails]
      rcases hi : t.queue.abs.items.find? Item.ready with _ | i
      · rfl
      · rcases hv : L.decode i.value with e | v
        · -- the guard that the error drops leaves nothing behind
          have hg : t.queue.guards.get? g = none := by
            rw [h.queue.held_abs] at hheld
            simpa using hheld
          have hfree := (h.queue.of_find hi).2
          simp only [hv, Handle.release, Inner.release, Inner.reserve,
            SortedMap.erase_insert_of_none _ hg, Finset.erase_insert hfree]
        · simp only [hv]

theorem Inv.reserve_see (h : L.Inv t) {size : T → Except CodecError ℕ} {view : T → V} (g : ℕ)
    (fails : Option ℕ) :
    (L.step t (.reserve g fails)).map
        (Prod.map (fun t : TypedHandle G => L.see t.queue.abs) id) =
      (L.see t.queue.abs).step size view (.reserve g fails) := by
  have hcomm := h.queue.reserve_abs g fails
  simp only [Handle.step, Machine.step, h.queue.reserve_eq] at hcomm
  simp only [step, TypedMachine.step, h.reserve_eq, see_held, Option.isSome_map, see_held_before,
    see_find_ready]
  split
  · rfl
  · next hheld =>
    rw [if_neg hheld, if_neg hheld] at hcomm
    split
    · rfl
    · next hfails =>
      rw [if_neg hfails, if_neg hfails] at hcomm
      rcases hi : t.queue.abs.items.find? Item.ready with _ | i
      · rfl
      · rw [hi] at hcomm
        simp only [Option.map_some, Prod.map_apply, id, Option.some.injEq, Prod.mk.injEq,
          and_true] at hcomm
        rcases hv : L.decode i.value with e | v
        · simp only [Option.map_some, item, hv]
          rfl
        · simp only [Option.map_some, item, hv, Prod.map_apply, hcomm, id, Option.some.injEq,
            Prod.mk.injEq, and_true]
          rw [see_hold]
          rfl

theorem Inv.reserve (h : L.Inv t) {fails : Option ℕ} {b : TypedReply V}
    (hstep : L.step t (.reserve g fails) = some (t', b)) : L.Inv t' := by
  simp only [step, h.reserve_eq] at hstep
  split at hstep
  · cases hstep
  · next hheld =>
    split at hstep
    · obtain ⟨rfl, -⟩ := Prod.mk.inj (Option.some.inj hstep)
      exact h
    · split at hstep
      · obtain ⟨rfl, -⟩ := Prod.mk.inj (Option.some.inj hstep)
        exact h
      · next i hi =>
        obtain ⟨hstored, hfree⟩ := h.queue.of_find hi
        rw [h.queue.held_abs] at hheld
        split at hstep
        · obtain ⟨rfl, -⟩ := Prod.mk.inj (Option.some.inj hstep)
          exact h
        · next v hv =>
          obtain ⟨rfl, -⟩ := Prod.mk.inj (Option.some.inj hstep)
          exact h.insert (h.queue.reserve (r := ⟨i.seq, i.value⟩) (by simpa using hheld) hstored
            hfree) rfl hv

/-- **Every call commutes with what is seen from above.** -/
theorem step_see {view : T → V} (hround : L.RoundTrips view) (hread : L.Readable)
    (t : TypedHandle G) (a : TypedRequest T) (h : L.Inv t)
    (hfits : (L.see t.queue.abs).Fits L.size a) :
    (L.step t a).map (Prod.map (fun t : TypedHandle G => L.see t.queue.abs) id) =
      (L.see t.queue.abs).step L.size view a := by
  have hput : ∀ g, ((t.queue.abs.held g).map fun _ => (t.queue.abs.putBack g, Answer.done)).map
      (fun r => (L.see r.1, (.answer r.2 : TypedReply V))) =
        ((L.see t.queue.abs).held g).map fun _ =>
          ((L.see t.queue.abs).putBack g, .answer .done) := by
    intro g
    rw [see_held, Option.map_map, Option.map_map, see_putBack]
    rfl
  cases a with
  | push value first second => exact h.push_see hround hfits
  | reserve g fails => exact h.reserve_see g fails
  | read g =>
    simp only [step, TypedMachine.step, see_held, h.queue.held_abs]
    rcases hg : t.queue.guards.get? g with _ | r
    · rw [h.gone g hg]
      rfl
    · obtain ⟨v, hv, hk⟩ := h.kept g r hg
      simp [hk, hread _ _ hv, item, hv]
  | seq g =>
    simp only [step, TypedMachine.step, see_held, h.queue.held_abs, Option.map_map]
    rfl
  | ack g o =>
    rw [step, see_passed (t.queue.step_abs (.ack g o) h.queue hfits)]
    simp only [Machine.step, TypedMachine.step, see_held, see_putBack, Option.map_map]
    refine congrArg (Option.map · _) (funext fun i => ?_)
    simp only [Function.comp_apply]
    split
    · simp only [see, List.filter_map]
      rfl
    · rfl
  | nack g => exact (see_passed (t.queue.step_abs (.nack g) h.queue trivial)).trans (hput g)
  | dropGuard g => exact (see_passed (t.queue.step_abs (.dropGuard g) h.queue trivial)).trans (hput g)
  | close => exact see_passed (t.queue.step_abs .close h.queue trivial)
  | len =>
    rw [step, see_passed (t.queue.step_abs .len h.queue trivial)]
    simp only [Machine.step, TypedMachine.step, see_count, Option.map_some]
  | isEmpty =>
    have hempty : t.queue.isEmpty = (L.see t.queue.abs).items.isEmpty := by
      rw [Handle.isEmpty, h.queue.len, ← Handle.count_abs, Bool.eq_iff_iff, decide_eq_true_iff,
        List.isEmpty_iff_length_eq_zero, ← see_count]
      rfl
    simp only [step, TypedMachine.step, Option.map_some, Prod.map_apply, id, hempty]
  | reopen b =>
    rw [step, see_passed (t.queue.step_abs (.reopen b) h.queue hfits)]
    simp only [Machine.step, TypedMachine.step, see_all_ready]
    split
    · simp only [Option.map_some, see, List.getLast?_map, Option.map_map]
      rfl
    · rfl

/-- Every call keeps the invariant. -/
theorem step_inv (t : TypedHandle G) (a : TypedRequest T) (t' : TypedHandle G) (b : TypedReply V)
    (h : L.Inv t) (hfits : (L.see t.queue.abs).Fits L.size a)
    (hstep : L.step t a = some (t', b)) : L.Inv t' := by
  cases a with
  | push value first second => exact h.push hfits hstep
  | reserve g fails => exact h.reserve hstep
  | read g =>
    obtain ⟨k, -, heq⟩ := Option.map_eq_some_iff.mp hstep
    split at heq
    all_goals
      obtain ⟨rfl, -⟩ := Prod.mk.inj heq
      exact h
  | seq g =>
    obtain ⟨r, -, heq⟩ := Option.map_eq_some_iff.mp hstep
    obtain ⟨rfl, -⟩ := Prod.mk.inj heq
    exact h
  | ack g o =>
    obtain ⟨⟨q', c⟩, hq, heq⟩ := Option.map_eq_some_iff.mp hstep
    obtain ⟨rfl, -⟩ := Prod.mk.inj heq
    have hinv := t.queue.step_inv (.ack g o) q' c h.queue hfits hq
    obtain ⟨r, -, heq⟩ := Option.map_eq_some_iff.mp hq
    refine h.erase hinv ?_
    rw [← Handle.ack_guards (r := r) (o := o), heq]
  | nack g | dropGuard g =>
    obtain ⟨⟨q', c⟩, hq, heq⟩ := Option.map_eq_some_iff.mp hstep
    obtain ⟨rfl, -⟩ := Prod.mk.inj heq
    obtain ⟨r, hg, heq⟩ := Option.map_eq_some_iff.mp hq
    obtain ⟨rfl, -⟩ := Prod.mk.inj heq
    exact h.erase (h.queue.release hg) rfl
  | close =>
    obtain ⟨rfl, -⟩ := Prod.mk.inj (Option.some.inj hstep)
    exact h.same (t.queue.step_inv .close _ _ h.queue trivial rfl) rfl
  | len =>
    obtain ⟨rfl, -⟩ := Prod.mk.inj (Option.some.inj hstep)
    exact h
  | isEmpty =>
    obtain ⟨rfl, -⟩ := Prod.mk.inj (Option.some.inj hstep)
    exact h
  | reopen b =>
    obtain ⟨⟨q', c⟩, hq, heq⟩ := Option.map_eq_some_iff.mp hstep
    obtain ⟨rfl, -⟩ := Prod.mk.inj heq
    have hinv := t.queue.step_inv (.reopen b) q' c h.queue hfits hq
    obtain ⟨inner, -, -, hreopen⟩ := h.queue.reopen_eq hfits
    rw [show t.queue.step (.reopen b) = t.queue.reopen b from rfl, hreopen] at hq
    split at hq
    · obtain ⟨rfl, -⟩ := Prod.mk.inj (Option.some.inj hq)
      exact inv_empty hinv rfl
    · cases hq

end Layer

/-- The reference machine over the items of a store. -/
def TypedMachine.opened (decode : Bytes → Except CodecError V) (b : Builder)
    (m : SortedMap ℕ Bytes) : TypedMachine V :=
  { cfg := b, items := m.entries.map fun e => ⟨e.1, e.2.length, decode e.2, none⟩
    next := (m.entries.getLast?.map fun e => e.1 + 1).getD 0, closed := false }

/-- **A queue of values is that machine.** Opened over any well-keyed store, it gives the
machine's answers to every list of requests whose callers keep their promises. -/
theorem Layer.refines_values {L : Layer T V G} {view : T → V} (hround : L.RoundTrips view)
    (hread : L.Readable) {b : Builder} {st st' : Store} {inner : Inner} {fuel : ℕ}
    {requests : List (TypedRequest T)} (hkeyed : WellKeyed st.live)
    (hbound : ∀ t v, (items st.live).get? t = some v → t < u64Max)
    (hsize : b.usizeBits < 64 → (items st.live).size < 2 ^ b.usizeBits)
    (hsum : ((items st.live).sum fun _ v => v.length) < 2 ^ b.usizeBits)
    (hopen : b.open st none fuel = some (st', .ok inner))
    (hfits : Promised (TypedMachine.step L.size view) (TypedMachine.Fits L.size)
      (TypedMachine.opened L.decode b (items st.live)) requests) :
    (replies L.step (TypedHandle.opened b st' inner) requests).map
        (Prod.map (fun t : TypedHandle G => L.see t.queue.abs) id) =
      replies (TypedMachine.step L.size view) (TypedMachine.opened L.decode b (items st.live))
        requests := by
  have hfit := size_fits hbound hsize
  have hrecovered := open_recovered hkeyed hbound hfit hopen
  obtain ⟨hitems, hkeyed'⟩ := open_items hopen
  rw [← hitems] at hbound hfit hsum hfits ⊢
  have hsee : L.see (TypedHandle.opened (G := G) b st' inner).queue.abs =
      TypedMachine.opened L.decode b (items st'.live) := by
    rw [TypedHandle.opened, Handle.abs_opened hrecovered, Layer.see]
    simp only [List.map_map]
    rfl
  rw [← hsee] at hfits ⊢
  exact replies_map (fun t : TypedHandle G => L.see t.queue.abs) (Layer.step_see hround hread)
    Layer.step_inv (Layer.inv_empty (Handle.inv_opened (hkeyed' hkeyed) hbound hfit hsum
      (open_version hopen) hrecovered) rfl) hfits

/-! ## The typed queue -/

/-- The typed layer: a reserve decodes, and the guard keeps the value. -/
def Codec.layer (c : Codec T) : Layer T T T :=
  { encode := c.encode, decode := c.decode, keep := fun _ value => value, read := some }

/-- What a reserve of the typed layer does to the queue below. -/
theorem Codec.typedReserve_eq (c : Codec T) (t : TypedHandle T) (g : ℕ) (fails : Option ℕ) :
    (c.layer.reserve t g fails).map (fun r => r.1.queue) =
      (t.queue.typedReserve c g fails).map Prod.fst := by
  rw [Layer.reserve, Handle.typedReserve]
  rcases t.queue.reserve g fails with _ | ⟨q, a⟩
  · rfl
  · cases a with
    | item seq bytes =>
      rcases hv : c.decode bytes with e | v <;> simp [layer, hv]
    | done | closed | full | storeError | nothing | count => rfl

/-- **The typed queue delivers the values that were pushed.** With a codec that decodes what it
encodes, a typed queue gives the answers of the queue of values, for every list of requests
whose callers keep their promises, over any well-keyed store. -/
theorem typed_refines_fifo {c : Codec T}
    (hround : ∀ value bytes, c.encode value = .ok bytes → c.decode bytes = .ok value)
    {b : Builder} {st st' : Store} {inner : Inner} {fuel : ℕ} {requests : List (TypedRequest T)}
    (hkeyed : WellKeyed st.live) (hbound : ∀ t v, (items st.live).get? t = some v → t < u64Max)
    (hsize : b.usizeBits < 64 → (items st.live).size < 2 ^ b.usizeBits)
    (hsum : ((items st.live).sum fun _ v => v.length) < 2 ^ b.usizeBits)
    (hopen : b.open st none fuel = some (st', .ok inner))
    (hfits : Promised (TypedMachine.step c.layer.size id) (TypedMachine.Fits c.layer.size)
      (TypedMachine.opened c.decode b (items st.live)) requests) :
    (replies c.layer.step (TypedHandle.opened b st' inner) requests).map
        (Prod.map (fun t : TypedHandle T => c.layer.see t.queue.abs) id) =
      replies (TypedMachine.step c.layer.size id) (TypedMachine.opened c.decode b (items st.live))
        requests := by
  have htrips : c.layer.RoundTrips id := hround
  have hread : c.layer.Readable := fun _ _ _ => rfl
  exact Layer.refines_values htrips hread hkeyed hbound hsize hsum hopen hfits

/-- A codec of single bytes other than zero. -/
def oneByte : Codec Byte where
  encode b := if b = 0 then .error ⟨"zero"⟩ else .ok [b]
  decode := nonZero.decode

theorem oneByte_roundTrips (value : Byte) (bytes : Bytes)
    (hencode : oneByte.encode value = .ok bytes) : oneByte.decode bytes = .ok value := by
  simp only [oneByte] at hencode ⊢
  split at hencode
  · cases hencode
  · next hne =>
    cases hencode
    simp [nonZero, hne]

/-- Calls of every kind, with a value that cannot be encoded, a stored item that does not
decode, failures, a close, and a reopen under another policy. -/
def manyTypedCalls : List (TypedRequest Byte) :=
  [.len, .reserve 0 (some 0), .reserve 0 none, .read 0, .seq 0, .push 0 .ok .ok,
    .push 7 .errClean .ok, .push 7 .ok .ok, .nack 0, .reserve 1 none, .ack 1 .errClean,
    .reserve 1 none, .ack 1 .ok, .reserve 2 none, .isEmpty, .close, .push 8 .ok .ok,
    .reopen (Builder.group64.setCapacity 6 (by decide) (by decide)), .push 9 .errClean .ok, .len]

/-- `typed_refines_fifo` over a store with an item that does not decode, for those calls. -/
theorem typed_refines_fifo_gapped :
    ∃ st' inner, Builder.default64.open gapped none 3 = some (st', .ok inner) ∧
      (replies oneByte.layer.step (TypedHandle.opened .default64 st' inner) manyTypedCalls).map
          (Prod.map (fun t : TypedHandle Byte => oneByte.layer.see t.queue.abs) id) =
        replies (TypedMachine.step oneByte.layer.size id)
          (TypedMachine.opened oneByte.decode .default64 (items gapped.live)) manyTypedCalls := by
  have hkeyed : WellKeyed gapped.live := by decide
  have hseqs : ∀ e ∈ (items gapped.live).entries, e.1 < u64Max := by decide
  have hopen : ∃ st' inner, Builder.default64.open gapped none 3 = some (st', .ok inner) :=
    ⟨_, _, rfl⟩
  refine hopen.imp fun st' => Exists.imp fun inner h => ⟨h, ?_⟩
  exact typed_refines_fifo oneByte_roundTrips hkeyed
    (fun t v ht => hseqs (t, v) (SortedMap.get?_eq_some.mp ht)) (by decide) (by decide) h
    (by decide)

end PersistentQueue
