import PersistentQueue.TypedQueue

/-!
# The zero-copy queue

An archived queue does not decode what it reserves. It validates the bytes once, keeps them in
the guard, and reads them in place from then on, without a check. A read of bytes that were
not validated has no defined behaviour.

`archived_eq_typed`: to any list of calls, whatever its store holds and whatever its store
calls come to, it gives the answers of the typed queue with the codec `Rkyv`, where what the
first reads in place is what the second deserialized. So no read is undefined.
-/

namespace PersistentQueue

/-- What rkyv does for a message type, whose archived form is read in place. -/
structure Archivable (T A : Type) where
  /-- serialize a value -/
  toBytes : T → Except CodecError Bytes
  /-- validate bytes, and read them in place -/
  access : Bytes → Except CodecError A
  /-- read bytes in place; nothing where that has no defined behaviour -/
  accessUnchecked : Bytes → Option A
  /-- make a value of an archived one -/
  deserialize : A → Except CodecError T

variable {T A : Type}

namespace Archivable

variable (r : Archivable T A)

/-- The zero-copy layer: a reserve validates the bytes, and the guard keeps them. -/
def layer : Layer T A Bytes :=
  { encode := r.toBytes, decode := r.access, keep := fun bytes _ => bytes, read := r.accessUnchecked }

/-- The codec `Rkyv`: decoding validates the bytes and deserializes them. -/
def rkyv : Codec T :=
  { encode := r.toBytes, decode := fun bytes => (r.access bytes).bind r.deserialize }

/-- An answer of the zero-copy queue, with what was read in place deserialized. -/
def deserialized : TypedReply A → TypedReply T
  | .answer a => .answer a
  | .encodeError e => .encodeError e
  | .decodeError e => .decodeError e
  | .guard => .guard
  | .value a =>
    match r.deserialize a with
    | .ok v => .value v
    | .error e => .decodeError e
  | .seq n => .seq n
  | .empty b => .empty b
  | .undefined => .undefined

/-- The queue below is the same, and the bytes that a guard keeps were validated and are what
the typed queue deserialized. -/
structure Reads (a : TypedHandle Bytes) (t : TypedHandle T) : Prop where
  queue : a.queue = t.queue
  gone : ∀ g, a.kept.get? g = none → t.kept.get? g = none
  kept : ∀ g bytes, a.kept.get? g = some bytes →
    ∃ x v, r.access bytes = .ok x ∧ r.deserialize x = .ok v ∧ t.kept.get? g = some v

variable {r} {a : TypedHandle Bytes} {t : TypedHandle T} {g : ℕ}

theorem Reads.same (h : r.Reads a t) (q : Handle) :
    r.Reads { a with queue := q } { t with queue := q } :=
  { h with queue := rfl }

theorem Reads.erase (h : r.Reads a t) (q : Handle) (g : ℕ) :
    r.Reads { queue := q, kept := a.kept.erase g } { queue := q, kept := t.kept.erase g } where
  queue := rfl
  gone := by
    intro g' hg'
    by_cases hne : g' = g
    · rw [hne, SortedMap.get?_erase_self]
    · rw [SortedMap.get?_erase_ne _ hne] at hg' ⊢
      exact h.gone g' hg'
  kept := by
    intro g' bytes hg'
    obtain ⟨hne, hg'⟩ := SortedMap.of_get?_erase hg'
    rw [SortedMap.get?_erase_ne _ hne]
    exact h.kept g' bytes hg'

theorem Reads.insert (h : r.Reads a t) (q : Handle) (g : ℕ) {bytes : Bytes} {x : A} {v : T}
    (hx : r.access bytes = .ok x) (hv : r.deserialize x = .ok v) :
    r.Reads { queue := q, kept := a.kept.insert g bytes }
      { queue := q, kept := t.kept.insert g v } where
  queue := rfl
  gone := by
    intro g' hg'
    by_cases hne : g' = g
    · rw [hne, SortedMap.get?_insert_self] at hg'
      cases hg'
    · rw [SortedMap.get?_insert_ne _ _ hne] at hg' ⊢
      exact h.gone g' hg'
  kept := by
    intro g' bytes' hg'
    rcases SortedMap.of_get?_insert hg' with ⟨rfl, rfl⟩ | ⟨hne, hg'⟩
    · exact ⟨x, v, hx, hv, SortedMap.get?_insert_self _ _ _⟩
    · rw [SortedMap.get?_insert_ne _ _ hne]
      exact h.kept g' bytes' hg'

theorem reads_empty (q : Handle) :
    r.Reads { queue := q, kept := SortedMap.empty } { queue := q, kept := SortedMap.empty } where
  queue := rfl
  gone := fun _ _ => rfl
  kept := by
    intro g bytes hg
    cases hg

/-- The two layers take corresponding steps with a defined answer, or neither takes one. -/
def Agree (r : Archivable T A) (x : Option (TypedHandle Bytes × TypedReply A))
    (y : Option (TypedHandle T × TypedReply T)) : Prop :=
  (x = none ∧ y = none) ∨
    ∃ a t b, x = some (a, b) ∧ y = some (t, r.deserialized b) ∧ r.Reads a t ∧ b ≠ .undefined

/-- Calls that go to the queue below. -/
theorem Agree.passed {x : Option (Handle × Answer)} {f : Handle → TypedHandle Bytes}
    {f' : Handle → TypedHandle T} (h : ∀ q, r.Reads (f q) (f' q)) :
    r.Agree (x.map fun c => (f c.1, .answer c.2)) (x.map fun c => (f' c.1, .answer c.2)) := by
  rcases x with _ | ⟨q, c⟩
  · exact Or.inl ⟨rfl, rfl⟩
  · exact Or.inr ⟨f q, f' q, .answer c, rfl, rfl, h q, by simp⟩

/-- A reserve validates what the typed queue decodes. -/
theorem Reads.reserve (h : r.Reads a t)
    (hvalues : ∀ bytes x, r.access bytes = .ok x → ∃ v, r.deserialize x = .ok v) (g : ℕ)
    (fails : Option ℕ) :
    r.Agree (r.layer.reserve a g fails) (r.rkyv.layer.reserve t g fails) := by
  rw [Layer.reserve, Layer.reserve, ← h.queue]
  rcases a.queue.reserve g fails with _ | ⟨q, b⟩
  · exact Or.inl ⟨rfl, rfl⟩
  · refine Or.inr ?_
    cases b with
    | item seq bytes =>
      rcases hx : r.access bytes with e | x
      · have hdecode : r.rkyv.layer.decode bytes = .error e := by
          simp only [Codec.layer, rkyv, hx]
          rfl
        simp only [layer, hx, hdecode]
        exact ⟨_, _, _, rfl, rfl, h.same _, by simp⟩
      · obtain ⟨v, hv⟩ := hvalues bytes x hx
        have hdecode : r.rkyv.layer.decode bytes = .ok v := by
          simp only [Codec.layer, rkyv, hx]
          exact hv
        simp only [layer, hx, hdecode]
        exact ⟨_, _, _, rfl, rfl, h.insert q g hx hv, by simp⟩
    | done | closed | full | storeError | nothing | count =>
      exact ⟨_, _, _, rfl, rfl, h.same q, by simp⟩

/-- What a guard keeps was validated, so it may be read without a check. -/
theorem Reads.read (h : r.Reads a t)
    (hunchecked : ∀ bytes x, r.access bytes = .ok x → r.accessUnchecked bytes = some x) (g : ℕ) :
    r.Agree (r.layer.step a (.read g)) (r.rkyv.layer.step t (.read g)) := by
  simp only [Layer.step]
  rcases hg : a.kept.get? g with _ | bytes
  · rw [h.gone g hg]
    exact Or.inl ⟨rfl, rfl⟩
  · obtain ⟨x, v, hx, hv, hkept⟩ := h.kept g bytes hg
    have hread : r.layer.read bytes = some x := hunchecked bytes x hx
    have hvalue : r.deserialized (.value x) = .value v := by rw [deserialized, hv]
    rw [hkept]
    simp only [Option.map_some, hread]
    exact Or.inr ⟨a, t, .value x, rfl, by rw [hvalue]; rfl, h, by simp⟩

/-- **Every call of the zero-copy queue is that call of the typed one.** -/
theorem Reads.step
    (hunchecked : ∀ bytes x, r.access bytes = .ok x → r.accessUnchecked bytes = some x)
    (hvalues : ∀ bytes x, r.access bytes = .ok x → ∃ v, r.deserialize x = .ok v)
    (a : TypedHandle Bytes) (t : TypedHandle T) (c : TypedRequest T) (h : r.Reads a t) :
    r.Agree (r.layer.step a c) (r.rkyv.layer.step t c) := by
  have hqueue := h.queue
  cases c with
  | push value first second =>
    simp only [Layer.step, Layer.push, layer, Codec.layer, rkyv, ← hqueue]
    rcases r.toBytes value with e | bytes
    · exact Or.inr ⟨_, _, _, rfl, rfl, h, by simp⟩
    · exact .passed h.same
  | reserve g fails => exact h.reserve hvalues g fails
  | read g => exact h.read hunchecked g
  | seq g =>
    simp only [Layer.step, ← hqueue]
    rcases a.queue.guards.get? g with _ | x
    · exact Or.inl ⟨rfl, rfl⟩
    · exact Or.inr ⟨a, t, .seq x.seq, rfl, rfl, h, by simp⟩
  | ack g o =>
    simp only [Layer.step, ← hqueue]
    exact .passed fun q => h.erase q g
  | nack g =>
    simp only [Layer.step, ← hqueue]
    exact .passed fun q => h.erase q g
  | dropGuard g =>
    simp only [Layer.step, ← hqueue]
    exact .passed fun q => h.erase q g
  | close =>
    simp only [Layer.step, ← hqueue]
    exact .passed h.same
  | len =>
    simp only [Layer.step, ← hqueue]
    exact .passed h.same
  | isEmpty =>
    simp only [Layer.step, ← hqueue]
    exact Or.inr ⟨a, t, _, rfl, rfl, h, by simp⟩
  | reopen b =>
    simp only [Layer.step, ← hqueue]
    exact .passed reads_empty

end Archivable

/-- **The zero-copy queue agrees with the typed one.** Opened over the same store, whatever is
in it, an archived queue and a typed queue with the codec `Rkyv` give the same answers to every
list of calls and leave the same store, whatever their store calls come to, and no read of the
archived queue is undefined. -/
theorem archived_eq_typed {r : Archivable T A}
    (hunchecked : ∀ bytes x, r.access bytes = .ok x → r.accessUnchecked bytes = some x)
    (hvalues : ∀ bytes x, r.access bytes = .ok x → ∃ v, r.deserialize x = .ok v)
    (b : Builder) (st : Store) (inner : Inner) (calls : List (TypedRequest T)) :
    (replies r.layer.step (TypedHandle.opened b st inner) calls).map
        (fun s => (s.1.queue, s.2.map r.deserialized)) =
      (replies r.rkyv.layer.step (TypedHandle.opened b st inner) calls).map
        (fun s => (s.1.queue, s.2)) ∧
    ∀ s ∈ replies r.layer.step (TypedHandle.opened b st inner) calls, .undefined ∉ s.2 := by
  have hopened : r.Reads (TypedHandle.opened b st inner) (TypedHandle.opened b st inner) :=
    Archivable.reads_empty _
  have hstep := Archivable.Reads.step hunchecked hvalues
  constructor
  · have hcalls := replies_rel (R := r.Reads) (f := r.deserialized) (fun a t c h => by
      rcases hstep a t c h with hnone | ⟨a', t', b, ha, ht, hrel, -⟩
      · exact Or.inl hnone
      · exact Or.inr ⟨a', t', b, ha, ht, hrel⟩) calls hopened
    rcases hcalls with ⟨ha, ht⟩ | ⟨a, t, answers, ha, ht, hrel⟩
    · rw [ha, ht]
      rfl
    · rw [ha, ht, Option.map_some, Option.map_some, hrel.queue]
  · rintro ⟨a, answers⟩ hrun hmem
    have hdefined : ∀ a c a' b, (∃ t, r.Reads a t) → r.layer.step a c = some (a', b) →
        (∃ t, r.Reads a' t) ∧ b ≠ .undefined := by
      rintro a c a' b ⟨t, h⟩ hcall
      rcases hstep a t c h with ⟨hnone, -⟩ | ⟨a₁, t₁, b₁, ha, -, hrel, hb⟩
      · rw [hnone] at hcall
        cases hcall
      · rw [ha] at hcall
        obtain ⟨rfl, rfl⟩ := Prod.mk.inj (Option.some.inj hcall)
        exact ⟨⟨t₁, hrel⟩, hb⟩
    exact (replies_all hdefined ⟨_, hopened⟩ hrun).2 _ hmem rfl

/-- Single bytes other than zero, archived as themselves. An access without a check reads the
first byte, whatever the bytes are. -/
def archivedByte : Archivable Byte Byte where
  toBytes := oneByte.encode
  access := oneByte.decode
  accessUnchecked bytes := bytes.head?
  deserialize := .ok

/-- `archived_eq_typed` over a store with an item that is not valid, for calls of every kind. -/
theorem archived_eq_typed_gapped :
    ∃ st inner, Builder.default64.open gapped none 3 = some (st, .ok inner) ∧
      (replies archivedByte.layer.step (TypedHandle.opened .default64 st inner) manyTypedCalls).map
          (fun s => (s.1.queue, s.2.map archivedByte.deserialized)) =
        (replies archivedByte.rkyv.layer.step (TypedHandle.opened .default64 st inner)
          manyTypedCalls).map (fun s => (s.1.queue, s.2)) ∧
      ∀ s ∈ replies archivedByte.layer.step (TypedHandle.opened .default64 st inner)
        manyTypedCalls, .undefined ∉ s.2 := by
  have hunchecked : ∀ bytes x, archivedByte.access bytes = .ok x →
      archivedByte.accessUnchecked bytes = some x := by
    intro bytes x hx
    simp only [archivedByte, oneByte, nonZero] at hx ⊢
    split at hx
    · split at hx
      · cases hx
      · cases hx
        rfl
    · cases hx
  have hopen : ∃ st inner, Builder.default64.open gapped none 3 = some (st, .ok inner) :=
    ⟨_, _, rfl⟩
  refine hopen.imp fun st => Exists.imp fun inner h => ⟨h, ?_⟩
  exact archived_eq_typed hunchecked (fun _ x _ => ⟨x, rfl⟩) _ _ _ _

end PersistentQueue
