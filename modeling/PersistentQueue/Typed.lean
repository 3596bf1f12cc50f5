import PersistentQueue.Lib.Replies
import PersistentQueue.AckFinal
import PersistentQueue.Guards
import PersistentQueue.Sound

/-!
# The typed queue

`TypedConsumer` decodes what it reserves. When an item does not decode, the error goes to the
caller and the guard is dropped with it, so the item is free again, and it is still the oldest:
every reserve stops at it, and nothing behind it is delivered until another consumer takes it
away (`Handle.Blocked`). Nothing else is in the way of an item. So an item is delivered by some
calls of the consumer exactly if it decodes and every older one does: `delivered_iff`.
-/

namespace PersistentQueue

/-- An encode or decode failure, carrying the codec's message. -/
structure CodecError where
  /-- the message -/
  message : String
  deriving DecidableEq

/-- Encodes a message type to bytes for the store and decodes it back. -/
structure Codec (T : Type) where
  /-- encode a value to bytes -/
  encode : T → Except CodecError Bytes
  /-- decode a value from bytes -/
  decode : Bytes → Except CodecError T

/-- A call of a typed consumer, or of a guard it returned, with what becomes of its store
calls. -/
inductive TypedCall : Type where
  /-- reserve, its guard to be named `g`; the seek with number `fails` fails -/
  | reserve (g : ℕ) (fails : Option ℕ)
  /-- ack -/
  | ack (g : ℕ) (o : Outcome)
  /-- nack -/
  | nack (g : ℕ)
  /-- a guard is dropped -/
  | dropGuard (g : ℕ)

/-- What a call of a typed consumer returns. -/
inductive TypedAnswer (T : Type) : Type where
  /-- `Ok(())`, or a call that returns nothing -/
  | done
  /-- the store's error -/
  | storeError
  /-- the decoder's error -/
  | decodeError (e : CodecError)
  /-- `Ok(Some(_))` with this item -/
  | item (seq : ℕ) (value : T)
  /-- `Ok(None)` -/
  | nothing

variable {T : Type}

/-- The bytes decode. -/
def Codec.Decodes (c : Codec T) (bytes : Bytes) : Prop := ∃ value, c.decode bytes = .ok value

namespace Handle

variable (c : Codec T) (q : Handle)

/-- Reserve and decode the oldest item. -/
def typedReserve (g : ℕ) (fails : Option ℕ) : Option (Handle × TypedAnswer T) :=
  match q.reserve g fails with
  | none => none
  | some (q', .item seq bytes) =>
    match c.decode bytes with
    | .ok value => some (q', .item seq value)
    | .error e =>
      -- the `?` drops the guard
      some (q'.release g ⟨seq, bytes⟩, .decodeError e)
  | some (q', .nothing) => some (q', .nothing)
  | some (q', _) => some (q', .storeError)

/-- One call. -/
def typedStep : TypedCall → Option (Handle × TypedAnswer T)
  | .reserve g fails => q.typedReserve c g fails
  | .ack g o =>
    (q.guards.get? g).map fun r =>
      match q.ack g r o with
      | (q', .done) => (q', .done)
      | (q', _) => (q', .storeError)
  | .nack g => (q.guards.get? g).map fun r => (q.release g r, .done)
  | .dropGuard g => (q.guards.get? g).map fun r => (q.release g r, .done)

/-- Some finite sequence of calls of the consumer delivers the item. -/
def Delivers (t : ℕ) : Prop :=
  ∃ calls q' answers value, replies (typedStep c) q calls = some (q', answers) ∧
    .item t value ∈ answers

/-- The item under `u` does not decode, and nobody holds it. -/
structure Blocked (u : ℕ) (q : Handle) : Prop where
  sound : q.Sound
  stored : ∃ bytes, q.items.get? u = some bytes ∧ ¬c.Decodes bytes
  free : u ∉ q.inner.reserved

variable {c q} {q' : Handle} {g t u : ℕ} {fails : Option ℕ} {b : TypedAnswer T}

/-! ## An item that does not decode -/

/-- A reserve stops at it. -/
theorem Blocked.reserve (h : q.Blocked c u) (hstep : q.typedReserve c g fails = some (q', b)) :
    q'.Blocked c u ∧ ∀ t value, b = .item t value → t < u := by
  obtain ⟨bytes, hstored, hbad⟩ := h.stored
  rw [typedReserve] at hstep
  rcases hres : q.reserve g fails with _ | ⟨q₁, a⟩
  · rw [hres] at hstep
    cases hstep
  · rw [hres] at hstep
    rcases h.sound.reserve_cases hres with ⟨rfl, rfl, -⟩ | ⟨rfl, rfl, -⟩ |
      ⟨r, rfl, rfl, hg, hr, hfree, holdest⟩
    · obtain ⟨rfl, rfl⟩ := Prod.mk.inj (Option.some.inj hstep)
      exact ⟨h, fun _ _ heq => by cases heq⟩
    · obtain ⟨rfl, rfl⟩ := Prod.mk.inj (Option.some.inj hstep)
      exact ⟨h, fun _ _ heq => by cases heq⟩
    · have hle : r.seq ≤ u := not_lt.mp fun hlt => h.free (holdest u bytes hstored hlt)
      have hsound := h.sound.reserve hg hr hfree
      simp only at hstep
      split at hstep
      · next value hvalue =>
        -- the item it hands out decodes, so it is an older one
        obtain ⟨rfl, rfl⟩ := Prod.mk.inj (Option.some.inj hstep)
        have hne : r.seq ≠ u := by
          rintro rfl
          obtain rfl := Option.some.inj (hr.symm.trans hstored)
          exact hbad ⟨value, hvalue⟩
        refine ⟨⟨hsound, ⟨bytes, hstored, hbad⟩, fun hmem => ?_⟩, fun t x heq => ?_⟩
        · rcases Finset.mem_insert.mp hmem with heq | hmem
          · exact hne heq.symm
          · exact h.free hmem
        · cases heq
          exact lt_of_le_of_ne hle hne
      · -- what did not decode is free again
        obtain ⟨rfl, rfl⟩ := Prod.mk.inj (Option.some.inj hstep)
        refine ⟨⟨hsound.release (SortedMap.get?_insert_self _ _ _), ⟨bytes, hstored, hbad⟩,
          fun hmem => ?_⟩, fun _ _ heq => by cases heq⟩
        obtain ⟨hne, hmem⟩ := Finset.mem_erase.mp hmem
        exact h.free ((Finset.mem_insert.mp hmem).resolve_left hne)

/-- Nothing is delivered past it. -/
theorem Blocked.step {a : TypedCall} (h : q.Blocked c u) (hstep : q.typedStep c a = some (q', b)) :
    q'.Blocked c u ∧ ∀ t value, b = .item t value → t < u := by
  obtain ⟨bytes, hstored, hbad⟩ := h.stored
  -- a guard that goes has another item
  have hrelease : ∀ {g r}, q.guards.get? g = some r → (q.release g r).Blocked c u :=
    fun hg => ⟨h.sound.release hg, ⟨bytes, hstored, hbad⟩,
      fun hmem => h.free (Finset.mem_of_mem_erase hmem)⟩
  cases a with
  | reserve g fails => exact h.reserve hstep
  | ack g o =>
    obtain ⟨r, hg, heq⟩ := Option.map_eq_some_iff.mp hstep
    obtain ⟨hsound, hguards, hothers⟩ := h.sound.ack hg o
    have hne : u ≠ r.seq := by
      rintro rfl
      exact h.free ((h.sound.reserved _).mpr ⟨g, r, hg, rfl⟩)
    have hblocked : (q.ack g r o).1.Blocked c u := by
      refine ⟨hsound, ⟨bytes, (hothers u hne).trans hstored, hbad⟩, fun hmem => ?_⟩
      obtain ⟨g', r', hg', heq'⟩ := (hsound.reserved u).mp hmem
      rw [hguards] at hg'
      exact h.free ((h.sound.reserved u).mpr ⟨g', r', (SortedMap.of_get?_erase hg').2, heq'⟩)
    split at heq
    all_goals
      next hack =>
        rw [hack] at hblocked
        obtain ⟨rfl, rfl⟩ := Prod.mk.inj heq
        exact ⟨hblocked, fun _ _ heq => by cases heq⟩
  | nack g | dropGuard g =>
    obtain ⟨r, hg, heq⟩ := Option.map_eq_some_iff.mp hstep
    obtain ⟨rfl, rfl⟩ := Prod.mk.inj heq
    exact ⟨hrelease hg, fun _ _ heq => by cases heq⟩

/-- No calls deliver it or anything behind it. -/
theorem Blocked.not_delivers (h : q.Blocked c u) (hle : u ≤ t) : ¬q.Delivers c t := by
  rintro ⟨calls, q', answers, value, hrun, hmem⟩
  have hall := (replies_all (I := Blocked c u) (P := fun b => ∀ t value, b = .item t value → t < u)
    (fun q a q' b hq hstep => hq.step hstep) h hrun).2 _ hmem t value rfl
  omega

/-! ## Items that decode -/

theorem Delivers.now {a : TypedCall} {value : T}
    (hstep : q.typedStep c a = some (q', .item t value)) : q.Delivers c t := by
  refine ⟨[a], q', [.item t value], value, ?_, List.mem_cons_self⟩
  simp only [replies, hstep, Option.map_some]

theorem Delivers.cons {a : TypedCall} (hstep : q.typedStep c a = some (q', b))
    (h : q'.Delivers c t) : q.Delivers c t := by
  obtain ⟨calls, q'', answers, value, hrun, hmem⟩ := h
  refine ⟨a :: calls, q'', b :: answers, value, ?_, List.mem_cons_of_mem _ hmem⟩
  simp only [replies, hstep, hrun, Option.map_some]

/-- Items that decode are handed out one after the other. -/
theorem Sound.delivers {v : Bytes} (n : ℕ) : ∀ {q : Handle} {k : ℕ}, q.Sound →
    q.items.get? t = some v → t ∉ q.inner.reserved →
    (∀ u w, u ≤ t → q.items.get? u = some w → c.Decodes w) →
    (∀ u w, u < k → q.items.get? u = some w → u ∈ q.inner.reserved) → t < k + n →
    q.Delivers c t := by
  -- every call hands out an item between `k` and `t`
  induction n with
  | zero => intro q k _ hstored hfree _ hpast hlt; exact absurd (hpast t v hlt hstored) hfree
  | succ n ih =>
    intro q k hsound hstored hfree hdecodes hpast hlt
    obtain ⟨g, hg⟩ := q.guards.exists_get?_eq_none
    obtain ⟨q', a, hres⟩ := hsound.reserve_some hg none
    rcases hsound.reserve_cases hres with ⟨-, -, hfails⟩ | ⟨-, -, hall⟩ |
      ⟨r, rfl, rfl, -, hr, hrfree, holdest⟩
    · exact absurd rfl hfails
    · exact absurd (hall t v hstored) hfree
    · have hge : k ≤ r.seq := not_lt.mp fun hlt => hrfree (hpast _ _ hlt hr)
      have hle : r.seq ≤ t := not_lt.mp fun hlt => hfree (holdest t v hstored hlt)
      obtain ⟨value, hvalue⟩ := hdecodes r.seq r.value hle hr
      have hstep : q.typedStep c (.reserve g none) = some ({ q with
          inner := q.inner.reserve r.seq, guards := q.guards.insert g r }, .item r.seq value) := by
        simp only [typedStep, typedReserve, hres, hvalue]
      rcases eq_or_lt_of_le hle with heq | hbelow
      · rw [heq] at hstep
        exact .now hstep
      · refine Delivers.cons hstep (ih (k := r.seq + 1) (hsound.reserve hg hr hrfree) hstored
          (fun hmem => ?_) hdecodes (fun u w hu hw => ?_) (by omega))
        · rcases Finset.mem_insert.mp hmem with heq | hmem
          · omega
          · exact hfree hmem
        · rcases eq_or_lt_of_le (Nat.lt_succ_iff.mp hu) with rfl | hu
          · exact Finset.mem_insert_self _ _
          · exact Finset.mem_insert_of_mem (holdest u w hw hu)

end Handle

/-! ## Between the calls of a consumer -/

/-- The state that the calls of a consumer find: whatever producers are doing, they see the
state under the mutex, the store and the guards. -/
def Session.handle (s : Session) : Handle :=
  { cfg := s.cfg, inner := s.inner, store := s.store
    guards := s.guards.mapVal fun _ gd => ⟨gd.seq, gd.value⟩ }

theorem Session.handle_sound {s : Session} (hwf : s.toLedger.Wf) (hcursor : s.toLedger.Cursor)
    (hpaired : s.toLedger.Paired) : s.handle.Sound := by
  have hguard : ∀ g r, s.handle.guards.get? g = some r ↔
      ∃ gd, s.guards.get? g = some gd ∧ r = ⟨gd.seq, gd.value⟩ := by
    intro g r
    rw [Session.handle, SortedMap.get?_mapVal, Option.map_eq_some_iff]
    exact exists_congr fun gd => and_congr_right fun _ => eq_comm
  refine ⟨hwf.keyed, hwf.tail_le, hwf.head_le, hwf.stored_lt, fun t v ht => hcursor.head_le ht,
    hwf.above_lt, fun t ht => hcursor.gone t (hcursor.above_deleted t ht), fun g r hg => ?_,
    fun t => (hpaired.reserved t).trans ⟨?_, ?_⟩, fun g g' r r' hg hg' heq => ?_⟩
  · obtain ⟨gd, hgd, rfl⟩ := (hguard g r).mp hg
    exact hwf.guard_lt g gd hgd
  · rintro ⟨g, gd, hgd, heq⟩
    exact ⟨g, _, (hguard g _).mpr ⟨gd, hgd, rfl⟩, heq⟩
  · rintro ⟨g, r, hg, heq⟩
    obtain ⟨gd, hgd, rfl⟩ := (hguard g r).mp hg
    exact ⟨g, gd, hgd, heq⟩
  · obtain ⟨gd, hgd, rfl⟩ := (hguard g r).mp hg
    obtain ⟨gd', hgd', rfl⟩ := (hguard g' r').mp hg'
    exact hpaired.distinct g g' gd gd' hgd hgd' heq

/-- In every state of every run in which no acked item is put back. -/
theorem Opens.handle_sound {b : Builder} {st : Store} {s₀ s : Session} {as : List Act}
    (hopen : Opens b st s₀) (hrun : Run Session.step retriesInTime.act s₀ as s) :
    s.handle.Sound := by
  obtain ⟨⟨hcursor, -, hpaired⟩, hcoupled⟩ :=
    hopen.invariant (I := fun l => l.Cursor ∧ l.Final ∧ l.Paired) hrun
      (fun l hl => ⟨Ledger.cursor_opened hl, Ledger.final_opened hl, Ledger.paired_opened hl⟩)
      fun l m l' hwf ⟨hcursor, hfinal, hpaired⟩ hmove hm =>
        ⟨hcursor.moved hwf (Discipline.move_below hmove) hm (hfinal.not_deleted hm hmove),
          hfinal.moved hcursor hwf hmove hm, hpaired.moved hm⟩
  exact Session.handle_sound hcoupled.wf hcursor hpaired

theorem Session.not_reserved {s : Session} (hsound : s.handle.Sound)
    (hfree : s.guards.entries = []) (u : ℕ) : u ∉ s.handle.inner.reserved := by
  intro hmem
  obtain ⟨g, r, hg, -⟩ := (hsound.reserved u).mp hmem
  simp only [Session.handle, SortedMap.get?_mapVal, SortedMap.get?_of_entries_nil hfree,
    Option.map_none] at hg
  cases hg

/-- With no guard outstanding, an item that does not decode is in the way of all behind it. -/
theorem Session.not_delivers {c : Codec T} {s : Session} {t u : ℕ} {bytes : Bytes}
    (hsound : s.handle.Sound) (hfree : s.guards.entries = [])
    (hstored : s.items.get? u = some bytes) (hbad : ¬c.Decodes bytes) (hle : u ≤ t) :
    ¬s.handle.Delivers c t := by
  have hblocked : s.handle.Blocked c u :=
    ⟨hsound, ⟨bytes, hstored, hbad⟩, Session.not_reserved hsound hfree u⟩
  exact hblocked.not_delivers hle

/-- **An item is delivered exactly if it decodes and every older one does.** The state is that
of any run in which no acked item is put back, with no guard outstanding; then the consumer
alone makes calls, which do not overlap, and their store calls come to anything. -/
theorem delivered_iff {c : Codec T} {b : Builder} {st : Store} {s₀ s : Session} {as : List Act}
    (hopen : Opens b st s₀) (hrun : Run Session.step retriesInTime.act s₀ as s)
    (hfree : s.guards.entries = []) {t : ℕ} {v : Bytes} (hstored : s.items.get? t = some v) :
    s.handle.Delivers c t ↔ ∀ u w, u ≤ t → s.items.get? u = some w → c.Decodes w := by
  have hsound := hopen.handle_sound hrun
  constructor
  · intro hdelivers u w hle hw
    by_contra hbad
    exact Session.not_delivers hsound hfree hw hbad hle hdelivers
  · intro hdecodes
    have hfirst := Session.not_reserved hsound hfree t
    exact hsound.delivers (t + 1) (k := 0) hstored hfirst hdecodes
      (fun u w hlt => absurd hlt (Nat.not_lt_zero u)) (by omega)

/-- A codec of single bytes whose decoder refuses zero. -/
def nonZero : Codec Byte where
  encode b := .ok [b]
  decode bytes :=
    match bytes with
    | [b] => if b = 0 then .error ⟨"zero"⟩ else .ok b
    | _ => .error ⟨"not a byte"⟩

/-- The first of two items does not decode, and the second one cannot be had. -/
theorem undecodable_cuts_off :
    ∃ s, Run Session.step retriesInTime.act (Session.fresh .default64)
      [.turn (.call [0] true), .turn (.attempt 1), .commit 0 .ok, .turn (.call [5] true),
        .turn (.attempt 5), .commit 1 .ok] s ∧
      s.guards.entries = [] ∧ nonZero.encode 0 = .ok [0] ∧ nonZero.encode 5 = .ok [5] ∧
      s.items.get? 1 = some [5] ∧ nonZero.Decodes [5] ∧ ¬s.handle.Delivers nonZero 1 := by
  have hrun : ∃ s, Run Session.step retriesInTime.act (Session.fresh .default64)
      [.turn (.call [0] true), .turn (.attempt 1), .commit 0 .ok, .turn (.call [5] true),
        .turn (.attempt 5), .commit 1 .ok] s ∧
      s.guards.entries = [] ∧ s.items.get? 0 = some [0] ∧ s.items.get? 1 = some [5] := by decide
  obtain ⟨s, hrun, hfree, hbad, hgood⟩ := hrun
  refine ⟨s, hrun, hfree, rfl, rfl, hgood, ⟨5, rfl⟩, ?_⟩
  refine Session.not_delivers ((opens_fresh _).handle_sound hrun) hfree hbad ?_ (Nat.zero_le 1)
  rintro ⟨value, hvalue⟩
  cases hvalue

/-- Two items that decode, with a held one released before them. -/
theorem delivered_iff_second :
    ∃ s, Run Session.step retriesInTime.act (Session.fresh .default64)
      [.turn (.call [3] true), .turn (.attempt 1), .commit 0 .ok, .turn (.call [5] true),
        .turn (.attempt 5), .commit 1 .ok, .turn (.reserve 0), .turn (.seek 0 true),
        .turn (.check 0 0), .turn (.release 0)] s ∧ s.handle.Delivers nonZero 1 := by
  have hrun : ∃ s, Run Session.step retriesInTime.act (Session.fresh .default64)
      [.turn (.call [3] true), .turn (.attempt 1), .commit 0 .ok, .turn (.call [5] true),
        .turn (.attempt 5), .commit 1 .ok, .turn (.reserve 0), .turn (.seek 0 true),
        .turn (.check 0 0), .turn (.release 0)] s ∧
      s.guards.entries = [] ∧ s.items.entries = [(0, [3]), (1, [5])] := by decide
  obtain ⟨s, hrun, hfree, hitems⟩ := hrun
  have hstored : s.items.get? 1 = some [5] := SortedMap.get?_eq_some.mpr (by simp [hitems])
  refine ⟨s, hrun, (delivered_iff (opens_fresh _) hrun hfree hstored).mpr fun u w _ hw => ?_⟩
  have hmem := SortedMap.get?_eq_some.mp hw
  simp only [hitems, List.mem_cons, Prod.mk.injEq, List.not_mem_nil, or_false] at hmem
  rcases hmem with ⟨rfl, rfl⟩ | ⟨rfl, rfl⟩
  · exact ⟨3, rfl⟩
  · exact ⟨5, rfl⟩

end PersistentQueue
