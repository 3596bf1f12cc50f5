import PersistentQueue.Lib.Journaled

/-!
# Databases with atomic batches

What an embedded database promises to the code over it. Its states are not looked into: a
reader sees `content`, and `recovers` relates a state to those the database may be in after a
crash and the next open. A batch is built write by write, later writes to a key replacing
earlier ones, and goes in as a whole or not at all. `Lawful` has what is promised:

* a batch that was applied is seen, and a crash keeps it or loses it as a whole,
* a crash keeps it when it was synced, and a flush keeps everything,
* an error has applied the batch or left the database alone.

A database over which nothing else is written behaves as a `Journaled` map (`Covers`): what
readers see is the same, and whatever a crash may leave, a crash of the map may leave.
-/

universe u v

variable {κ : Type u} {ν : Type v} [LinearOrder κ]

/-- What a list of writes makes of a key, when it names the key. -/
def lastWrite (us : List (Update κ ν)) (a : κ) : Option (Option ν) :=
  us.foldl (fun c u => if a = u.1 then some u.2 else c) none

@[simp] theorem lastWrite_nil (a : κ) : lastWrite ([] : List (Update κ ν)) a = none := rfl

theorem lastWrite_snoc (us : List (Update κ ν)) (u : Update κ ν) (a : κ) :
    lastWrite (us ++ [u]) a = if a = u.1 then some u.2 else lastWrite us a := by
  simp [lastWrite, List.foldl_append]

/-- A list of writes names a key or makes nothing of it. -/
theorem lastWrite_eq_none {us : List (Update κ ν)} {a : κ} :
    lastWrite us a = none ↔ a ∉ us.map Prod.fst := by
  induction us using List.reverseRecOn with
  | nil => simp
  | append_singleton us u ih =>
    rw [lastWrite_snoc]
    by_cases ha : a = u.1 <;> simp [ha, ih]

/-- Leaving out every write to some keys. -/
theorem lastWrite_filter (us : List (Update κ ν)) (p : κ → Bool) (a : κ) :
    lastWrite (us.filter fun u => p u.1) a = if p a then lastWrite us a else none := by
  induction us using List.reverseRecOn with
  | nil => simp
  | append_singleton us u ih =>
    rw [List.filter_append, List.filter_singleton, lastWrite_snoc]
    by_cases ha : a = u.1
    · subst ha
      cases hp : p u.1 <;> simp [hp, lastWrite_snoc, ih]
    · cases p u.1 <;> simp [lastWrite_snoc, ih, ha]

namespace SortedMap

theorem get?_applyAll (m : SortedMap κ ν) (us : List (Update κ ν)) (a : κ) :
    (m.applyAll us).get? a = (lastWrite us a).getD (m.get? a) := by
  induction us using List.reverseRecOn with
  | nil => rfl
  | append_singleton us u ih =>
    rw [applyAll_append, applyAll_cons, applyAll_nil, get?_apply, lastWrite_snoc, ih]
    split <;> rfl

/-- A map that differs from another one by what a list of writes makes of each key. -/
theorem eq_applyAll {m n : SortedMap κ ν} {us : List (Update κ ν)}
    (h : ∀ a, n.get? a = (lastWrite us a).getD (m.get? a)) : n = m.applyAll us :=
  ext_get? fun a => (h a).trans (get?_applyAll m us a).symm

/-- Writes that later ones overwrite need not be done before them, and the others can be done
after them. -/
theorem applyAll_filter (m : SortedMap κ ν) (us vs : List (Update κ ν)) :
    (m.applyAll us).applyAll (vs.filter fun u => u.1 ∉ us.map Prod.fst) =
      (m.applyAll vs).applyAll us := by
  refine ext_get? fun a => ?_
  have hfilter := lastWrite_filter vs (fun k => decide (k ∉ us.map Prod.fst)) a
  rw [get?_applyAll, get?_applyAll, get?_applyAll, get?_applyAll, hfilter]
  by_cases ha : a ∈ us.map Prod.fst
  · obtain ⟨c, hc⟩ := Option.ne_none_iff_exists'.mp fun h => lastWrite_eq_none.mp h ha
    simp [ha, hc]
  · rw [lastWrite_eq_none.mpr ha]
    simp [ha]

end SortedMap

namespace Journaled

variable {d : Journaled κ ν} {us : List (Update κ ν)} {m : SortedMap κ ν}

/-- A crash may leave the map: the durable content with some of the later writes applied. -/
def Leaves (d : Journaled κ ν) (m : SortedMap κ ν) : Prop :=
  ∃ us, us.Sublist d.later ∧ d.synced.applyAll us = m

/-- A crash keeps a write list that took effect. -/
theorem Leaves.write (h : d.Leaves m) (us : List (Update κ ν)) (durable : Bool) :
    (d.write us durable).Leaves (m.applyAll us) := by
  obtain ⟨xs, hsub, rfl⟩ := h
  cases durable
  · exact ⟨xs ++ us, hsub.append (List.Sublist.refl us), SortedMap.applyAll_append _ _ _⟩
  · exact ⟨_, hsub.filter _, SortedMap.applyAll_filter _ _ _⟩

/-- A durable write pins every key with the last content it gives it. -/
theorem pinned_lastWrite {k : κ} {c : Option ν} (h : lastWrite us k = some c) :
    (d.write us true).Pinned k c where
  live := by
    rw [write_live, SortedMap.get?_applyAll, h]
    rfl
  synced := by
    simp only [write, if_true]
    rw [SortedMap.get?_applyAll, h]
    rfl
  later := by
    intro u hu heq
    have hnot := of_decide_eq_true (List.mem_filter.mp hu).2
    rw [heq, ← lastWrite_eq_none, h] at hnot
    cases hnot

/-- A crash loses a write list that was not durable. -/
theorem Leaves.lose (h : d.Leaves m) (us : List (Update κ ν)) : (d.write us false).Leaves m := by
  obtain ⟨xs, hsub, rfl⟩ := h
  exact ⟨xs, hsub.trans (List.sublist_append_left _ _), rfl⟩

end Journaled

/-! ## States that crashes change -/

/-- A map in a state that a crash may change. -/
structure Storage (κ : Type u) (ν : Type v) [LinearOrder κ] where
  /-- what is on disk and in memory -/
  State : Type
  /-- what a reader sees -/
  content : State → SortedMap κ ν
  /-- the states that may be found after a crash -/
  recovers : State → State → Prop

namespace Storage

variable {S : Storage κ ν} {s t : S.State} {us : List (Update κ ν)} {durable : Bool}
  {d : Journaled κ ν}

/-- A reader may find the map after a crash. -/
def Left (S : Storage κ ν) (s : S.State) (m : SortedMap κ ν) : Prop :=
  ∃ r, S.recovers s r ∧ S.content r = m

/-- The step changed nothing, for readers and for crashes. -/
structure Keeps (S : Storage κ ν) (s t : S.State) : Prop where
  content : S.content t = S.content s
  left : ∀ m, S.Left t m → S.Left s m

/-- The step did the writes as a whole, and no crash loses them when they are durable. -/
structure Writes (S : Storage κ ν) (s : S.State) (us : List (Update κ ν)) (durable : Bool)
    (t : S.State) : Prop where
  content : S.content t = (S.content s).applyAll us
  left : ∀ m, S.Left t m → m = S.content t ∨ (∃ n, S.Left s n ∧ m = n.applyAll us) ∨
    (durable = false ∧ S.Left s m)

/-- The journaled map stands for the state: it reads the same, and it may crash to whatever
the state may crash to. -/
structure Covers (S : Storage κ ν) (s : S.State) (d : Journaled κ ν) : Prop where
  content : S.content s = d.live
  live : d.Leaves d.live
  left : ∀ m, S.Left s m → d.Leaves m

/-- A crash of the state loses nothing. -/
def Synced (S : Storage κ ν) (s : S.State) : Prop := ∀ m, S.Left s m → m = S.content s

/-- A state with nothing to lose is a map whose whole content is durable. -/
theorem covers_ofMap (h : S.Synced s) :
    S.Covers s (Journaled.ofMap (S.content s)) where
  content := rfl
  live := ⟨[], List.Sublist.refl _, rfl⟩
  left := fun m hm => ⟨[], List.Sublist.refl _, (h m hm).symm⟩

theorem Covers.keeps (h : S.Covers s d) (hkeeps : S.Keeps s t) : S.Covers t d where
  content := hkeeps.content.trans h.content
  live := h.live
  left := fun m hm => h.left m (hkeeps.left m hm)

theorem Covers.writes (h : S.Covers s d) (hwrites : S.Writes s us durable t) :
    S.Covers t (d.write us durable) where
  content := by rw [hwrites.content, h.content, Journaled.write_live]
  live := h.live.write us durable
  left := by
    intro m hm
    rcases hwrites.left m hm with rfl | ⟨n, hn, rfl⟩ | ⟨rfl, hm⟩
    · rw [hwrites.content, h.content]
      exact h.live.write us durable
    · exact (h.left n hn).write us durable
    · exact (h.left m hm).lose us

/-- A crash of the state is a crash of the map. -/
theorem Covers.crash (h : S.Covers s d) (htrans : ∀ r, S.recovers t r → S.recovers s r)
    (hcrash : S.recovers s t) : ∃ kept, S.Covers t (d.crash kept) := by
  have hleaves := h.left _ ⟨t, hcrash, rfl⟩
  obtain ⟨kept, hkept⟩ := Journaled.crash_iff.mpr hleaves
  refine ⟨kept, ⟨hkept.symm, ?_, ?_⟩⟩
  · rw [hkept]
    exact hleaves
  · rintro m ⟨r, hr, rfl⟩
    exact h.left _ ⟨r, htrans r hr, rfl⟩

end Storage

/-! ## Batches -/

/-- An embedded database. -/
structure Database (κ : Type u) (ν : Type v) [LinearOrder κ] extends Storage κ ν where
  /-- writes that go in together -/
  Batch : Type
  /-- what the disk does to one call -/
  Fault : Type
  /-- a batch with no write -/
  batch : Batch
  /-- add an insert -/
  insert : Batch → κ → ν → Batch
  /-- add a remove -/
  remove : Batch → κ → Batch
  /-- what a batch makes of a key, when it names the key -/
  effect : Batch → κ → Option (Option ν)
  /-- apply a batch, synced or not; whether it returns without an error -/
  apply : State → Batch → Bool → Fault → State × Bool
  /-- write out what is not durable yet; whether it returns without an error -/
  flush : State → Fault → State × Bool

namespace Database

variable {db : Database κ ν} {s t : db.State} {b : db.Batch} {us : List (Update κ ν)}

/-- The map is the other one with the batch applied. -/
def Overlaid (db : Database κ ν) (b : db.Batch) (m n : SortedMap κ ν) : Prop :=
  ∀ a, n.get? a = (db.effect b a).getD (m.get? a)

/-- The batch went in, synced or not. -/
structure Applied (db : Database κ ν) (s : db.State) (b : db.Batch) (sync : Bool)
    (t : db.State) : Prop where
  content : db.Overlaid b (db.content s) (db.content t)
  left : ∀ m, db.Left t m → (∃ n, db.Left s n ∧ db.Overlaid b n m) ∨ (sync = false ∧ db.Left s m)

/-- What the database promises. -/
structure Lawful (db : Database κ ν) : Prop where
  effect_batch : ∀ a, db.effect db.batch a = none
  effect_insert : ∀ b k v a,
    db.effect (db.insert b k v) a = if a = k then some (some v) else db.effect b a
  effect_remove : ∀ b k a, db.effect (db.remove b k) a = if a = k then some none else db.effect b a
  apply_ok : ∀ s b sync e, (db.apply s b sync e).2 = true →
    db.Applied s b sync (db.apply s b sync e).1
  apply_err : ∀ s b sync e, (db.apply s b sync e).2 = false →
    db.Keeps s (db.apply s b sync e).1 ∨ db.Applied s b false (db.apply s b sync e).1
  flush_keeps : ∀ s e, db.Keeps s (db.flush s e).1
  flush_ok : ∀ s e, (db.flush s e).2 = true →
    ∀ m, db.Left (db.flush s e).1 m → m = db.content s
  recovers_trans : ∀ s t r, db.recovers s t → db.recovers t r → db.recovers s r

/-- Add one write to a batch. -/
def put (db : Database κ ν) (b : db.Batch) : Update κ ν → db.Batch
  | (k, some v) => db.insert b k v
  | (k, none) => db.remove b k

/-- The batch of a list of writes. -/
def batchOf (db : Database κ ν) (us : List (Update κ ν)) : db.Batch := us.foldl db.put db.batch

theorem Lawful.effect_put (h : db.Lawful) (b : db.Batch) (u : Update κ ν) (a : κ) :
    db.effect (db.put b u) a = if a = u.1 then some u.2 else db.effect b a := by
  obtain ⟨k, _ | v⟩ := u
  · exact h.effect_remove b k a
  · exact h.effect_insert b k v a

/-- In a batch the last write to a key counts. -/
theorem Lawful.effect_batchOf (h : db.Lawful) (us : List (Update κ ν)) (a : κ) :
    db.effect (db.batchOf us) a = lastWrite us a := by
  induction us using List.reverseRecOn with
  | nil => exact h.effect_batch a
  | append_singleton us u ih =>
    rw [batchOf, List.foldl_append, List.foldl_cons, List.foldl_nil, h.effect_put, lastWrite_snoc,
      ← batchOf, ih]

theorem Lawful.overlaid (h : db.Lawful) {m n : SortedMap κ ν}
    (hover : db.Overlaid (db.batchOf us) m n) : n = m.applyAll us := by
  refine SortedMap.eq_applyAll fun a => ?_
  rw [hover a, h.effect_batchOf]

/-- A batch that went in did its writes in order. -/
theorem Lawful.writes (h : db.Lawful) {sync : Bool} (happ : db.Applied s (db.batchOf us) sync t) :
    db.Writes s us sync t where
  content := h.overlaid happ.content
  left := by
    intro m hm
    rcases happ.left m hm with ⟨n, hn, hover⟩ | hlost
    · exact Or.inr (Or.inl ⟨n, hn, h.overlaid hover⟩)
    · exact Or.inr (Or.inr hlost)

theorem Lawful.batch_ok (h : db.Lawful) {sync : Bool} {e : db.Fault}
    (hok : (db.apply s (db.batchOf us) sync e).2 = true) :
    db.Writes s us sync (db.apply s (db.batchOf us) sync e).1 :=
  h.writes (h.apply_ok s _ sync e hok)

theorem Lawful.batch_err (h : db.Lawful) {sync : Bool} {e : db.Fault}
    (herr : (db.apply s (db.batchOf us) sync e).2 = false) :
    db.Keeps s (db.apply s (db.batchOf us) sync e).1 ∨
      db.Writes s us false (db.apply s (db.batchOf us) sync e).1 :=
  (h.apply_err s _ sync e herr).imp_right h.writes

/-- A flush makes what was written before it durable. -/
theorem Lawful.flushed (h : db.Lawful) (hwrites : db.Writes s us false t) (e : db.Fault)
    (hok : (db.flush t e).2 = true) : db.Writes s us true (db.flush t e).1 where
  content := (h.flush_keeps t e).content.trans hwrites.content
  left := fun m hm => Or.inl ((h.flush_ok t e hok m hm).trans (h.flush_keeps t e).content.symm)

theorem Lawful.unflushed (h : db.Lawful) (hwrites : db.Writes s us false t) (e : db.Fault) :
    db.Writes s us false (db.flush t e).1 where
  content := (h.flush_keeps t e).content.trans hwrites.content
  left := by
    intro m hm
    rw [(h.flush_keeps t e).content]
    exact hwrites.left m ((h.flush_keeps t e).left m hm)

end Database

/-! ## A write-ahead log -/

/-- A database that logs its batches: a crash loses the end of what is not synced. -/
structure WriteAhead (κ : Type u) (ν : Type v) [LinearOrder κ] where
  /-- what is synced -/
  base : SortedMap κ ν
  /-- the batches since then, oldest first -/
  log : List (List (Update κ ν))

namespace WriteAhead

/-- What the disk does to one call. -/
inductive Fault : Type where
  /-- nothing -/
  | none
  /-- an error before anything was done -/
  | refused
  /-- an error after the batch was logged -/
  | late
  deriving DecidableEq

/-- What readers see. -/
def live (w : WriteAhead κ ν) : SortedMap κ ν := w.base.applyAll w.log.flatten

/-- The synced content and the first batches of the log, found on the next open. -/
def reopen (w : WriteAhead κ ν) (kept : ℕ) : WriteAhead κ ν :=
  ⟨w.base.applyAll (w.log.take kept).flatten, []⟩

/-- Everything logged so far reaches the disk. -/
def sync (w : WriteAhead κ ν) : WriteAhead κ ν := ⟨w.live, []⟩

/-- A batch is logged. -/
def append (w : WriteAhead κ ν) (us : List (Update κ ν)) : WriteAhead κ ν :=
  { w with log := w.log ++ [us] }

/-- Apply a batch, synced or not. -/
def apply (w : WriteAhead κ ν) (us : List (Update κ ν)) (sync : Bool) :
    Fault → WriteAhead κ ν × Bool
  | .none => (if sync then (w.append us).sync else w.append us, true)
  | .refused => (w, false)
  | .late => (w.append us, false)

/-- Write out the log. -/
def flush (w : WriteAhead κ ν) : Fault → WriteAhead κ ν × Bool
  | .none => (w.sync, true)
  | .refused | .late => (w, false)

theorem live_append (w : WriteAhead κ ν) (us : List (Update κ ν)) :
    (w.append us).live = w.live.applyAll us := by
  simp [live, append, SortedMap.applyAll_append]

/-- A crash after a batch was logged loses it or keeps it. -/
theorem reopen_append (w : WriteAhead κ ν) (us : List (Update κ ν)) (kept : ℕ) :
    (w.append us).reopen kept = w.reopen kept ∨
      ((w.append us).reopen kept).live = (w.reopen w.log.length).live.applyAll us := by
  by_cases hkept : kept ≤ w.log.length
  · exact Or.inl (by simp [reopen, append, List.take_append_of_le_length hkept])
  · refine Or.inr ?_
    have hall : w.log.length + 1 ≤ kept := by omega
    simp only [reopen, append, live]
    rw [List.take_of_length_le (by simpa using hall), List.take_length]
    simp [SortedMap.applyAll_append]

theorem live_reopen_all (w : WriteAhead κ ν) : (w.reopen w.log.length).live = w.live := by
  simp [reopen, live]

theorem reopen_sync (w : WriteAhead κ ν) (kept : ℕ) : w.sync.reopen kept = w.sync := by
  simp [reopen, sync]

theorem live_sync (w : WriteAhead κ ν) : w.sync.live = w.live := by
  simp [sync, live]

end WriteAhead

/-- The write-ahead log as a database. -/
def writeAhead (κ ν : Type) [LinearOrder κ] : Database κ ν where
  State := WriteAhead κ ν
  content := WriteAhead.live
  recovers w r := ∃ kept, r = w.reopen kept
  Batch := List (Update κ ν)
  Fault := WriteAhead.Fault
  batch := []
  insert b k v := b ++ [(k, some v)]
  remove b k := b ++ [(k, none)]
  effect := lastWrite
  apply := WriteAhead.apply
  flush := WriteAhead.flush

section

variable {κ ν : Type} [LinearOrder κ]

theorem writeAhead_overlaid {m n : SortedMap κ ν} {us : List (Update κ ν)}
    (h : n = m.applyAll us) : (writeAhead κ ν).Overlaid us m n := fun a =>
  (congrArg (fun n : SortedMap κ ν => n.get? a) h).trans (SortedMap.get?_applyAll m us a)

theorem writeAhead_left {w : WriteAhead κ ν} {m : SortedMap κ ν} :
    (writeAhead κ ν).Left w m ↔ ∃ kept, (w.reopen kept).live = m := by
  constructor
  · rintro ⟨r, ⟨kept, rfl⟩, hm⟩
    exact ⟨kept, hm⟩
  · rintro ⟨kept, hm⟩
    exact ⟨w.reopen kept, ⟨kept, rfl⟩, hm⟩

/-- A crash may lose nothing. -/
theorem writeAhead_left_live (w : WriteAhead κ ν) : (writeAhead κ ν).Left w w.live :=
  writeAhead_left.mpr ⟨w.log.length, w.live_reopen_all⟩

/-- What is synced is found after every crash. -/
theorem writeAhead_left_sync {w : WriteAhead κ ν} {m : SortedMap κ ν}
    (h : (writeAhead κ ν).Left w.sync m) : m = w.live := by
  obtain ⟨kept, rfl⟩ := writeAhead_left.mp h
  rw [WriteAhead.reopen_sync]
  exact w.live_sync

theorem writeAhead_synced (m : SortedMap κ ν) : (writeAhead κ ν).Synced ⟨m, []⟩ := by
  intro n hn
  obtain ⟨kept, rfl⟩ := writeAhead_left.mp hn
  simp [WriteAhead.reopen, WriteAhead.live, writeAhead]

theorem writeAhead_append (w : WriteAhead κ ν) (us : List (Update κ ν)) :
    (writeAhead κ ν).Applied w us false (w.append us) where
  content := writeAhead_overlaid (w.live_append us)
  left := by
    intro m hm
    obtain ⟨kept, rfl⟩ := writeAhead_left.mp hm
    rcases w.reopen_append us kept with heq | heq
    · rw [heq]
      exact Or.inr ⟨rfl, writeAhead_left.mpr ⟨kept, rfl⟩⟩
    · exact Or.inl ⟨_, writeAhead_left.mpr ⟨w.log.length, rfl⟩, writeAhead_overlaid heq⟩

theorem writeAhead_sync (w : WriteAhead κ ν) (us : List (Update κ ν)) :
    (writeAhead κ ν).Applied w us true (w.append us).sync where
  content := writeAhead_overlaid ((w.append us).live_sync.trans (w.live_append us))
  left := by
    intro m hm
    obtain rfl := writeAhead_left_sync hm
    exact Or.inl ⟨w.live, writeAhead_left_live w, writeAhead_overlaid (w.live_append us)⟩

theorem writeAhead_same (w : WriteAhead κ ν) : (writeAhead κ ν).Keeps w w where
  content := rfl
  left := fun _ h => h

/-- A write-ahead log keeps the promises of a database. -/
theorem writeAhead_lawful : (writeAhead κ ν).Lawful where
  effect_batch := fun a => lastWrite_nil a
  effect_insert := fun b k v a => lastWrite_snoc b (k, some v) a
  effect_remove := fun b k a => lastWrite_snoc b (k, none) a
  apply_ok := by
    rintro w us (_ | _) (_ | _ | _) h
    · exact writeAhead_append w us
    · cases h
    · cases h
    · exact writeAhead_sync w us
    · cases h
    · cases h
  apply_err := by
    rintro w us sync (_ | _ | _) h
    · cases h
    · exact Or.inl (writeAhead_same w)
    · exact Or.inr (writeAhead_append w us)
  flush_keeps := by
    rintro w (_ | _ | _)
    · refine ⟨w.live_sync, fun m hm => ?_⟩
      obtain rfl := writeAhead_left_sync hm
      exact writeAhead_left_live w
    · exact writeAhead_same w
    · exact writeAhead_same w
  flush_ok := by
    rintro w (_ | _ | _) h m hm
    · exact writeAhead_left_sync hm
    · cases h
    · cases h
  recovers_trans := by
    rintro w _ _ ⟨kept, rfl⟩ ⟨kept', rfl⟩
    exact ⟨kept, by simp [WriteAhead.reopen]⟩

end
