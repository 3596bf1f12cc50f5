import PersistentQueue.Backends

/-!
# Commits of several threads on sled

A durable commit of `SledStore` is two calls of the database, and the queue commits from
several threads: between the `apply_batch` of one thread and its `flush` the others read what
went in and commit over it, and a crash or an error may still undo it. The queue is verified
over a store that commits in one step.

`sled_commits_are_atomic` justifies that step: every run of threads on a `SledStore` answers as
the model of the store does when each commit is made where its batch goes in. What the commit
comes to is not known there. It is `Ok`, and durable, when the thread's flush will return `Ok`;
otherwise, and for a thread that a crash catches before its flush, it is an error with the
whole batch applied. So the model may run ahead of the database: what it holds durably may not
be on disk yet, but then a flush comes before the next crash.
-/

namespace PersistentQueue

/-- What a thread does between two points where others may step in. -/
inductive SledEvent : Type where
  /-- a read and its answer -/
  | read (call : StoreCall) (reply : StoreReply)
  /-- the commit of a thread calls `apply_batch`; whether that returns `Ok` -/
  | apply (k : ℕ) (ops : List Op) (durable : Bool) (ok : Bool)
  /-- the commit of a thread calls `flush`; whether that returns `Ok` -/
  | flush (k : ℕ) (ok : Bool)
  /-- a crash, and an open of what it left -/
  | crash

/-- A database and the threads whose commits are between `apply_batch` and `flush`. -/
structure SledThreads (db : Database Key Bytes) where
  /-- the state of the database -/
  state : db.State
  /-- the threads that flush next -/
  flushing : List ℕ

/-- A thread does its next call. -/
inductive SledThreads.Step (db : Database Key Bytes) :
    SledThreads db → SledEvent → SledThreads db → Prop
  /-- a thread reads -/
  | read {s : db.State} {p : List ℕ} {call : StoreCall} {reply : StoreReply}
      (hreads : call.reads = true) (h : (SledStore.backend db).Serves s (call, reply) s) :
      Step db ⟨s, p⟩ (.read call reply) ⟨s, p⟩
  /-- a thread begins a commit; it returns at once after an error or when it need not flush -/
  | apply {s : db.State} {p : List ℕ} {k : ℕ} (hk : k ∉ p) (ops : List Op) (durable : Bool)
      (e : db.Fault) :
      Step db ⟨s, p⟩ (.apply k ops durable (SledStore.applyBatch db s ops e).2)
        ⟨(SledStore.applyBatch db s ops e).1,
          if (SledStore.applyBatch db s ops e).2 && durable then k :: p else p⟩
  /-- a thread flushes and returns -/
  | flush {s : db.State} {p : List ℕ} {k : ℕ} (hk : k ∈ p) (e : db.Fault) :
      Step db ⟨s, p⟩ (.flush k (db.flush s e).2) ⟨(db.flush s e).1, p.erase k⟩
  /-- the threads are gone -/
  | crash {s t : db.State} {p : List ℕ} (h : db.recovers s t) : Step db ⟨s, p⟩ .crash ⟨t, []⟩

theorem SledThreads.Step.apply_as {db : Database Key Bytes} {s : db.State} {p : List ℕ} {k : ℕ}
    {ops : List Op} {durable ok : Bool} (e : db.Fault) (hk : k ∉ p)
    (h : (SledStore.applyBatch db s ops e).2 = ok) :
    Step db ⟨s, p⟩ (.apply k ops durable ok)
      ⟨(SledStore.applyBatch db s ops e).1, if ok && durable then k :: p else p⟩ := by
  subst h
  exact .apply hk ops durable e

theorem SledThreads.Step.flush_as {db : Database Key Bytes} {s : db.State} {p : List ℕ} {k : ℕ}
    {ok : Bool} (e : db.Fault) (hk : k ∈ p) (h : (db.flush s e).2 = ok) :
    Step db ⟨s, p⟩ (.flush k ok) ⟨(db.flush s e).1, p.erase k⟩ := by
  subst h
  exact .flush hk e

/-- Whether the flush that a thread does next returns `Ok`, before any crash. -/
def flushOk (k : ℕ) : List SledEvent → Bool
  | [] => false
  | .flush j ok :: es => if j = k then ok else flushOk k es
  | .crash :: _ => false
  | .read _ _ :: es => flushOk k es
  | .apply _ _ _ _ :: es => flushOk k es

/-- The calls of the threads in one order: each commit where its batch goes in, with what it
will return. A commit that a crash or the end of the run catches before its flush counts as
failed. -/
def atomicCalls : List SledEvent → List (StoreCall × StoreReply)
  | [] => []
  | .read call reply :: es => (call, reply) :: atomicCalls es
  | .apply k ops durable ok :: es =>
    (.commit ops durable, .ofCommit (ok && (!durable || flushOk k es))) :: atomicCalls es
  | .flush _ _ :: es => atomicCalls es
  | .crash :: es => (.crash, .reopened) :: atomicCalls es

/-- Some flush returns `Ok` before any crash. -/
def syncs : List SledEvent → Bool
  | [] => false
  | .flush _ ok :: es => ok || syncs es
  | .crash :: _ => false
  | .read _ _ :: es => syncs es
  | .apply _ _ _ _ :: es => syncs es

theorem syncs_of_flushOk {k : ℕ} {es : List SledEvent} (h : flushOk k es = true) :
    syncs es = true := by
  induction es with
  | nil => cases h
  | cons e es ih =>
    cases e with
    | read call reply => exact ih h
    | apply j ops durable ok => exact ih h
    | flush j ok =>
      rw [flushOk] at h
      split at h
      · rw [syncs, h, Bool.true_or]
      · rw [syncs, ih h, Bool.or_true]
    | crash => cases h

/-- The model of the store reads as the database does. What a crash may leave it covers unless
a flush comes first. -/
structure Ahead (db : Database Key Bytes) (es : List SledEvent) (s : db.State) (st : Store) :
    Prop where
  content : db.content s = st.live
  live : st.Leaves st.live
  covers : syncs es = false → db.Covers s st

namespace Ahead

variable {db : Database Key Bytes} {es es' : List SledEvent} {s t : db.State} {st : Store}
  {us : List (Update Key Bytes)}

theorem of_covers (h : db.Covers s st) : Ahead db es s st := ⟨h.content, h.live, fun _ => h⟩

theorem keeps (h : Ahead db es s st) (hkeeps : db.Keeps s t)
    (hsyncs : syncs es' = false → syncs es = false) : Ahead db es' t st where
  content := hkeeps.content.trans h.content
  live := h.live
  covers := fun hno => (h.covers (hsyncs hno)).keeps hkeeps

/-- A batch goes in, for the model durably when a flush will come. -/
theorem writes (h : Ahead db es s st) (hwrites : db.Writes s us false t) (durable : Bool)
    (hdurable : durable = true → syncs es = true) : Ahead db es t (st.write us durable) where
  content := by rw [hwrites.content, h.content, Journaled.write_live]
  live := h.live.write us durable
  covers := by
    intro hno
    cases durable with
    | false => exact (h.covers hno).writes hwrites
    | true => cases hno.symm.trans (hdurable rfl)

/-- After a flush the database has what the model has. -/
theorem flushed (h : Ahead db es s st) (hdb : db.Lawful) {e : db.Fault}
    (hok : (db.flush s e).2 = true) : Ahead db es' (db.flush s e).1 st := by
  have hcontent := (hdb.flush_keeps s e).content.trans h.content
  refine of_covers ⟨hcontent, h.live, fun m hm => ?_⟩
  rw [hdb.flush_ok s e hok m hm, h.content]
  exact h.live

end Ahead

section

variable {db : Database Key Bytes} {es : List SledEvent} {e : SledEvent} {s t : SledThreads db}
  {st : Store}

/-- The model commits where the batch goes in. -/
theorem Ahead.apply {s : db.State} (hdb : db.Lawful) (k : ℕ) (ops : List Op) (durable : Bool)
    (f : db.Fault) (h : Ahead db es s st) :
    ∃ o : Outcome, o.Whole ops ∧
      o.isOk = ((SledStore.applyBatch db s ops f).2 && (!durable || flushOk k es)) ∧
      Ahead db es (SledStore.applyBatch db s ops f).1 (st.commit ops durable o) := by
  have hall : st.commit ops durable (.err (ops.map fun _ => true)) =
      st.write (ops.map Op.update) false := by
    rw [Store.commit, List.select_map, List.select_all]
  have hwhole : (Outcome.err (ops.map fun _ => true)).Whole ops := Or.inr (Or.inr rfl)
  cases hok : (SledStore.applyBatch db s ops f).2 with
  | false =>
    rcases SledStore.applyBatch_err hdb hok with hkeeps | hwrites
    · refine ⟨.err [], Or.inr (Or.inl rfl), rfl, ?_⟩
      rw [Store.commit_err_nil]
      exact h.keeps hkeeps id
    · refine ⟨_, hwhole, rfl, ?_⟩
      rw [hall]
      exact h.writes hwrites false (by simp)
  | true =>
    have hwrites := SledStore.applyBatch_ok hdb hok
    cases hflush : !durable || flushOk k es with
    | true =>
      refine ⟨.ok, Or.inl rfl, rfl, h.writes hwrites durable fun hdurable => ?_⟩
      rw [hdurable] at hflush
      exact syncs_of_flushOk hflush
    | false =>
      refine ⟨_, hwhole, rfl, ?_⟩
      rw [hall]
      exact h.writes hwrites false (by simp)

/-- A call of a thread is a call of the model, or, for a flush, none. -/
theorem Ahead.step (hdb : db.Lawful) (h : Ahead db (e :: es) s.state st)
    (hstep : SledThreads.Step db s e t) :
    ∃ st', Ahead db es t.state st' ∧
      ∀ st'', Trace Store.Serves st' (atomicCalls es) st'' →
        Trace Store.Serves st (atomicCalls (e :: es)) st'' := by
  cases hstep with
  | read hreads hserves =>
    have hread := ((SledStore.sound hdb).reads h.content hserves hreads).1
    exact ⟨st, ⟨h.content, h.live, h.covers⟩, fun _ htrace => .cons hread htrace⟩
  | @apply s p k _ ops durable f =>
    have hbefore : Ahead db es s st := ⟨h.content, h.live, h.covers⟩
    obtain ⟨o, hwhole, hok, hahead⟩ := hbefore.apply hdb k ops durable f
    refine ⟨_, hahead, fun _ htrace => ?_⟩
    rw [atomicCalls, ← hok]
    exact .cons (.commit st ops durable o hwhole) htrace
  | @flush s p k _ f =>
    refine ⟨st, ?_, fun _ htrace => htrace⟩
    cases hok : (db.flush s f).2 with
    | true => exact h.flushed hdb hok
    | false =>
      refine h.keeps (hdb.flush_keeps s f) fun hno => ?_
      rw [syncs, hok, hno]
      rfl
  | @crash s t p hcrash =>
    have hcovers := h.covers rfl
    obtain ⟨kept, hcovers⟩ := hcovers.crash (fun r => hdb.recovers_trans s t r hcrash) hcrash
    exact ⟨_, .of_covers hcovers, fun _ htrace => .cons (.crash st kept) htrace⟩

theorem Ahead.trace (hdb : db.Lawful) (htrace : Trace (SledThreads.Step db) s es t) :
    ∀ {st : Store}, Ahead db es s.state st →
      ∃ st', Trace Store.Serves st (atomicCalls es) st' ∧ db.content t.state = st'.live := by
  induction htrace with
  | nil => intro st h; exact ⟨st, .nil st, h.content⟩
  | cons hstep _ ih =>
    intro st h
    obtain ⟨st₁, hahead, hcons⟩ := h.step hdb hstep
    obtain ⟨st', hrest, hcontent⟩ := ih hahead
    exact ⟨st', hcons st' hrest, hcontent⟩

end

/-- **Commits on sled are atomic.** Whatever the order in which threads apply batches, flush
and read, whichever of these calls fail, and whenever it crashes, a `SledStore` answers all of
them as the model of the store does when every commit is made in one step, where its batch goes
in. -/
theorem sled_commits_are_atomic {db : Database Key Bytes} (hdb : db.Lawful) {s : db.State}
    (hs : db.Synced s) {es : List SledEvent} {t : SledThreads db}
    (htrace : Trace (SledThreads.Step db) ⟨s, []⟩ es t) :
    ∃ st, Trace Store.Serves (Journaled.ofMap (db.content s)) (atomicCalls es) st ∧
      db.content t.state = st.live :=
  Ahead.trace hdb htrace (.of_covers (Storage.covers_ofMap hs))

/-- Two threads: the batch of the second goes in over that of the first and is not durable, the
first one's flush makes both so, a third commit is caught by a crash before its flush. -/
def racingCommits : List SledEvent :=
  [.apply 0 [.put [1] [7]] true true, .apply 1 [.put [2] [8]] false true,
    .read (.get [1]) (.value (some [7])), .flush 0 true, .apply 1 [.delete [1]] true true,
    .read (.get [1]) (.value none), .crash, .read (.get [1]) (.value (some [7]))]

theorem racingCommits_trace :
    ∃ t, Trace (SledThreads.Step (writeAhead Key Bytes)) ⟨newLog, []⟩ racingCommits t := by
  let fine : SledFault (writeAhead Key Bytes) :=
    ⟨false, WriteAhead.Fault.none, WriteAhead.Fault.none⟩
  refine Trace.exists_cons (.apply_as WriteAhead.Fault.none (by decide) rfl) ?_
  refine Trace.exists_cons (.apply_as WriteAhead.Fault.none (by decide) rfl) ?_
  refine Trace.exists_cons (.read rfl (.get_as fine rfl)) ?_
  refine Trace.exists_cons (.flush_as WriteAhead.Fault.none (by decide) rfl) ?_
  refine Trace.exists_cons (.apply_as WriteAhead.Fault.none (by decide) rfl) ?_
  refine Trace.exists_cons (.read rfl (.get_as fine rfl)) ?_
  refine Trace.exists_cons (.crash ⟨0, rfl⟩) ?_
  refine Trace.exists_cons (.read rfl (.get_as fine rfl)) ?_
  exact ⟨_, .nil _⟩

theorem sled_commits_are_atomic_racing :
    (writeAhead Key Bytes).Lawful ∧ ∃ st, Trace Store.Serves (Journaled.ofMap SortedMap.empty)
      [(.commit [.put [1] [7]] true, .done), (.commit [.put [2] [8]] false, .done),
        (.get [1], .value (some [7])), (.commit [.delete [1]] true, .failed),
        (.get [1], .value none), (.crash, .reopened), (.get [1], .value (some [7]))] st := by
  obtain ⟨t, htrace⟩ := racingCommits_trace
  obtain ⟨st, hst, -⟩ :=
    sled_commits_are_atomic writeAhead_lawful (writeAhead_synced SortedMap.empty) htrace
  exact ⟨writeAhead_lawful, st, hst⟩

end PersistentQueue
