import PersistentQueue.Store

/-!
# Group commit

`Shared::group_commit` at lock granularity. A caller enqueues its entry under the group
lock. The first one in becomes the leader: it takes the whole pending list as a batch,
commits it with the lock released, records the outcome of every member in `done`, and
goes on while there is more pending. The others wait until their seq is recorded. A
caller whose batch failed retries just its own entry.

`GroupState` is the state under the lock, `GroupPc` says where a caller stands, and the
functions `enter`, `flush`, `record`, `wake` and `retried` are the sections of the code
between two releases of the lock. A section says whether its caller took an outcome, and
which (`GroupRet`). Waking up is always possible, so spurious wakeups are included.

`Group.Inv` says where everybody's entry is: at most one caller leads, and a caller that
has not taken its outcome has its seq in exactly one of the pending list, the leader's
batch and `done`. Every section keeps it.
-/

namespace PersistentQueue

/-- The state under the group lock. -/
structure GroupState where
  /-- entries waiting for a leader -/
  pending : List (ℕ × Bytes)
  /-- whether there is a leader -/
  flushing : Bool
  /-- outcomes not taken yet -/
  done : SortedMap ℕ Bool

/-- Where a caller of `group_commit` stands when it does not hold the lock. -/
inductive GroupPc : Type where
  /-- waiting for its seq to be recorded -/
  | waiting
  /-- leading, about to commit the batch -/
  | flushing (batch : List (ℕ × Bytes))
  /-- leading, the commit of the batch returned; about to record it -/
  | flushed (batch : List (ℕ × Bytes)) (ok : Bool)
  /-- its batch failed; about to retry its own entry -/
  | retry
  deriving DecidableEq

/-- What became of an entry's `Put` so far. This is history: no code reads it. -/
inductive Phase : Type where
  /-- no commit has held it -/
  | fresh
  /-- a commit holding it failed, and none has returned `Ok` -/
  | tried
  /-- a commit holding it returned `Ok` -/
  | landed
  deriving DecidableEq

/-- The phase of an entry after a commit that held it. -/
def Phase.ofCommit : Bool → Phase
  | true => .landed
  | false => .tried

/-- A call of `group_commit` that has not returned. -/
structure GroupCall where
  /-- the bytes to commit -/
  value : Bytes
  /-- where the caller stands -/
  pc : GroupPc
  /-- what became of its `Put` -/
  phase : Phase
  deriving DecidableEq

/-- Whether the caller leads. -/
def GroupPc.isLeader : GroupPc → Bool
  | .flushing _ => true
  | .flushed _ _ => true
  | _ => false

/-- The batch a caller holds. -/
def GroupPc.batch : GroupPc → List (ℕ × Bytes)
  | .flushing batch => batch
  | .flushed batch _ => batch
  | _ => []

/-- The group lock's state and the calls in progress, by seq. -/
structure Group where
  /-- the state under the lock -/
  state : GroupState
  /-- the calls in progress -/
  calls : SortedMap ℕ GroupCall

/-- What a section came to: its caller waits, leads or still has to commit, or it took
this out of `done`. A call that takes `Some(true)` returns `Ok`. -/
inductive GroupRet : Type where
  /-- the caller is still on its way -/
  | parked
  /-- the caller removed this outcome -/
  | took (outcome : Option Bool)
  deriving DecidableEq

/-- The ops of a batch. -/
def batchOps (batch : List (ℕ × Bytes)) : List Op :=
  batch.map fun e => Op.put (entryKey e.1) e.2

/-- A batch writes the items of its members. -/
theorem items_batchOps {m : SortedMap Key Bytes} {batch : List (ℕ × Bytes)}
    (h : ∀ e ∈ batch, e.1 < u64Size) :
    items (m.applyAll ((batchOps batch).map Op.update)) =
      (items m).applyAll (batch.map fun e => (e.1, some e.2)) := by
  induction batch generalizing m with
  | nil => rfl
  | cons e batch ih =>
    have hone := items_apply (m := m) (h e List.mem_cons_self) (some e.2)
    rw [List.map_cons, SortedMap.applyAll_cons, ← hone]
    exact ih fun e' he' => h e' (List.mem_cons_of_mem _ he')

/-- Record one outcome for every member of a batch. -/
def recordAll (done : SortedMap ℕ Bool) (batch : List (ℕ × Bytes)) (ok : Bool) :
    SortedMap ℕ Bool :=
  batch.foldl (fun d e => d.insert e.1 ok) done

namespace Group

/-- No call in progress. -/
def init : Group :=
  { state := { pending := [], flushing := false, done := SortedMap.empty }
    calls := SortedMap.empty }

/-- The end of the locked part: take the outcome. `Some(true)` returns `Ok`; anything else
goes on to the retry. -/
def finish (g : Group) (seq : ℕ) (c : GroupCall) : Group × GroupRet :=
  let state := { g.state with done := g.state.done.erase seq }
  let outcome := g.state.done.get? seq
  if outcome = some true then
    ({ state, calls := g.calls.erase seq }, .took outcome)
  else
    ({ state, calls := g.calls.insert seq { c with pc := .retry } }, .took outcome)

/-- The top of the leader's loop: take the pending list as the next batch. -/
def lead (g : Group) (seq : ℕ) (c : GroupCall) : Group × GroupRet :=
  if g.state.pending = [] then
    finish { g with state := { g.state with flushing := false } } seq c
  else
    ({ state := { g.state with pending := [] }
       calls := g.calls.insert seq { c with pc := .flushing g.state.pending } }, .parked)

/-- Enqueue an entry, then wait, or lead if nobody does. -/
def enter (g : Group) (seq : ℕ) (value : Bytes) : Group × GroupRet :=
  let c : GroupCall := { value, pc := .waiting, phase := .fresh }
  let g' := { g with state := { g.state with pending := g.state.pending ++ [(seq, value)] } }
  if g.state.flushing then
    match g.state.done.get? seq with
    | some _ => finish g' seq c
    | none => ({ g' with calls := g.calls.insert seq c }, .parked)
  else
    lead { g' with state := { g'.state with flushing := true } } seq c

/-- The commit of the leader's batch returned. -/
def flush (g : Group) (seq : ℕ) (batch : List (ℕ × Bytes)) (ok : Bool) : Group :=
  { g with
    calls := g.calls.mapVal fun s c =>
      { c with
        pc := if s = seq then .flushed batch ok else c.pc
        phase := if s ∈ batch.map Prod.fst then .ofCommit ok else c.phase } }

/-- The leader records the outcome of its batch, then stops or takes the next one. -/
def record (g : Group) (seq : ℕ) (c : GroupCall) (batch : List (ℕ × Bytes)) (ok : Bool) :
    Group × GroupRet :=
  let g' := { g with state := { g.state with done := recordAll g.state.done batch ok } }
  if g.state.pending = [] then
    finish { g' with state := { g'.state with flushing := false } } seq c
  else
    lead g' seq c

/-- A waiting caller looks for its outcome. -/
def wake (g : Group) (seq : ℕ) (c : GroupCall) : Group × GroupRet :=
  match g.state.done.get? seq with
  | some _ => finish g seq c
  | none => (g, .parked)

/-- The retry returned, and the call with it. -/
def retried (g : Group) (seq : ℕ) : Group := { g with calls := g.calls.erase seq }

/-! ## Where every entry is -/

/-- The seq is in the pending list. -/
def InPending (g : Group) (seq : ℕ) : Prop := seq ∈ g.state.pending.map Prod.fst

/-- The seq is in the batch of a leader. -/
def InBatch (g : Group) (seq : ℕ) : Prop :=
  ∃ l c, g.calls.get? l = some c ∧ seq ∈ c.pc.batch.map Prod.fst

/-- The seq has an outcome that was not taken yet. -/
def InDone (g : Group) (seq : ℕ) : Prop := ∃ ok, g.state.done.get? seq = some ok

/-- With `batch` in the leader's hands (committed with outcome `r`, or not yet), every call
that has not taken its outcome is in exactly one place, with its own bytes. -/
structure Places (g : Group) (batch : List (ℕ × Bytes)) (r : Option Bool) : Prop where
  pending_nodup : (g.state.pending.map Prod.fst).Nodup
  batch_nodup : (batch.map Prod.fst).Nodup
  pending_batch : ∀ s, g.InPending s → s ∉ batch.map Prod.fst
  pending_done : ∀ s, g.InPending s → g.state.done.get? s = none
  batch_done : ∀ s ∈ batch.map Prod.fst, g.state.done.get? s = none
  pending_call : ∀ s v, (s, v) ∈ g.state.pending →
    ∃ c, g.calls.get? s = some c ∧ c.value = v ∧ c.pc ≠ .retry ∧ c.phase = .fresh
  batch_call : ∀ s v, (s, v) ∈ batch →
    ∃ c, g.calls.get? s = some c ∧ c.value = v ∧ c.pc ≠ .retry ∧
      c.phase = r.elim .fresh .ofCommit
  done_call : ∀ s ok, g.state.done.get? s = some ok →
    ∃ c, g.calls.get? s = some c ∧ c.pc ≠ .retry ∧ c.phase = .ofCommit ok
  placed : ∀ s c, g.calls.get? s = some c → c.pc ≠ .retry →
    g.InPending s ∨ s ∈ batch.map Prod.fst ∨ g.InDone s
  retry_tried : ∀ s c, g.calls.get? s = some c → c.pc = .retry → c.phase = .tried

/-- Nobody leads, and nothing is pending. -/
structure Idle (g : Group) : Prop where
  not_flushing : g.state.flushing = false
  pending_nil : g.state.pending = []
  no_leader : ∀ s c, g.calls.get? s = some c → c.pc.isLeader = false
  places : g.Places [] none

/-- The leader's program point for its batch and the batch's outcome, if it has one. -/
def leaderPc (batch : List (ℕ × Bytes)) : Option Bool → GroupPc
  | none => .flushing batch
  | some ok => .flushed batch ok

/-- The call of `l` leads with `batch`. -/
structure Led (g : Group) (l : ℕ) (batch : List (ℕ × Bytes)) (r : Option Bool) : Prop where
  flushing : g.state.flushing = true
  leader : ∃ c, g.calls.get? l = some c ∧ c.pc = leaderPc batch r
  unique : ∀ s c, g.calls.get? s = some c → c.pc.isLeader = true → s = l
  leader_placed : ¬g.InPending l
  places : g.Places batch r

/-- The invariant of the group commit. -/
def Inv (g : Group) : Prop := g.Idle ∨ ∃ l batch r, g.Led l batch r

/-- Inside a section of the leader, between two batches: still flushing, nobody holds a
batch. -/
structure Between (g : Group) : Prop where
  flushing : g.state.flushing = true
  no_leader : ∀ s c, g.calls.get? s = some c → c.pc.isLeader = false
  places : g.Places [] none

variable {g : Group} {seq l : ℕ} {c : GroupCall} {batch : List (ℕ × Bytes)} {r : Option Bool}
  {ok : Bool}

theorem get?_recordAll {done : SortedMap ℕ Bool} {s : ℕ} :
    (recordAll done batch ok).get? s = if s ∈ batch.map Prod.fst then some ok else done.get? s := by
  rw [recordAll]
  induction batch generalizing done with
  | nil => simp
  | cons e batch ih =>
    rw [List.foldl_cons, ih, SortedMap.get?_insert]
    by_cases hs : s = e.1
    · simp [hs]
    · rw [if_neg hs]
      exact if_congr (by simp [hs]) rfl rfl

@[simp] theorem flush_state (g : Group) (seq : ℕ) (batch : List (ℕ × Bytes)) (ok : Bool) :
    (g.flush seq batch ok).state = g.state := rfl

theorem get?_flush (s : ℕ) :
    (g.flush seq batch ok).calls.get? s = (g.calls.get? s).map fun c =>
      { c with
        pc := if s = seq then .flushed batch ok else c.pc
        phase := if s ∈ batch.map Prod.fst then .ofCommit ok else c.phase } :=
  SortedMap.get?_mapVal _ _ _

theorem get?_of_retried {s : ℕ} (h : (g.retried seq).calls.get? s = some c) :
    s ≠ seq ∧ g.calls.get? s = some c := by
  rw [retried, SortedMap.get?_erase] at h
  split at h
  · cases h
  · next hne => exact ⟨hne, h⟩

/-! ## The end of the locked part -/

theorem finish_state (g : Group) (seq : ℕ) (c : GroupCall) :
    (g.finish seq c).1.state = { g.state with done := g.state.done.erase seq } := by
  simp only [finish]
  split <;> rfl

theorem finish_ret (g : Group) (seq : ℕ) (c : GroupCall) :
    (g.finish seq c).2 = .took (g.state.done.get? seq) := by
  simp only [finish]
  split <;> rfl

/-- The end moves nobody else's call. -/
theorem get?_finish_ne (g : Group) (c : GroupCall) {s : ℕ} (hs : s ≠ seq) :
    (g.finish seq c).1.calls.get? s = g.calls.get? s := by
  simp only [finish]
  split
  · exact SortedMap.get?_erase_ne _ hs
  · exact SortedMap.get?_insert_ne _ _ hs

/-- The call returns if it took `Some(true)`, and goes on to its retry if not. -/
theorem get?_finish_self (g : Group) (seq : ℕ) (c : GroupCall) :
    (g.finish seq c).1.calls.get? seq =
      if g.state.done.get? seq = some true then none else some { c with pc := .retry } := by
  simp only [finish]
  split
  · exact SortedMap.get?_erase_self _ _
  · exact SortedMap.get?_insert_self _ _ _

/-! ## The sections do not look at the caller's own record -/

theorem finish_insert_self (g : Group) (seq : ℕ) (c c' : GroupCall) (hvalue : c'.value = c.value)
    (hphase : c'.phase = c.phase) :
    finish { g with calls := g.calls.insert seq c' } seq c' = finish g seq c := by
  have herase : (g.calls.insert seq c').erase seq = g.calls.erase seq := by
    refine SortedMap.ext_get? fun s => ?_
    rw [SortedMap.get?_erase, SortedMap.get?_erase, SortedMap.get?_insert]
    split <;> simp [*]
  have hinsert : (g.calls.insert seq c').insert seq { c' with pc := .retry } =
      g.calls.insert seq { c with pc := .retry } := by
    refine SortedMap.ext_get? fun s => ?_
    rw [SortedMap.get?_insert, SortedMap.get?_insert, SortedMap.get?_insert]
    split <;> simp [*]
  simp only [finish, herase, hinsert]

theorem lead_insert_self (g : Group) (seq : ℕ) (c c' : GroupCall) (hvalue : c'.value = c.value)
    (hphase : c'.phase = c.phase) (hne : g.state.pending ≠ []) :
    lead { g with calls := g.calls.insert seq c' } seq c' = lead g seq c := by
  have hinsert : ∀ pc, (g.calls.insert seq c').insert seq { c' with pc } =
      g.calls.insert seq { c with pc } := by
    intro pc
    refine SortedMap.ext_get? fun s => ?_
    rw [SortedMap.get?_insert, SortedMap.get?_insert, SortedMap.get?_insert]
    split <;> simp [*]
  simp only [lead, if_neg hne, hinsert]

/-! ## How entries move between the places -/

namespace Places

theorem pending_member (h : g.Places batch r) (hs : g.InPending seq) :
    ∃ c, g.calls.get? seq = some c ∧ c.pc ≠ .retry ∧ c.phase = .fresh := by
  obtain ⟨⟨s, v⟩, hmem, rfl⟩ := List.mem_map.mp hs
  obtain ⟨c, hc, -, hpc, hphase⟩ := h.pending_call s v hmem
  exact ⟨c, hc, hpc, hphase⟩

theorem batch_member (h : g.Places batch r) (hs : seq ∈ batch.map Prod.fst) :
    ∃ c, g.calls.get? seq = some c ∧ c.pc ≠ .retry ∧ c.phase = r.elim .fresh .ofCommit := by
  obtain ⟨⟨s, v⟩, hmem, rfl⟩ := List.mem_map.mp hs
  obtain ⟨c, hc, -, hpc, hphase⟩ := h.batch_call s v hmem
  exact ⟨c, hc, hpc, hphase⟩

/-- The outcome that is there for a call is that of the commit that held it. -/
theorem phase_of_done (h : g.Places batch r) (hc : g.calls.get? seq = some c)
    (hdone : g.state.done.get? seq = some ok) : c.phase = .ofCommit ok := by
  obtain ⟨c', hc', -, hphase⟩ := h.done_call seq ok hdone
  obtain rfl := Option.some.inj (hc.symm.trans hc')
  exact hphase

/-- Whatever is somewhere belongs to a call. -/
theorem absent (h : g.Places batch r) (hnone : g.calls.get? seq = none) :
    ¬g.InPending seq ∧ seq ∉ batch.map Prod.fst ∧ g.state.done.get? seq = none := by
  refine ⟨fun hs => ?_, fun hs => ?_, ?_⟩
  · obtain ⟨c, hc, -⟩ := h.pending_member hs
    rw [hnone] at hc
    cases hc
  · obtain ⟨c, hc, -⟩ := h.batch_member hs
    rw [hnone] at hc
    cases hc
  · rcases hd : g.state.done.get? seq with _ | ok
    · rfl
    · obtain ⟨c, hc, -⟩ := h.done_call seq ok hd
      rw [hnone] at hc
      cases hc

/-- The places do not look at `flushing`. -/
theorem with_flushing (h : g.Places batch r) (flushing : Bool) :
    Places { g with state := { g.state with flushing } } batch r :=
  ⟨h.pending_nodup, h.batch_nodup, h.pending_batch, h.pending_done, h.batch_done,
    h.pending_call, h.batch_call, h.done_call, h.placed, h.retry_tried⟩

/-- A caller goes to another program point, neither of them the retry. -/
theorem moved (h : g.Places batch r) (hc : g.calls.get? seq = some c) (hpc : c.pc ≠ .retry)
    {pc : GroupPc} (hpc' : pc ≠ .retry) :
    Places { g with calls := g.calls.insert seq { c with pc } } batch r := by
  have hcall : ∀ s c₀, g.calls.get? s = some c₀ → c₀.pc ≠ .retry →
      ∃ c', (g.calls.insert seq { c with pc }).get? s = some c' ∧
        c'.value = c₀.value ∧ c'.pc ≠ .retry ∧ c'.phase = c₀.phase := by
    intro s c₀ hs hr
    by_cases heq : s = seq
    · subst heq
      obtain rfl := Option.some.inj (hc.symm.trans hs)
      exact ⟨_, SortedMap.get?_insert_self _ _ _, rfl, hpc', rfl⟩
    · exact ⟨c₀, (SortedMap.get?_insert_ne _ _ heq).trans hs, rfl, hr, rfl⟩
  constructor
  · exact h.pending_nodup
  · exact h.batch_nodup
  · exact h.pending_batch
  · exact h.pending_done
  · exact h.batch_done
  · intro s v hs
    obtain ⟨c₀, hc₀, hv, hr, hphase⟩ := h.pending_call s v hs
    obtain ⟨c', hc', hv', hr', hphase'⟩ := hcall s c₀ hc₀ hr
    exact ⟨c', hc', hv'.trans hv, hr', hphase'.trans hphase⟩
  · intro s v hs
    obtain ⟨c₀, hc₀, hv, hr, hphase⟩ := h.batch_call s v hs
    obtain ⟨c', hc', hv', hr', hphase'⟩ := hcall s c₀ hc₀ hr
    exact ⟨c', hc', hv'.trans hv, hr', hphase'.trans hphase⟩
  · intro s ok hs
    obtain ⟨c₀, hc₀, hr, hphase⟩ := h.done_call s ok hs
    obtain ⟨c', hc', -, hr', hphase'⟩ := hcall s c₀ hc₀ hr
    exact ⟨c', hc', hr', hphase'.trans hphase⟩
  · intro s c' hs hr
    by_cases heq : s = seq
    · exact h.placed s c (heq ▸ hc) hpc
    · exact h.placed s c' ((SortedMap.get?_insert_ne _ _ heq).symm.trans hs) hr
  · intro s c' hs hr
    have heq : s ≠ seq := by
      rintro rfl
      obtain rfl := Option.some.inj ((SortedMap.get?_insert_self _ _ _).symm.trans hs)
      exact hpc' hr
    exact h.retry_tried s c' ((SortedMap.get?_insert_ne _ _ heq).symm.trans hs) hr

/-- A new call enqueues its entry. -/
theorem enqueued (h : g.Places batch r) (hnew : g.calls.get? seq = none) (value : Bytes) :
    Places
      { state := { g.state with pending := g.state.pending ++ [(seq, value)] }
        calls := g.calls.insert seq { value, pc := .waiting, phase := .fresh } } batch r := by
  obtain ⟨hnp, hnb, hnd⟩ := h.absent hnew
  have hcalls : ∀ s, s ≠ seq →
      (g.calls.insert seq { value, pc := .waiting, phase := .fresh }).get? s = g.calls.get? s :=
    fun s hs => SortedMap.get?_insert_ne _ _ hs
  have hin : ∀ s, s ∈ (g.state.pending ++ [(seq, value)]).map Prod.fst ↔
      g.InPending s ∨ s = seq := by
    intro s
    simp [InPending]
  constructor
  · simp only [List.map_append, List.map_cons, List.map_nil]
    refine List.Nodup.append h.pending_nodup (List.nodup_singleton _) ?_
    intro s hs hs'
    obtain rfl := List.mem_singleton.mp hs'
    exact hnp hs
  · exact h.batch_nodup
  · intro s hs
    rcases (hin s).mp hs with hs | rfl
    · exact h.pending_batch s hs
    · exact hnb
  · intro s hs
    rcases (hin s).mp hs with hs | rfl
    · exact h.pending_done s hs
    · exact hnd
  · exact h.batch_done
  · intro s v hs
    rcases List.mem_append.mp hs with hold | hself
    · have hne : s ≠ seq := by
        rintro rfl
        exact hnp (List.mem_map.mpr ⟨(s, v), hold, rfl⟩)
      rw [hcalls s hne]
      exact h.pending_call s v hold
    · obtain ⟨rfl, rfl⟩ := Prod.mk.inj (List.mem_singleton.mp hself)
      exact ⟨_, SortedMap.get?_insert_self _ _ _, rfl, by simp, rfl⟩
  · intro s v hs
    rw [hcalls s (by rintro rfl; exact hnb (List.mem_map_of_mem hs))]
    exact h.batch_call s v hs
  · intro s ok hs
    have hne : s ≠ seq := by
      rintro rfl
      rw [hnd] at hs
      cases hs
    rw [hcalls s hne]
    exact h.done_call s ok hs
  · intro s c hs hpc
    by_cases hne : s = seq
    · exact Or.inl ((hin s).mpr (Or.inr hne))
    · rw [hcalls s hne] at hs
      rcases h.placed s c hs hpc with h | h | h
      · exact Or.inl ((hin s).mpr (Or.inl h))
      · exact Or.inr (Or.inl h)
      · exact Or.inr (Or.inr h)
  · intro s c hs hpc
    by_cases hne : s = seq
    · subst hne
      obtain rfl := Option.some.inj ((SortedMap.get?_insert_self _ _ _).symm.trans hs)
      cases hpc
    · rw [hcalls s hne] at hs
      exact h.retry_tried s c hs hpc

/-- The pending list becomes a batch. -/
theorem taken (h : g.Places [] none) :
    Places { g with state := { g.state with pending := [] } } g.state.pending none := by
  constructor
  · exact List.nodup_nil
  · exact h.pending_nodup
  · intro s hs
    simp [InPending] at hs
  · intro s hs
    simp [InPending] at hs
  · exact h.pending_done
  · intro s v hs
    cases hs
  · exact h.pending_call
  · exact h.done_call
  · intro s c hs hpc
    rcases h.placed s c hs hpc with hp | hb | hd
    · exact Or.inr (Or.inl hp)
    · cases hb
    · exact Or.inr (Or.inr hd)
  · exact h.retry_tried

/-- The commit of the batch returns: every member learns its outcome. -/
theorem flushed (h : g.Places batch none) (hc : g.calls.get? seq = some c) (hpc : c.pc ≠ .retry)
    (ok : Bool) : (g.flush seq batch ok).Places batch (some ok) := by
  have hcall : ∀ s c₀, g.calls.get? s = some c₀ → c₀.pc ≠ .retry →
      ∃ c', (g.flush seq batch ok).calls.get? s = some c' ∧ c'.value = c₀.value ∧ c'.pc ≠ .retry ∧
        c'.phase = if s ∈ batch.map Prod.fst then .ofCommit ok else c₀.phase := by
    intro s c₀ hs hr
    rw [get?_flush, hs]
    refine ⟨_, rfl, rfl, ?_, rfl⟩
    simp only
    split
    · simp
    · exact hr
  have hother : ∀ s c', s ≠ seq → (g.flush seq batch ok).calls.get? s = some c' →
      ∃ c₀, g.calls.get? s = some c₀ ∧ c'.pc = c₀.pc ∧
        c'.phase = if s ∈ batch.map Prod.fst then .ofCommit ok else c₀.phase := by
    intro s c' hne hs
    rw [get?_flush] at hs
    obtain ⟨c₀, hc₀, rfl⟩ := Option.map_eq_some_iff.mp hs
    exact ⟨c₀, hc₀, if_neg hne, rfl⟩
  constructor
  · exact h.pending_nodup
  · exact h.batch_nodup
  · exact h.pending_batch
  · exact h.pending_done
  · exact h.batch_done
  · intro s v hs
    obtain ⟨c₀, hc₀, hv, hr, hphase⟩ := h.pending_call s v hs
    obtain ⟨c', hc', hv', hr', hphase'⟩ := hcall s c₀ hc₀ hr
    rw [if_neg (h.pending_batch s (List.mem_map_of_mem hs))] at hphase'
    exact ⟨c', hc', hv'.trans hv, hr', hphase'.trans hphase⟩
  · intro s v hs
    obtain ⟨c₀, hc₀, hv, hr, -⟩ := h.batch_call s v hs
    obtain ⟨c', hc', hv', hr', hphase'⟩ := hcall s c₀ hc₀ hr
    rw [if_pos (List.mem_map_of_mem (f := Prod.fst) hs)] at hphase'
    exact ⟨c', hc', hv'.trans hv, hr', hphase'⟩
  · intro s ok' hs
    obtain ⟨c₀, hc₀, hr, hphase⟩ := h.done_call s ok' hs
    obtain ⟨c', hc', -, hr', hphase'⟩ := hcall s c₀ hc₀ hr
    have hnot : s ∉ batch.map Prod.fst := by
      intro hb
      rw [flush_state, h.batch_done s hb] at hs
      cases hs
    rw [if_neg hnot] at hphase'
    exact ⟨c', hc', hr', hphase'.trans hphase⟩
  · intro s c' hs hr
    by_cases hne : s = seq
    · exact h.placed s c (hne ▸ hc) hpc
    · obtain ⟨c₀, hc₀, hsame, -⟩ := hother s c' hne hs
      exact h.placed s c₀ hc₀ (hsame ▸ hr)
  · intro s c' hs hr
    have hne : s ≠ seq := by
      rintro rfl
      rw [get?_flush, hc] at hs
      obtain rfl := Option.some.inj hs
      simp only [if_true] at hr
      cases hr
    obtain ⟨c₀, hc₀, hsame, hphase⟩ := hother s c' hne hs
    have hnot : s ∉ batch.map Prod.fst := by
      intro hb
      obtain ⟨c₁, hc₁, hr₁, -⟩ := h.batch_member hb
      obtain rfl := Option.some.inj (hc₀.symm.trans hc₁)
      exact hr₁ (hsame ▸ hr)
    rw [if_neg hnot] at hphase
    exact hphase.trans (h.retry_tried s c₀ hc₀ (hsame ▸ hr))

/-- Recording moves the batch into `done`. -/
theorem recorded (h : g.Places batch (some ok)) :
    Places { g with state := { g.state with done := recordAll g.state.done batch ok } }
      [] none := by
  constructor
  · exact h.pending_nodup
  · exact List.nodup_nil
  · intro s _ hs
    cases hs
  · intro s hs
    simp only
    rw [get?_recordAll, if_neg (h.pending_batch s hs)]
    exact h.pending_done s hs
  · intro s hs
    cases hs
  · exact h.pending_call
  · intro s v hs
    cases hs
  · intro s ok' hs
    simp only at hs
    rw [get?_recordAll] at hs
    split at hs
    · next hb =>
      obtain rfl := Option.some.inj hs
      exact h.batch_member hb
    · exact h.done_call s ok' hs
  · intro s c hs hr
    rcases h.placed s c hs hr with hp | hb | ⟨ok', hd⟩
    · exact Or.inl hp
    · refine Or.inr (Or.inr ⟨ok, ?_⟩)
      simp only
      rw [get?_recordAll, if_pos hb]
    · refine Or.inr (Or.inr ⟨if s ∈ batch.map Prod.fst then ok else ok', ?_⟩)
      simp only
      rw [get?_recordAll, hd]
      split <;> rfl
  · exact h.retry_tried

/-- Taking an outcome that is there: the call leaves the places. -/
theorem finish (h : g.Places batch r) (hc : g.calls.get? seq = some c)
    (hdone : g.state.done.get? seq = some ok) : (g.finish seq c).1.Places batch r := by
  have hself : ∀ c', (g.finish seq c).1.calls.get? seq = some c' →
      c'.pc = .retry ∧ c'.phase = .tried := by
    intro c' hc'
    rw [get?_finish_self, hdone] at hc'
    split at hc'
    · cases hc'
    · next hok =>
      obtain rfl := Option.some.inj hc'
      obtain rfl : ok = false := by simpa using hok
      exact ⟨rfl, h.phase_of_done hc hdone⟩
  have hpending : ∀ s, (g.finish seq c).1.InPending s ↔ g.InPending s := by
    intro s
    rw [InPending, finish_state]
    rfl
  have hnotpending : ∀ s, g.InPending s → s ≠ seq := by
    rintro s hs rfl
    rw [h.pending_done _ hs] at hdone
    cases hdone
  have hnotbatch : ∀ s ∈ batch.map Prod.fst, s ≠ seq := by
    rintro s hs rfl
    rw [h.batch_done _ hs] at hdone
    cases hdone
  constructor
  · rw [finish_state]
    exact h.pending_nodup
  · exact h.batch_nodup
  · intro s hs
    exact h.pending_batch s ((hpending s).mp hs)
  · intro s hs
    rw [finish_state, SortedMap.get?_erase_ne _ (hnotpending s ((hpending s).mp hs))]
    exact h.pending_done s ((hpending s).mp hs)
  · intro s hs
    rw [finish_state, SortedMap.get?_erase_ne _ (hnotbatch s hs)]
    exact h.batch_done s hs
  · intro s v hs
    rw [finish_state] at hs
    rw [get?_finish_ne _ _ (hnotpending s (List.mem_map_of_mem hs))]
    exact h.pending_call s v hs
  · intro s v hs
    rw [get?_finish_ne _ _ (hnotbatch s (List.mem_map_of_mem hs))]
    exact h.batch_call s v hs
  · intro s ok' hs
    rw [finish_state, SortedMap.get?_erase] at hs
    split at hs
    · cases hs
    · next hne =>
      rw [get?_finish_ne _ _ hne]
      exact h.done_call s ok' hs
  · intro s c' hs hpc'
    by_cases hne : s = seq
    · subst hne
      exact absurd (hself c' hs).1 hpc'
    · rw [get?_finish_ne _ _ hne] at hs
      rcases h.placed s c' hs hpc' with hp | hb | ⟨ok', hd⟩
      · exact Or.inl ((hpending s).mpr hp)
      · exact Or.inr (Or.inl hb)
      · refine Or.inr (Or.inr ⟨ok', ?_⟩)
        rw [finish_state, SortedMap.get?_erase_ne _ hne]
        exact hd
  · intro s c' hs hpc'
    by_cases hne : s = seq
    · subst hne
      exact (hself c' hs).2
    · rw [get?_finish_ne _ _ hne] at hs
      exact h.retry_tried s c' hs hpc'

/-- A call that retried leaves; it held no place. -/
theorem retried (h : g.Places batch r) (hc : g.calls.get? seq = some c) (hpc : c.pc = .retry) :
    (g.retried seq).Places batch r := by
  have hcall : ∀ s c₀, g.calls.get? s = some c₀ → c₀.pc ≠ .retry →
      (g.retried seq).calls.get? s = some c₀ := by
    intro s c₀ hs hr
    have hne : s ≠ seq := by
      rintro rfl
      obtain rfl := Option.some.inj (hc.symm.trans hs)
      exact hr hpc
    exact (SortedMap.get?_erase_ne _ hne).trans hs
  constructor
  · exact h.pending_nodup
  · exact h.batch_nodup
  · exact h.pending_batch
  · exact h.pending_done
  · exact h.batch_done
  · intro s v hs
    obtain ⟨c₀, hc₀, hv, hr, hphase⟩ := h.pending_call s v hs
    exact ⟨c₀, hcall s c₀ hc₀ hr, hv, hr, hphase⟩
  · intro s v hs
    obtain ⟨c₀, hc₀, hv, hr, hphase⟩ := h.batch_call s v hs
    exact ⟨c₀, hcall s c₀ hc₀ hr, hv, hr, hphase⟩
  · intro s ok hs
    obtain ⟨c₀, hc₀, hr, hphase⟩ := h.done_call s ok hs
    exact ⟨c₀, hcall s c₀ hc₀ hr, hr, hphase⟩
  · intro s c₀ hs hr
    exact h.placed s c₀ (get?_of_retried hs).2 hr
  · intro s c₀ hs hr
    exact h.retry_tried s c₀ (get?_of_retried hs).2 hr

end Places

/-! ## Every section keeps the invariant -/

theorem Inv.places (h : g.Inv) : ∃ batch r, g.Places batch r := by
  rcases h with h | ⟨l, batch, r, h⟩
  · exact ⟨[], none, h.places⟩
  · exact ⟨batch, r, h.places⟩

theorem Led.ne_leader (h : g.Led l batch r) (hc : g.calls.get? seq = some c)
    (hpc : c.pc.isLeader = false) : l ≠ seq := by
  rintro rfl
  obtain ⟨c', hc', hpc'⟩ := h.leader
  obtain rfl := Option.some.inj (hc.symm.trans hc')
  rw [hpc'] at hpc
  cases r <;> cases hpc

theorem Inv.finish (h : g.Inv) (hc : g.calls.get? seq = some c) (hpc : c.pc = .waiting)
    (hdone : g.state.done.get? seq = some ok) :
    (g.finish seq c).1.Inv ∧ (g.finish seq c).2 = .took (some ok) := by
  have hret : (g.finish seq c).2 = .took (some ok) := by rw [finish_ret, hdone]
  -- who leads afterwards led before
  have hleader : ∀ s c', (g.finish seq c).1.calls.get? s = some c' → c'.pc.isLeader = true →
      g.calls.get? s = some c' := by
    intro s c' hs hlead
    by_cases hne : s = seq
    · subst hne
      rw [get?_finish_self] at hs
      split at hs
      · cases hs
      · obtain rfl := Option.some.inj hs
        cases hlead
    · rwa [get?_finish_ne _ _ hne] at hs
  rcases h with h | ⟨l, batch, r, h⟩
  · refine ⟨Or.inl ⟨?_, ?_, fun s c' hs => ?_, h.places.finish hc hdone⟩, hret⟩
    · rw [finish_state]
      exact h.not_flushing
    · rw [finish_state]
      exact h.pending_nil
    · by_contra hlead
      rw [Bool.not_eq_false] at hlead
      rw [h.no_leader s c' (hleader s c' hs hlead)] at hlead
      cases hlead
  · have hne : l ≠ seq := h.ne_leader hc (by rw [hpc]; rfl)
    refine ⟨Or.inr ⟨l, batch, r, ?_, ?_, fun s c' hs hlead => ?_, ?_, h.places.finish hc hdone⟩,
      hret⟩
    · rw [finish_state]
      exact h.flushing
    · obtain ⟨c', hc', hpc'⟩ := h.leader
      exact ⟨c', (get?_finish_ne _ _ hne).trans hc', hpc'⟩
    · exact h.unique s c' (hleader s c' hs hlead) hlead
    · rw [InPending, finish_state]
      exact h.leader_placed

/-- A caller that goes on, or has taken the outcome its `Put` came to. -/
def Truthful (c : GroupCall) (ret : GroupRet) : Prop :=
  ret = .parked ∨ ∃ ok, ret = .took (some ok) ∧ c.phase = .ofCommit ok

/-- A waiting caller that finds its outcome takes it; otherwise nothing changes. -/
theorem Inv.wake (h : g.Inv) (hc : g.calls.get? seq = some c) (hpc : c.pc = .waiting) :
    (g.wake seq c).1.Inv ∧ Truthful c (g.wake seq c).2 := by
  rw [Group.wake]
  split
  · next ok hdone =>
    obtain ⟨hinv, hok⟩ := h.finish hc hpc hdone
    obtain ⟨batch, r, hplaces⟩ := h.places
    exact ⟨hinv, Or.inr ⟨ok, hok, hplaces.phase_of_done hc hdone⟩⟩
  · exact ⟨h, Or.inl rfl⟩

/-- The leader takes the pending list as its next batch. -/
theorem Between.lead (h : g.Between) (hc : g.calls.get? seq = some c) (hpc : c.pc = .waiting)
    (hne : g.state.pending ≠ []) : (g.lead seq c).1.Inv ∧ (g.lead seq c).2 = .parked := by
  rw [Group.lead]
  rw [if_neg hne]
  refine ⟨Or.inr ⟨seq, g.state.pending, none, ?_⟩, rfl⟩
  refine ⟨h.flushing, ⟨_, SortedMap.get?_insert_self _ _ _, rfl⟩, fun s c' hs hlead => ?_,
    by simp [InPending], ?_⟩
  · by_contra hsne
    rw [h.no_leader s c' ((SortedMap.get?_insert_ne _ _ hsne).symm.trans hs)] at hlead
    cases hlead
  · exact h.places.taken.moved hc (by simp [hpc]) (by simp)

/-- A new call: its seq is in nobody's hands yet, and it does not return at once. -/
theorem Inv.enter (h : g.Inv) (hnew : g.calls.get? seq = none) (value : Bytes) :
    (g.enter seq value).1.Inv ∧ (g.enter seq value).2 = .parked := by
  set c : GroupCall := { value, pc := .waiting, phase := .fresh } with hcdef
  -- enqueued, and the call on the books
  have hplaces : ∀ {batch r}, g.Places batch r → ∀ flushing,
      Places { state := { g.state with pending := g.state.pending ++ [(seq, value)], flushing }
               calls := g.calls.insert seq c } batch r :=
    fun hp flushing => (hp.enqueued hnew value).with_flushing flushing
  have hleader : ∀ s c', (g.calls.insert seq c).get? s = some c' → c'.pc.isLeader = true →
      g.calls.get? s = some c' := by
    intro s c' hs hlead
    rw [SortedMap.get?_insert] at hs
    split at hs
    · obtain rfl := Option.some.inj hs
      cases hlead
    · exact hs
  rcases h with h | ⟨l, batch, r, h⟩
  · -- nobody leads: this caller does
    have hbetween : Between { state := { g.state with
                                pending := g.state.pending ++ [(seq, value)], flushing := true }
                              calls := g.calls.insert seq c } := by
      refine ⟨rfl, fun s c' hs => ?_, hplaces h.places true⟩
      by_contra hlead
      rw [Bool.not_eq_false] at hlead
      rw [h.no_leader s c' (hleader s c' hs hlead)] at hlead
      cases hlead
    have hlead := hbetween.lead (SortedMap.get?_insert_self _ _ _) rfl (by simp)
    have hself := lead_insert_self
      { state := { g.state with pending := g.state.pending ++ [(seq, value)], flushing := true }
        calls := g.calls } seq c c rfl rfl (by simp)
    simp only at hself
    simp only [Group.enter, h.not_flushing, Bool.false_eq_true, if_false, ← hcdef]
    rw [← hself]
    exact hlead
  · -- somebody leads: wait
    obtain ⟨-, -, hnd⟩ := h.places.absent hnew
    have hne : l ≠ seq := by
      rintro rfl
      obtain ⟨c', hc', -⟩ := h.leader
      rw [hnew] at hc'
      cases hc'
    simp only [Group.enter, h.flushing, if_true, hnd, ← hcdef]
    refine ⟨Or.inr ⟨l, batch, r, rfl, ?_, fun s c' hs hlead => ?_, ?_, ?_⟩, trivial⟩
    · obtain ⟨c', hc', hpc'⟩ := h.leader
      exact ⟨c', (SortedMap.get?_insert_ne _ _ hne).trans hc', hpc'⟩
    · exact h.unique s c' (hleader s c' hs hlead) hlead
    · simp only [InPending, List.map_append, List.map_cons, List.map_nil, List.mem_append,
        List.mem_singleton, not_or]
      exact ⟨h.leader_placed, hne⟩
    · exact hplaces h.places true

/-- A caller at the leader's program point leads, with the batch it holds. -/
theorem Inv.led (h : g.Inv) (hc : g.calls.get? seq = some c) (hpc : c.pc = leaderPc batch r) :
    g.Led seq batch r := by
  have hlead : c.pc.isLeader = true := by
    rw [hpc]
    cases r <;> rfl
  rcases h with h | ⟨l, batch', r', h⟩
  · rw [h.no_leader seq c hc] at hlead
    cases hlead
  · obtain rfl := h.unique seq c hc hlead
    obtain ⟨c', hc', hpc'⟩ := h.leader
    obtain rfl := Option.some.inj (hc.symm.trans hc')
    have hsame : leaderPc batch r = leaderPc batch' r' := hpc.symm.trans hpc'
    cases r <;> cases r' <;> cases hsame <;> exact h

/-- The batch's commit returns: every member learns the same outcome. -/
theorem Inv.flush (h : g.Inv) (hc : g.calls.get? seq = some c) (hpc : c.pc = .flushing batch)
    (ok : Bool) : (g.flush seq batch ok).Inv := by
  have hled : g.Led seq batch none := h.led hc hpc
  refine Or.inr ⟨seq, batch, some ok, hled.flushing, ?_, fun s c' hs hlead => ?_,
    hled.leader_placed, hled.places.flushed hc (by simp [hpc]) ok⟩
  · exact ⟨_, by rw [get?_flush, hc]; rfl, if_pos rfl⟩
  · by_contra hne
    rw [get?_flush] at hs
    obtain ⟨c₀, hc₀, rfl⟩ := Option.map_eq_some_iff.mp hs
    rw [if_neg hne] at hlead
    exact hne (hled.unique s c₀ hc₀ hlead)

/-- Recording moves the batch into `done`; the leader holds nothing any more. -/
theorem Led.recorded (h : g.Led seq batch (some ok)) (hc : g.calls.get? seq = some c) :
    Between { state := { g.state with done := recordAll g.state.done batch ok }
              calls := g.calls.insert seq { c with pc := .waiting } } ∧
    ∃ ok', (recordAll g.state.done batch ok).get? seq = some ok' ∧ c.phase = .ofCommit ok' := by
  have hpc : c.pc ≠ .retry := by
    obtain ⟨c', hc', hpc'⟩ := h.leader
    obtain rfl := Option.some.inj (hc.symm.trans hc')
    simp [hpc', leaderPc]
  have hplaces := h.places.recorded
  refine ⟨⟨h.flushing, fun s c' hs => ?_, hplaces.moved hc hpc (by simp)⟩, ?_⟩
  · by_contra hlead
    rw [Bool.not_eq_false] at hlead
    by_cases hne : s = seq
    · subst hne
      obtain rfl := Option.some.inj ((SortedMap.get?_insert_self _ _ _).symm.trans hs)
      cases hlead
    · exact hne (h.unique s c' ((SortedMap.get?_insert_ne _ _ hne).symm.trans hs) hlead)
  · -- the leader was not pending and no longer in a batch
    rcases hplaces.placed seq c hc hpc with hpend | hb | ⟨ok', hd⟩
    · exact absurd hpend h.leader_placed
    · cases hb
    · exact ⟨ok', hd, hplaces.phase_of_done hc hd⟩

/-- The leader records its batch, and stops or goes on. -/
theorem Inv.record (h : g.Inv) (hc : g.calls.get? seq = some c) (hpc : c.pc = .flushed batch ok) :
    (g.record seq c batch ok).1.Inv ∧ Truthful c (g.record seq c batch ok).2 := by
  have hled : g.Led seq batch (some ok) := h.led hc hpc
  obtain ⟨hbetween, ok', hdone, hphase⟩ := hled.recorded hc
  rw [Group.record]
  split
  · next hnil =>
    -- nothing more is pending: leadership ends
    have hidle : Inv { state := { g.state with
                         done := recordAll g.state.done batch ok, flushing := false }
                       calls := g.calls.insert seq { c with pc := .waiting } } :=
      Or.inl ⟨rfl, hnil, hbetween.no_leader, hbetween.places.with_flushing false⟩
    have hfinish := hidle.finish (SortedMap.get?_insert_self _ _ _) rfl hdone
    have hself := finish_insert_self
      { g with state := { g.state with
          done := recordAll g.state.done batch ok, flushing := false } }
      seq c { c with pc := .waiting } rfl rfl
    simp only at hself
    rw [hself] at hfinish
    exact ⟨hfinish.1, Or.inr ⟨ok', hfinish.2, hphase⟩⟩
  · next hne =>
    have hlead := hbetween.lead (SortedMap.get?_insert_self _ _ _) rfl hne
    have hself := lead_insert_self
      { g with state := { g.state with done := recordAll g.state.done batch ok } }
      seq c { c with pc := .waiting } rfl rfl hne
    simp only at hself
    rw [hself] at hlead
    exact ⟨hlead.1, Or.inl hlead.2⟩

/-- A call that retried leaves; it held no place. -/
theorem Inv.retried (h : g.Inv) (hc : g.calls.get? seq = some c) (hpc : c.pc = .retry) :
    (g.retried seq).Inv := by
  rcases h with h | ⟨l, batch, r, h⟩
  · exact Or.inl ⟨h.not_flushing, h.pending_nil,
      fun s c₀ hs => h.no_leader s c₀ (get?_of_retried hs).2, h.places.retried hc hpc⟩
  · refine Or.inr ⟨l, batch, r, h.flushing, ?_,
      fun s c₀ hs => h.unique s c₀ (get?_of_retried hs).2, h.leader_placed,
      h.places.retried hc hpc⟩
    obtain ⟨c', hc', hpc'⟩ := h.leader
    have hne : l ≠ seq := h.ne_leader hc (by rw [hpc]; rfl)
    exact ⟨c', (SortedMap.get?_erase_ne _ hne).trans hc', hpc'⟩

/-! ## What a section leaves alone -/

/-- A section of the call `c` under `seq` moves no other call, and of its own record only
the program point; the record goes when the call returns `Ok`. -/
structure Section (calls : SortedMap ℕ GroupCall) (seq : ℕ) (c : GroupCall)
    (res : Group × GroupRet) : Prop where
  frame : ∀ s, s ≠ seq → res.1.calls.get? s = calls.get? s
  stays : res.2 ≠ .took (some true) → ∃ pc, res.1.calls.get? seq = some { c with pc }
  leaves : res.2 = .took (some true) → res.1.calls.get? seq = none

theorem section_finish (g : Group) (seq : ℕ) (c : GroupCall) :
    Section g.calls seq c (g.finish seq c) := by
  refine ⟨fun s hs => get?_finish_ne g c hs, fun hne => ⟨.retry, ?_⟩, fun heq => ?_⟩
  · rw [finish_ret] at hne
    rw [get?_finish_self, if_neg fun hok => hne (congrArg GroupRet.took hok)]
  · rw [finish_ret] at heq
    rw [get?_finish_self, if_pos (GroupRet.took.inj heq)]

theorem section_lead (g : Group) (seq : ℕ) (c : GroupCall) :
    Section g.calls seq c (g.lead seq c) := by
  rw [lead]
  split
  · exact section_finish { g with state := { g.state with flushing := false } } seq c
  · exact ⟨fun s hs => SortedMap.get?_insert_ne _ _ hs,
      fun _ => ⟨_, SortedMap.get?_insert_self _ _ _⟩, fun heq => by cases heq⟩

theorem section_record (g : Group) (seq : ℕ) (c : GroupCall) (batch : List (ℕ × Bytes))
    (ok : Bool) : Section g.calls seq c (g.record seq c batch ok) := by
  simp only [record]
  split
  · exact section_finish { g with state := { g.state with
        done := recordAll g.state.done batch ok, flushing := false } } seq c
  · exact section_lead { g with state := { g.state with
        done := recordAll g.state.done batch ok } } seq c

theorem section_wake (hc : g.calls.get? seq = some c) : Section g.calls seq c (g.wake seq c) := by
  rw [wake]
  split
  · exact section_finish g seq c
  · exact ⟨fun _ _ => rfl, fun _ => ⟨c.pc, hc⟩, fun heq => by cases heq⟩

theorem section_enter (g : Group) (seq : ℕ) (value : Bytes) :
    Section g.calls seq { value, pc := .waiting, phase := .fresh } (g.enter seq value) := by
  simp only [enter]
  split
  · split
    · exact section_finish { g with state := { g.state with
          pending := g.state.pending ++ [(seq, value)] } } seq _
    · exact ⟨fun s hs => SortedMap.get?_insert_ne _ _ hs,
        fun _ => ⟨.waiting, SortedMap.get?_insert_self _ _ _⟩, fun heq => by cases heq⟩
  · exact section_lead { g with state := { g.state with
        pending := g.state.pending ++ [(seq, value)], flushing := true } } seq _

/-! ## What the invariant gives -/

/-- The seq is in exactly one of the pending list, a leader's batch and `done`. -/
def Placed (g : Group) (seq : ℕ) : Prop :=
  (g.InPending seq ∧ ¬g.InBatch seq ∧ ¬g.InDone seq) ∨
  (¬g.InPending seq ∧ g.InBatch seq ∧ ¬g.InDone seq) ∨
  (¬g.InPending seq ∧ ¬g.InBatch seq ∧ g.InDone seq)

theorem batch_nil_of_not_leader {pc : GroupPc} (h : pc.isLeader = false) : pc.batch = [] := by
  cases pc <;> first | rfl | cases h

theorem Inv.leader_unique (h : g.Inv) {s s' : ℕ} {c c' : GroupCall} (hs : g.calls.get? s = some c)
    (hs' : g.calls.get? s' = some c') (hc : c.pc.isLeader = true) (hc' : c'.pc.isLeader = true) :
    s = s' := by
  rcases h with h | ⟨l, batch, r, h⟩
  · rw [h.no_leader s c hs] at hc
    cases hc
  · rw [h.unique s c hs hc, h.unique s' c' hs' hc']

/-- Somebody is flushing exactly when somebody leads. -/
theorem Inv.flushing_iff (h : g.Inv) :
    g.state.flushing = true ↔ ∃ s c, g.calls.get? s = some c ∧ c.pc.isLeader = true := by
  rcases h with h | ⟨l, batch, r, h⟩
  · rw [h.not_flushing]
    refine ⟨fun hf => (by cases hf), ?_⟩
    rintro ⟨s, c, hs, hc⟩
    rw [h.no_leader s c hs] at hc
    cases hc
  · refine ⟨fun _ => ?_, fun _ => h.flushing⟩
    obtain ⟨c, hc, hpc⟩ := h.leader
    refine ⟨l, c, hc, ?_⟩
    rw [hpc]
    cases r <;> rfl

theorem Inv.pending_nil (h : g.Inv) (hf : g.state.flushing = false) : g.state.pending = [] := by
  rcases h with h | ⟨l, batch, r, h⟩
  · exact h.pending_nil
  · rw [h.flushing] at hf
    cases hf

/-- Nobody is lost, and nobody is in two places. -/
theorem Inv.placed (h : g.Inv) (hc : g.calls.get? seq = some c) (hpc : c.pc ≠ .retry) :
    g.Placed seq := by
  obtain ⟨batch, r, hp, hbatch⟩ : ∃ batch r, g.Places batch r ∧
      ∀ s, g.InBatch s ↔ s ∈ batch.map Prod.fst := by
    rcases h with h | ⟨l, batch, r, h⟩
    · refine ⟨[], none, h.places, fun s => ⟨?_, fun hs => (by cases hs)⟩⟩
      rintro ⟨l, c', hl, hs⟩
      rw [batch_nil_of_not_leader (h.no_leader l c' hl)] at hs
      exact hs
    · obtain ⟨c', hc', hpc'⟩ := h.leader
      have hheld : c'.pc.batch = batch := by
        rw [hpc']
        cases r <;> rfl
      refine ⟨batch, r, h.places, fun s => ⟨?_, fun hs => ⟨l, c', hc', hheld ▸ hs⟩⟩⟩
      rintro ⟨l', c'', hl, hs⟩
      cases hlead : c''.pc.isLeader
      · rw [batch_nil_of_not_leader hlead] at hs
        cases hs
      · obtain rfl := h.unique l' c'' hl hlead
        obtain rfl := Option.some.inj (hc'.symm.trans hl)
        exact hheld ▸ hs
  have hdone : ∀ {s}, g.state.done.get? s = none → ¬g.InDone s := by
    rintro s hs ⟨ok, hd⟩
    rw [hs] at hd
    cases hd
  rcases hp.placed seq c hc hpc with hpend | hb | hd
  · exact Or.inl ⟨hpend, mt (hbatch seq).mp (hp.pending_batch seq hpend),
      hdone (hp.pending_done seq hpend)⟩
  · exact Or.inr (Or.inl ⟨fun hpend => hp.pending_batch seq hpend hb, (hbatch seq).mpr hb,
      hdone (hp.batch_done seq hb)⟩)
  · exact Or.inr (Or.inr ⟨fun hpend => hdone (hp.pending_done seq hpend) hd,
      fun hb => hdone (hp.batch_done seq ((hbatch seq).mp hb)) hd, hd⟩)

/-- With no call in progress, nothing is left behind. -/
theorem Inv.quiet (h : g.Inv) (hnone : ∀ s, g.calls.get? s = none) :
    g.state.pending = [] ∧ g.state.flushing = false ∧ ∀ s, g.state.done.get? s = none := by
  rcases h with h | ⟨l, batch, r, h⟩
  · exact ⟨h.pending_nil, h.not_flushing, fun s => (h.places.absent (hnone s)).2.2⟩
  · obtain ⟨c, hc, -⟩ := h.leader
    rw [hnone] at hc
    cases hc

theorem inv_init : Group.init.Inv := by
  refine Or.inl ⟨rfl, rfl, fun s c hs => (by cases hs), ?_⟩
  constructor <;> simp [Group.init, InPending]

end Group

end PersistentQueue
