import PersistentQueue.Seqs

/-!
# An open queue

The whole of an open queue: the ledger and the group commit. An act is a turn of the
ledger, or a section of `Producer::write`: the commit of a write on its own under `Sync`
and `None`, and the sections of `group_commit` under `Group`. Any number of threads is in
it at once, and the environment picks the order and every commit's outcome.

The group commit is one way of choosing the ledger's moves: `Coupled.step` follows every
act by moves of the ledger, a batch by one move for each of its entries. What holds along
the runs of the ledger therefore holds along the runs of the queue, under each policy. The
class of runs a result is about is a `Discipline`, which is stated once and read at both
levels.
-/

namespace PersistentQueue

/-- An open queue. -/
structure Session extends Ledger where
  /-- the group lock's state and the calls in the group commit -/
  group : Group

/-- The turn of one thread. -/
inductive Act : Type where
  /-- a turn that the group commit has no part in -/
  | turn (a : Turn)
  /-- the commit of a write on its own -/
  | commit (seq : ℕ) (o : Outcome)
  /-- a write enters the group commit -/
  | enter (seq : ℕ)
  /-- the commit of the leader's batch -/
  | flush (seq : ℕ) (o : Outcome)
  /-- the leader records the outcome -/
  | record (seq : ℕ)
  /-- a waiting write is woken, or wakes up for no reason -/
  | wake (seq : ℕ)
  /-- the commit of a write whose batch failed -/
  | retry (seq : ℕ) (o : Outcome)
  deriving DecidableEq

namespace Ledger

/-- A commit with one `Put` returns, and the write with it: `Ok`, or on to give back the
slot. -/
def write (l : Ledger) (seq : ℕ) (w : Write) (durable : Bool) (o : Outcome) : Ledger :=
  if o.isOk then (l.put seq w durable o).returned seq w else (l.put seq w durable o).gaveUp seq w

/-- The marks that the commit of a batch leaves, entry by entry. -/
def putAll (l : Ledger) : List (ℕ × Bytes) → Outcome → Ledger
  | [], _ => l
  | (seq, _) :: batch, o =>
    match l.writes.get? seq with
    | some w => (l.put seq w true o.head).putAll batch o.tail
    | none => l.putAll batch o.tail

/-- The commit of a batch returned. -/
def flush (l : Ledger) (batch : List (ℕ × Bytes)) (o : Outcome) : Ledger :=
  { l.putAll batch o with store := l.store.commit (batchOps batch) true o }

end Ledger

namespace Session

/-- A queue that was just opened. -/
def opened (cfg : Builder) (st : Store) (inner : Inner) (log : List Event) : Session :=
  { toLedger := Ledger.opened cfg st inner log, group := Group.init }

/-- A section of the group commit ended: a write that took `Some(true)` returns `Ok`. -/
def settle (s : Session) (seq : ℕ) (w : Write) (res : Group × GroupRet) : Session :=
  if res.2 = .took (some true) then
    { toLedger := s.toLedger.returned seq w, group := res.1 }
  else
    { s with group := res.1 }

/-- One act. -/
def step (s : Session) : Act → Option Session
  | .turn a => (s.toLedger.turn a).map fun l => { s with toLedger := l }
  | .commit seq o =>
    match s.writes.get? seq with
    | some w =>
      if s.cfg.durability.isGroup = false ∧ w.stage = .fresh then
        some { s with toLedger := s.toLedger.write seq w s.cfg.durability.durable o }
      else
        none
    | none => none
  | .enter seq =>
    match s.writes.get? seq, s.group.calls.get? seq with
    | some w, none =>
      if s.cfg.durability.isGroup = true ∧ w.stage = .fresh then
        some (s.settle seq w (s.group.enter seq w.value))
      else
        none
    | _, _ => none
  | .flush seq o =>
    match s.group.calls.get? seq with
    | some ⟨_, .flushing batch, _⟩ =>
      some { toLedger := s.toLedger.flush batch o, group := s.group.flush seq batch o.isOk }
    | _ => none
  | .record seq =>
    match s.writes.get? seq, s.group.calls.get? seq with
    | some w, some ⟨value, .flushed batch ok, phase⟩ =>
      some (s.settle seq w (s.group.record seq ⟨value, .flushed batch ok, phase⟩ batch ok))
    | _, _ => none
  | .wake seq =>
    match s.writes.get? seq, s.group.calls.get? seq with
    | some w, some ⟨value, .waiting, phase⟩ =>
      some (s.settle seq w (s.group.wake seq ⟨value, .waiting, phase⟩))
    | _, _ => none
  | .retry seq o =>
    match s.writes.get? seq, s.group.calls.get? seq with
    | some w, some ⟨_, .retry, _⟩ =>
      some { toLedger := s.toLedger.write seq w true o, group := s.group.retried seq }
    | _, _ => none

end Session

/-! ## Classes of runs -/

/-- A class of runs: which turns are allowed in which states, what commits of `Put`s may
come to, and which retries after a failed batch are allowed. -/
structure Discipline where
  /-- the turns allowed -/
  turn : Ledger → Turn → Prop
  /-- the outcomes allowed for a commit of `Put`s -/
  outcome : Outcome → Prop
  /-- the retries allowed -/
  retry : Ledger → ℕ → Outcome → Prop
  /-- an outcome is allowed for a batch only if it is for each op of it -/
  split : ∀ o, outcome o → outcome o.head ∧ outcome o.tail

namespace Discipline

variable (D : Discipline)

/-- The acts allowed in a state of the queue. No push ever claims the last `u64`. -/
def act (s : Session) : Act → Prop
  | .turn a => s.toLedger.Below (.turn a) ∧ D.turn s.toLedger a
  | .commit _ o => D.outcome o
  | .flush _ o => D.outcome o
  | .retry seq o => D.outcome o ∧ D.retry s.toLedger seq o
  | _ => True

/-- The moves allowed in a state of the ledger. -/
def move (l : Ledger) : Move → Prop
  | .turn a => l.Below (.turn a) ∧ D.turn l a
  | .put seq _ o =>
    D.outcome o ∧ ∀ w, l.writes.get? seq = some w → w.stage = .tried → D.retry l seq o
  | _ => True

/-- The acts allowed are decidable if the parts of the discipline are. -/
@[reducible] def decideAct (hturn : ∀ l a, Decidable (D.turn l a))
    (houtcome : ∀ o, Decidable (D.outcome o)) (hretry : ∀ l t o, Decidable (D.retry l t o))
    (s : Session) : DecidablePred (D.act s)
  | .turn a => inferInstanceAs (Decidable (s.toLedger.Below (.turn a) ∧ D.turn s.toLedger a))
  | .commit _ o | .flush _ o => houtcome o
  | .retry seq o => inferInstanceAs (Decidable (D.outcome o ∧ D.retry s.toLedger seq o))
  | .enter _ | .record _ | .wake _ => isTrue trivial

variable {D}

theorem move_below {l : Ledger} {m : Move} (h : D.move l m) : l.Below m := by
  cases m with
  | turn a => exact h.1
  | put | returned | gaveUp => trivial

end Discipline

/-- A class of runs in which no more is allowed. -/
structure Discipline.Within (D D' : Discipline) : Prop where
  turn : ∀ l a, D.turn l a → D'.turn l a
  outcome : ∀ o, D.outcome o → D'.outcome o
  retry : ∀ l seq o, D.retry l seq o → D'.retry l seq o

namespace Discipline.Within

variable {D D' : Discipline}

theorem act (h : D.Within D') {s : Session} {a : Act} (ha : D.act s a) : D'.act s a := by
  cases a with
  | turn a => exact ⟨ha.1, h.turn _ _ ha.2⟩
  | commit | flush => exact h.outcome _ ha
  | retry => exact ⟨h.outcome _ ha.1, h.retry _ _ _ ha.2⟩
  | enter | record | wake => trivial

theorem move (h : D.Within D') {l : Ledger} {m : Move} (hm : D.move l m) : D'.move l m := by
  cases m with
  | turn a => exact ⟨hm.1, h.turn _ _ hm.2⟩
  | put => exact ⟨h.outcome _ hm.1, fun w hw htried => h.retry _ _ _ (hm.2 w hw htried)⟩
  | returned | gaveUp => trivial

/-- Its runs are runs of the other class. -/
theorem run (h : D.Within D') {s t : Session} {as : List Act}
    (hrun : Run Session.step D.act s as t) : Run Session.step D'.act s as t :=
  hrun.mono fun _ _ => h.act

end Discipline.Within

/-- All runs. -/
def anyRun : Discipline where
  turn _ _ := True
  outcome _ := True
  retry _ _ _ := True
  split _ _ := ⟨trivial, trivial⟩

theorem within_anyRun (D : Discipline) : D.Within anyRun :=
  ⟨fun _ _ _ => trivial, fun _ _ => trivial, fun _ _ _ _ => trivial⟩

instance (s : Session) : DecidablePred (anyRun.act s) :=
  anyRun.decideAct (fun _ _ => instDecidableTrue) (fun _ => instDecidableTrue)
    (fun _ _ _ => instDecidableTrue) s

@[simp] theorem Outcome.isOk_head (o : Outcome) : o.head.isOk = o.isOk := by cases o <;> rfl

@[simp] theorem Outcome.isOk_tail (o : Outcome) : o.tail.isOk = o.isOk := by cases o <;> rfl

/-! ## Every policy is a choice of moves -/

namespace Ledger

variable {l l' : Ledger} {D : Discipline} {seq : ℕ} {w : Write} {durable : Bool} {o : Outcome}

/-- A write that commits on its own: a commit, and the return. -/
theorem write_run (hw : l.writes.get? seq = some w) (hstage : w.stage = .fresh ∨ w.stage = .tried)
    (hdurable : durable = l.cfg.durability.durable) (ho : D.outcome o)
    (hretry : w.stage = .tried → D.retry l seq o) :
    ∃ ms, Run Ledger.step D.move l ms (l.write seq w durable o) := by
  have hput : l.step (.put seq durable o) = some (l.put seq w durable o) := by
    simp only [step, hw, if_pos (And.intro hstage hdurable)]
  have hallowed : D.move l (.put seq durable o) := by
    refine ⟨ho, fun w' hw' htried => ?_⟩
    obtain rfl := Option.some.inj (hw.symm.trans hw')
    exact hretry htried
  have hself : (l.put seq w durable o).writes.get? seq =
      some { w with stage := if o.isOk then .landed else .tried } :=
    SortedMap.get?_insert_self _ _ _
  rw [write]
  split
  · next hok =>
    have hreturn : D.move (l.put seq w durable o) (.returned seq) := trivial
    refine ⟨[.put seq durable o, .returned seq], .cons hallowed hput (.single hreturn ?_)⟩
    simp only [step, hself, hok, if_true]
    rfl
  · next hok =>
    have hgive : D.move (l.put seq w durable o) (.gaveUp seq) := trivial
    refine ⟨[.put seq durable o, .gaveUp seq], .cons hallowed hput (.single hgive ?_)⟩
    simp only [step, hself, hok, if_false, if_true, Bool.false_eq_true]
    rfl

/-- What the commit of a batch does to the writes: its members are marked. -/
theorem get?_putAll_writes {batch : List (ℕ × Bytes)} (t : ℕ) :
    ∀ {l : Ledger} {o : Outcome}, (l.putAll batch o).writes.get? t =
      (l.writes.get? t).map fun w =>
        if t ∈ batch.map Prod.fst then { w with stage := if o.isOk then .landed else .tried }
        else w := by
  induction batch with
  | nil => intro l o; simp [putAll]
  | cons e batch ih =>
    intro l o
    obtain ⟨seq, value⟩ := e
    rw [putAll]
    rcases hw : l.writes.get? seq with _ | w
    · rw [ih, Outcome.isOk_tail]
      by_cases ht : t = seq
      · rw [ht, hw]
        rfl
      · exact congrArg (Option.map · _) (funext fun w => if_congr (by simp [ht]) rfl rfl)
    · rw [ih, Outcome.isOk_tail]
      simp only [put, Outcome.isOk_head]
      rw [SortedMap.get?_insert]
      by_cases ht : t = seq
      · subst ht
        simp [hw]
      · rw [if_neg ht]
        exact congrArg (Option.map · _) (funext fun w => if_congr (by simp [ht]) rfl rfl)

theorem putAll_store {batch : List (ℕ × Bytes)} :
    ∀ {l : Ledger} {o : Outcome},
      (∀ t v, (t, v) ∈ batch → ∃ w, l.writes.get? t = some w ∧ w.value = v) →
      (l.putAll batch o).store = l.store.commit (batchOps batch) true o := by
  induction batch with
  | nil =>
    intro l o _
    cases o <;> simp [putAll, Store.commit, batchOps, List.select]
  | cons e batch ih =>
    intro l o hmember
    obtain ⟨seq, value⟩ := e
    obtain ⟨w, hw, hvalue⟩ := hmember seq value List.mem_cons_self
    rw [putAll]
    simp only [hw]
    rw [ih]
    · simp only [put, hvalue, batchOps, List.map_cons]
      rw [← Store.commit_cons]
    · intro t v ht
      obtain ⟨w', hw', hv⟩ := hmember t v (List.mem_cons_of_mem _ ht)
      simp only [put]
      rw [SortedMap.get?_insert]
      split
      · next heq =>
        obtain rfl := heq
        obtain rfl := Option.some.inj (hw.symm.trans hw')
        exact ⟨_, rfl, hv⟩
      · exact ⟨w', hw', hv⟩

/-- The commit of a batch of fresh writes is a run of commits of one entry each. -/
theorem putAll_run {batch : List (ℕ × Bytes)} :
    ∀ {l : Ledger} {o : Outcome}, l.cfg.durability.durable = true → (batch.map Prod.fst).Nodup →
      (∀ t ∈ batch.map Prod.fst, ∃ w, l.writes.get? t = some w ∧ w.stage = .fresh) →
      D.outcome o → ∃ ms, Run Ledger.step D.move l ms (l.putAll batch o) := by
  induction batch with
  | nil => intro l o _ _ _ _; exact ⟨[], .nil _⟩
  | cons e batch ih =>
    intro l o hdurable hnodup hfresh ho
    obtain ⟨seq, value⟩ := e
    obtain ⟨hnot, hnodup⟩ := List.nodup_cons.mp hnodup
    obtain ⟨w, hw, hstage⟩ := hfresh seq List.mem_cons_self
    have hput : l.step (.put seq true o.head) = some (l.put seq w true o.head) := by
      simp only [step, hw, hstage, hdurable, true_or, and_self, if_true]
    have hallowed : D.move l (.put seq true o.head) := by
      refine ⟨(D.split o ho).1, fun w' hw' htried => ?_⟩
      obtain rfl := Option.some.inj (hw.symm.trans hw')
      rw [hstage] at htried
      cases htried
    obtain ⟨ms, hrun⟩ := ih (l := l.put seq w true o.head) (o := o.tail) hdurable hnodup
      (fun t ht => by
        obtain ⟨w', hw', hstage'⟩ := hfresh t (List.mem_cons_of_mem _ ht)
        have hne : t ≠ seq := fun heq => hnot (heq ▸ ht)
        exact ⟨w', (SortedMap.get?_insert_ne _ _ hne).trans hw', hstage'⟩) (D.split o ho).2
    refine ⟨.put seq true o.head :: ms, .cons hallowed hput ?_⟩
    rw [putAll]
    simp only [hw]
    exact hrun

theorem cfg_putAll (batch : List (ℕ × Bytes)) (l : Ledger) (o : Outcome) :
    (l.putAll batch o).cfg = l.cfg := by
  induction batch generalizing l o with
  | nil => rfl
  | cons e batch ih =>
    rw [putAll]
    split <;> rw [ih]
    rfl

theorem cfg_write (w : Write) (durable : Bool) : (l.write seq w durable o).cfg = l.cfg := by
  rw [write]
  split <;> rfl

theorem flush_eq_putAll {batch : List (ℕ × Bytes)}
    (h : ∀ t v, (t, v) ∈ batch → ∃ w, l.writes.get? t = some w ∧ w.value = v) :
    l.flush batch o = l.putAll batch o := by
  rw [flush, ← putAll_store h]

/-- A turn moves no write that has not failed, as long as there is none at the tail. -/
theorem turn_writes (htail : l.writes.get? l.inner.tail = none) {a : Turn}
    (hm : Moved l (.turn a) l') {t : ℕ} {w : Write} (hw : l.writes.get? t = some w)
    (hstage : w.stage ≠ .failed) : l'.writes.get? t = some w := by
  cases hm with
  | claim =>
    refine (SortedMap.get?_insert_ne _ _ ?_).trans hw
    rintro rfl
    rw [htail] at hw
    cases hw
  | @giveBack seq w' hw' hstage' =>
    refine (SortedMap.get?_erase_ne _ ?_).trans hw
    rintro rfl
    obtain rfl := Option.some.inj (hw.symm.trans hw')
    exact hstage hstage'
  | call | turnedAway | waits | close | reserve | ended | found | skipped | handedOut | remove
  | record | release => exact hw

/-- Every claimed seq is below the tail. -/
theorem Wf.tail_free (h : l.Wf) : l.writes.get? l.inner.tail = none := by
  rcases hw : l.writes.get? l.inner.tail with _ | w
  · rfl
  · exact absurd (h.write_lt _ w hw) (lt_irrefl _)

end Ledger

/-- What the group commit has to do with the writes of the ledger. -/
structure Linked (s : Session) : Prop where
  inv : s.group.Inv
  call_write : ∀ t c, s.group.calls.get? t = some c →
    ∃ w, s.writes.get? t = some w ∧ w.value = c.value ∧ w.stage = .ofPhase c.phase
  policy : s.cfg.durability.isGroup = false → ∀ t, s.group.calls.get? t = none

/-- The calls in the group commit are writes of the ledger, as far along as their phase
says, and there are none under the other policies. -/
structure Coupled (s : Session) : Prop where
  wf : s.toLedger.Wf
  inv : s.group.Inv
  call_write : ∀ t c, s.group.calls.get? t = some c →
    ∃ w, s.writes.get? t = some w ∧ w.value = c.value ∧ w.stage = .ofPhase c.phase
  policy : s.cfg.durability.isGroup = false → ∀ t, s.group.calls.get? t = none

namespace Linked

variable {s t : Session} {D : Discipline} {a : Act} {seq : ℕ} {w : Write} {c : GroupCall}

theorem ofPhase_ne_failed (phase : Phase) : Stage.ofPhase phase ≠ .failed := by
  cases phase <;> simp [Stage.ofPhase]

/-- A write that left the group, with its call. -/
theorem erase_write (h : Linked s) {ws : SortedMap ℕ Write} {calls : SortedMap ℕ GroupCall}
    (hws : ∀ t, t ≠ seq → ws.get? t = s.writes.get? t)
    (hcalls : ∀ t, t ≠ seq → calls.get? t = s.group.calls.get? t) (hself : calls.get? seq = none) :
    ∀ t c, calls.get? t = some c →
      ∃ w, ws.get? t = some w ∧ w.value = c.value ∧ w.stage = .ofPhase c.phase := by
  intro t c hc
  have hne : t ≠ seq := by
    rintro rfl
    rw [hself] at hc
    cases hc
  rw [hcalls t hne] at hc
  rw [hws t hne]
  exact h.call_write t c hc

/-- A section that keeps the group's invariant and tells its caller the truth. -/
theorem settle (h : Linked s) (hw : s.writes.get? seq = some w)
    {res : Group × GroupRet} (hvalue : w.value = c.value) (hphase : w.stage = .ofPhase c.phase)
    (hgroup : s.cfg.durability.isGroup = true)
    (hsec : Group.Section s.group.calls seq c res) (hinv : res.1.Inv)
    (htrue : Group.Truthful c res.2) :
    Linked (s.settle seq w res) ∧
      ∃ ms, Run Ledger.step D.move s.toLedger ms (s.settle seq w res).toLedger := by
  rw [Session.settle]
  split
  · next hret =>
    have hland : w.stage = .landed := by
      rcases htrue with htrue | ⟨ok, htrue, hc⟩
      · rw [htrue] at hret
        cases hret
      · obtain rfl := Option.some.inj (GroupRet.took.inj (htrue.symm.trans hret))
        rw [hphase, hc]
        rfl
    have hstep : s.toLedger.step (.returned seq) = some (s.toLedger.returned seq w) := by
      simp only [Ledger.step, hw, if_pos hland]
    have hallowed : D.move s.toLedger (.returned seq) := trivial
    refine ⟨⟨hinv, ?_, fun hg => ?_⟩, [.returned seq], .single hallowed hstep⟩
    · exact h.erase_write (fun t ht => SortedMap.get?_erase_ne _ ht) hsec.frame (hsec.leaves hret)
    · rw [show (s.toLedger.returned seq w).cfg = s.cfg from rfl, hgroup] at hg
      cases hg
  · next hret =>
    obtain ⟨pc, hself⟩ := hsec.stays hret
    refine ⟨⟨hinv, fun t c' hc' => ?_, fun hg => ?_⟩, [], .nil _⟩
    · by_cases ht : t = seq
      · subst ht
        obtain rfl := Option.some.inj (hself.symm.trans hc')
        exact ⟨w, hw, hvalue, hphase⟩
      · exact h.call_write t c' ((hsec.frame t ht).symm.trans hc')
    · rw [hgroup] at hg
      cases hg

/-- A call in the group commit says that the policy is `Group`. -/
theorem isGroup (h : Linked s) (hc : s.group.calls.get? seq = some c) :
    s.cfg.durability.isGroup = true := by
  by_contra hg
  rw [h.policy (Bool.not_eq_true _ ▸ hg) seq] at hc
  cases hc

/-- A turn leaves the writes of the group. -/
theorem turn (h : Linked s) (htail : s.writes.get? s.inner.tail = none) {b : Turn} {l : Ledger}
    (hm : Ledger.Moved s.toLedger (.turn b) l) : Linked { s with toLedger := l } := by
  refine ⟨h.inv, fun t c hc => ?_, fun hg => ?_⟩
  · obtain ⟨w, hw, hvalue, hphase⟩ := h.call_write t c hc
    exact ⟨w, Ledger.turn_writes htail hm hw (hphase ▸ ofPhase_ne_failed _), hvalue, hphase⟩
  · exact h.policy ((congrArg (·.durability.isGroup) (Ledger.cfg_moved hm)).symm.trans hg)

/-- The commit of a push that is in no group. -/
theorem commit (h : Linked s) (hw : s.writes.get? seq = some w)
    (hgroup : s.cfg.durability.isGroup = false) (hstage : w.stage = .fresh) {o : Outcome}
    (ho : D.outcome o) :
    Linked { s with toLedger := s.toLedger.write seq w s.cfg.durability.durable o } ∧
      ∃ ms, Run Ledger.step D.move s.toLedger ms
        (s.toLedger.write seq w s.cfg.durability.durable o) := by
  have hnone := h.policy hgroup
  refine ⟨⟨h.inv, fun t c hc => ?_, fun _ => hnone⟩, ?_⟩
  · rw [hnone] at hc
    cases hc
  · refine Ledger.write_run hw (Or.inl hstage) rfl ho fun htried => ?_
    rw [hstage] at htried
    cases htried

/-- The commit of the leader's batch. -/
theorem flush (h : Linked s) (hc : s.group.calls.get? seq = some c) {batch : List (ℕ × Bytes)}
    (hpc : c.pc = .flushing batch) {o : Outcome} (ho : D.outcome o) :
    Linked { toLedger := s.toLedger.flush batch o, group := s.group.flush seq batch o.isOk } ∧
      ∃ ms, Run Ledger.step D.move s.toLedger ms (s.toLedger.flush batch o) := by
  have hplaces := (h.inv.led (r := none) hc hpc).places
  have hmember : ∀ t v, (t, v) ∈ batch →
      ∃ w, s.writes.get? t = some w ∧ w.value = v ∧ w.stage = .fresh := by
    intro t v ht
    obtain ⟨c₀, hc₀, hv, -, hphase⟩ := hplaces.batch_call t v ht
    obtain ⟨w, hw, hvalue, hstage⟩ := h.call_write t c₀ hc₀
    exact ⟨w, hw, hvalue.trans hv, by rw [hstage, hphase]; rfl⟩
  have hflush : s.toLedger.flush batch o = s.toLedger.putAll batch o :=
    Ledger.flush_eq_putAll fun t v ht => (hmember t v ht).imp fun w hw => ⟨hw.1, hw.2.1⟩
  rw [hflush]
  refine ⟨⟨h.inv.flush hc hpc o.isOk, fun t c' hct => ?_, fun hg => ?_⟩, ?_⟩
  · simp only [Ledger.get?_putAll_writes]
    rw [Group.get?_flush] at hct
    obtain ⟨c₀, hc₀, rfl⟩ := Option.map_eq_some_iff.mp hct
    obtain ⟨w, hw, hvalue, hstage⟩ := h.call_write t c₀ hc₀
    refine ⟨_, congrArg (Option.map _) hw, ?_⟩
    simp only
    split
    · refine ⟨hvalue, ?_⟩
      cases o.isOk <;> rfl
    · exact ⟨hvalue, hstage⟩
  · simp only [Ledger.cfg_putAll] at hg
    rw [h.isGroup hc] at hg
    cases hg
  · refine Ledger.putAll_run (Durability.durable_of_isGroup (h.isGroup hc)) hplaces.batch_nodup
      (fun t ht => ?_) ho
    obtain ⟨⟨t, v⟩, hmem, rfl⟩ := List.mem_map.mp ht
    obtain ⟨w, hw, -, hstage⟩ := hmember t v hmem
    exact ⟨w, hw, hstage⟩

/-- The commit of a push whose batch failed. -/
theorem retry (h : Linked s) (hc : s.group.calls.get? seq = some c) (hpc : c.pc = .retry)
    (hw : s.writes.get? seq = some w) {o : Outcome} (hok : D.act s (.retry seq o)) :
    Linked { toLedger := s.toLedger.write seq w true o, group := s.group.retried seq } ∧
      ∃ ms, Run Ledger.step D.move s.toLedger ms (s.toLedger.write seq w true o) := by
  have htried : w.stage = .tried := by
    obtain ⟨w', hw', -, hphase⟩ := h.call_write seq c hc
    obtain rfl := Option.some.inj (hw.symm.trans hw')
    obtain ⟨batch, r, hplaces⟩ := h.inv.places
    rw [hphase, hplaces.retry_tried seq c hc hpc]
    rfl
  refine ⟨⟨h.inv.retried hc hpc, ?_, fun hg => ?_⟩, ?_⟩
  · refine h.erase_write (fun t (ht : t ≠ seq) => ?_)
      (fun t ht => SortedMap.get?_erase_ne _ ht) (SortedMap.get?_erase_self _ _)
    simp only [Ledger.write]
    split
    · exact (SortedMap.get?_erase_ne _ ht).trans (SortedMap.get?_insert_ne _ _ ht)
    · exact (SortedMap.get?_insert_ne _ _ ht).trans (SortedMap.get?_insert_ne _ _ ht)
  · simp only [Ledger.cfg_write] at hg
    rw [h.isGroup hc] at hg
    cases hg
  · exact Ledger.write_run hw (Or.inr htried) (Durability.durable_of_isGroup (h.isGroup hc)).symm
      hok.1 fun _ => hok.2

/-- Every act is a run of moves of the ledger. -/
theorem step (h : Linked s) (htail : s.writes.get? s.inner.tail = none) (hok : D.act s a)
    (hstep : s.step a = some t) :
    Linked t ∧ ∃ ms, Run Ledger.step D.move s.toLedger ms t.toLedger := by
  cases a with
  | turn a =>
    obtain ⟨l, hl, rfl⟩ := Option.map_eq_some_iff.mp hstep
    have hallowed : D.move s.toLedger (.turn a) := hok
    exact ⟨h.turn htail (Ledger.moved_of_step hl), [.turn a], .single hallowed hl⟩
  | commit seq o =>
    simp only [Session.step] at hstep
    split at hstep
    · next w hw =>
      split at hstep
      · next hcond =>
        obtain rfl := Option.some.inj hstep
        exact h.commit hw hcond.1 hcond.2 hok
      · cases hstep
    · cases hstep
  | enter seq =>
    simp only [Session.step] at hstep
    split at hstep
    · next w hw hnone =>
      split at hstep
      · next hcond =>
        obtain rfl := Option.some.inj hstep
        obtain ⟨hinv, hret⟩ := h.inv.enter hnone w.value
        exact h.settle hw (c := { value := w.value, pc := .waiting, phase := .fresh }) rfl
          hcond.2 hcond.1 (Group.section_enter s.group seq w.value) hinv (Or.inl hret)
      · cases hstep
    · cases hstep
  | flush seq o =>
    simp only [Session.step] at hstep
    split at hstep
    · next hc =>
      obtain rfl := Option.some.inj hstep
      exact h.flush hc rfl hok
    · cases hstep
  | record seq =>
    simp only [Session.step] at hstep
    split at hstep
    · next w value batch ok phase hw hc =>
      obtain rfl := Option.some.inj hstep
      obtain ⟨w', hw', hvalue, hphase⟩ := h.call_write seq _ hc
      obtain rfl := Option.some.inj (hw.symm.trans hw')
      obtain ⟨hinv, htrue⟩ := h.inv.record hc rfl
      exact h.settle hw hvalue hphase (h.isGroup hc) (Group.section_record _ _ _ _ _) hinv htrue
    · cases hstep
  | wake seq =>
    simp only [Session.step] at hstep
    split at hstep
    · next w value phase hw hc =>
      obtain rfl := Option.some.inj hstep
      obtain ⟨w', hw', hvalue, hphase⟩ := h.call_write seq _ hc
      obtain rfl := Option.some.inj (hw.symm.trans hw')
      obtain ⟨hinv, htrue⟩ := h.inv.wake hc rfl
      exact h.settle hw hvalue hphase (h.isGroup hc) (Group.section_wake hc) hinv htrue
    · cases hstep
  | retry seq o =>
    simp only [Session.step] at hstep
    split at hstep
    · next hw hc =>
      obtain rfl := Option.some.inj hstep
      exact h.retry hc rfl hw hok
    · cases hstep

/-- What keeps the tail free of writes and is kept by every allowed move holds at the end of a
run of the queue. -/
theorem invariant {I : Ledger → Prop} (h : Linked s) {as : List Act}
    (hrun : Run Session.step D.act s as t) (hs : I s.toLedger)
    (htail : ∀ l, I l → l.writes.get? l.inner.tail = none)
    (hmove : ∀ l m l', I l → D.move l m → Ledger.Moved l m l' → I l') :
    I t.toLedger ∧ Linked t := by
  refine hrun.invariant (I := fun s => I s.toLedger ∧ Linked s) (fun s a t hboth hok hstep => ?_)
    ⟨hs, h⟩
  obtain ⟨hs, h⟩ := hboth
  obtain ⟨hnext, ms, hms⟩ := h.step (htail _ hs) hok hstep
  refine ⟨?_, hnext⟩
  exact hms.invariant (fun l m l' hl hm hl' => hmove l m l' hl hm (Ledger.moved_of_step hl')) hs

end Linked

namespace Coupled

variable {s t : Session} {D : Discipline} {a : Act}

theorem linked (h : Coupled s) : Linked s := { h with }

/-- Every act is a run of moves of the ledger. -/
theorem step (h : Coupled s) (hok : D.act s a) (hstep : s.step a = some t) :
    Coupled t ∧ ∃ ms, Run Ledger.step D.move s.toLedger ms t.toLedger := by
  obtain ⟨hnext, ms, hrun⟩ := h.linked.step h.wf.tail_free hok hstep
  have hwf : t.toLedger.Wf :=
    hrun.invariant (fun l m l' hwf hm => hwf.step (Discipline.move_below hm)) h.wf
  exact ⟨{ hnext with wf := hwf }, ms, hrun⟩

/-- **The policies refine the ledger.** A run of the queue is a run of the ledger. -/
theorem run (h : Coupled s) {as : List Act} (hrun : Run Session.step D.act s as t) :
    Coupled t ∧ ∃ ms, Run Ledger.step D.move s.toLedger ms t.toLedger := by
  induction hrun with
  | nil => exact ⟨h, [], .nil _⟩
  | cons hok hstep _ ih =>
    obtain ⟨hnext, ms, hms⟩ := h.step hok hstep
    obtain ⟨hlast, ms', hms'⟩ := ih hnext
    exact ⟨hlast, ms ++ ms', hms.append hms'⟩

/-- What holds of the ledger and is kept by every allowed move holds at the end of a run. -/
theorem invariant {I : Ledger → Prop} (h : Coupled s) {as : List Act}
    (hrun : Run Session.step D.act s as t) (hs : I s.toLedger)
    (hmove : ∀ l m l', l.Wf → I l → D.move l m → Ledger.Moved l m l' → I l') :
    I t.toLedger ∧ Coupled t := by
  obtain ⟨hcoupled, ms, hms⟩ := h.run hrun
  have hboth : t.toLedger.Wf ∧ I t.toLedger := by
    refine hms.invariant (I := fun l => l.Wf ∧ I l) (fun l m l' hl hm hstep => ?_) ⟨h.wf, hs⟩
    have hmoved := Ledger.moved_of_step hstep
    exact ⟨hl.1.moved (Discipline.move_below hm) hmoved, hmove l m l' hl.1 hl.2 hm hmoved⟩
  exact ⟨hboth.2, hcoupled⟩

end Coupled

/-! ## Opening -/

/-- The queue was just opened over a store. Every stored key that starts with the entry
prefix is a whole entry key and its seq is not the last `u64`, and the number of entries is a
`usize`, which says something only where that is narrower than a seq. -/
structure Opens (b : Builder) (st : Store) (s : Session) : Prop where
  keyed : WellKeyed st.live
  bound : ∀ t v, (items st.live).get? t = some v → t < u64Max
  fits : b.usizeBits < 64 → (items st.live).size < 2 ^ b.usizeBits
  opens : ∃ fault fuel st' inner log, b.open st fault fuel = some (st', .ok inner) ∧
    s = Session.opened b st' inner log

/-- An open ledger over the items `m`, as recovered. -/
structure FreshLedger (b : Builder) (l : Ledger) : Prop where
  keyed : WellKeyed l.store.live
  bound : ∀ t v, l.items.get? t = some v → t < u64Max
  fits : l.items.size < 2 ^ b.usizeBits
  recovered : Recovered b l.items l.inner
  opened : l = Ledger.opened b l.store l.inner l.log.tail

theorem FreshLedger.cfg_eq {b : Builder} {l : Ledger} (h : FreshLedger b l) : l.cfg = b := by
  rw [h.opened]
  rfl

/-- The open is the last event. -/
theorem FreshLedger.log_eq {b : Builder} {l : Ledger} (h : FreshLedger b l) :
    l.log = .opened :: l.log.tail := by
  rw [h.opened]
  rfl

/-- Nothing has happened yet. -/
theorem FreshLedger.thisSession_log {b : Builder} {l : Ledger} (h : FreshLedger b l) :
    thisSession l.log = [] := by
  rw [h.opened]
  rfl

theorem FreshLedger.not_deleted {b : Builder} {l : Ledger} (h : FreshLedger b l) (t : ℕ) :
    ¬Deleted l.log t := by
  rintro ⟨value, old, hmem⟩
  rw [h.thisSession_log] at hmem
  cases hmem

namespace Opens

variable {b : Builder} {st : Store} {s₀ s : Session} {D : Discipline} {as : List Act}

theorem fresh (h : Opens b st s₀) : FreshLedger b s₀.toLedger ∧ s₀.group = Group.init := by
  obtain ⟨fault, fuel, st', inner, log, hopen, rfl⟩ := h.opens
  obtain ⟨hitems, hkeyed⟩ := open_items hopen
  have hfits := size_fits h.bound h.fits
  refine ⟨⟨hkeyed h.keyed, fun t v ht => h.bound t v (hitems ▸ ht), ?_,
    open_recovered h.keyed h.bound hfits hopen, rfl⟩, rfl⟩
  rw [← hitems] at hfits
  exact hfits

theorem coupled (h : Opens b st s₀) : Coupled s₀ := by
  obtain ⟨hfresh, hgroup⟩ := h.fresh
  refine ⟨?_, hgroup ▸ Group.inv_init, fun t c hc => ?_, fun _ t => ?_⟩
  · rw [hfresh.opened]
    exact Ledger.wf_opened hfresh.keyed hfresh.bound hfresh.recovered
  · rw [hgroup] at hc
    cases hc
  · rw [hgroup]
    rfl

/-- **The invariant rule.** What holds of every queue just opened and is kept by every
allowed move of the ledger holds in every state of every run of the queue. -/
theorem invariant {I : Ledger → Prop} (h : Opens b st s₀)
    (hrun : Run Session.step D.act s₀ as s) (hinit : ∀ l, FreshLedger b l → I l)
    (hmove : ∀ l m l', l.Wf → I l → D.move l m → Ledger.Moved l m l' → I l') :
    I s.toLedger ∧ Coupled s :=
  h.coupled.invariant hrun (hinit _ h.fresh.1) hmove

end Opens

/-- The state of a queue opened over an empty store. -/
def Inner.empty : Inner :=
  { tail := 0, head := 0, ackedAbove := ∅, len := 0, bytes := 0, reserved := ∅, closed := false }

/-- A queue opened over an empty store. -/
def Session.fresh (b : Builder) : Session :=
  Session.opened b
    (Store.empty.commit [Op.put metaKey [formatVersion]] b.durability.durable .ok) Inner.empty []

theorem opens_fresh (b : Builder) : Opens b Store.empty (Session.fresh b) where
  keyed := fun _ _ h => by cases h
  bound := fun _ _ h => by cases h
  fits := fun _ => Nat.two_pow_pos _
  opens := ⟨none, 1, _, Inner.empty, [], rfl, rfl⟩

end PersistentQueue
