import PersistentQueue.Lib.History
import PersistentQueue.Lib.Run
import PersistentQueue.GroupCommit

/-!
# The group commit over a store

Any number of `group_commit` calls, the store they commit to, and the history of what
happened. An action is one section under the group lock, or one commit outside it; the
environment picks whose turn it is and what each commit comes to.

`group_commit_sound` is the result: in every state of every run in which the seqs are
distinct and failing commits apply nothing, nobody is stranded (`Sound.leader_unique` to
`Sound.never_missing`) and every caller was told the truth (`Sound.ok_true`,
`Sound.err_true`, `Sound.stored`).
-/

namespace PersistentQueue

/-- What happened, as far as callers and the store can tell. -/
inductive GroupEvent : Type where
  /-- a call with this seq and value began -/
  | entered (seq : ℕ) (value : Bytes)
  /-- a commit of these ops returned -/
  | committed (ops : List Op) (durable ok : Bool)
  /-- a caller removed this outcome of its batch from `done` -/
  | took (seq : ℕ) (outcome : Option Bool)
  /-- a call returned -/
  | returned (seq : ℕ) (ok : Bool)
  deriving DecidableEq

/-- The seq of a call that began. -/
def GroupEvent.newSeq : GroupEvent → Option ℕ
  | .entered seq _ => some seq
  | _ => none

/-- The turn of one caller. -/
inductive GroupAct : Type where
  /-- a new call enqueues its entry -/
  | enter (seq : ℕ) (value : Bytes)
  /-- the commit of the leader's batch -/
  | flush (seq : ℕ) (o : Outcome)
  /-- the leader records the outcome -/
  | record (seq : ℕ)
  /-- a waiting caller is woken, or wakes up for no reason -/
  | wake (seq : ℕ)
  /-- the commit of a caller whose batch failed -/
  | retry (seq : ℕ) (o : Outcome)

/-- The events of a section's end: an outcome taken, and the return if it was `Some(true)`. -/
def GroupRet.events (seq : ℕ) : GroupRet → List GroupEvent
  | .parked => []
  | .took outcome =>
    if outcome = some true then [.returned seq true, .took seq outcome] else [.took seq outcome]

/-- The store, the calls on it, and the history, newest first. -/
structure GroupSystem where
  /-- the store -/
  store : Store
  /-- the group lock's state and the calls in progress -/
  group : Group
  /-- the history -/
  log : List GroupEvent

namespace GroupSystem

/-- No call has begun. -/
def init (st : Store) : GroupSystem := { store := st, group := Group.init, log := [] }

/-- One turn. -/
def step (t : GroupSystem) : GroupAct → Option GroupSystem
  | .enter seq value =>
    match t.group.calls.get? seq with
    | some _ => none
    | none =>
      let (g, ret) := t.group.enter seq value
      some { t with group := g, log := ret.events seq ++ .entered seq value :: t.log }
  | .flush seq o =>
    match t.group.calls.get? seq with
    | some ⟨_, .flushing batch, _⟩ =>
      some { store := t.store.commit (batchOps batch) true o
             group := t.group.flush seq batch o.isOk
             log := .committed (batchOps batch) true o.isOk :: t.log }
    | _ => none
  | .record seq =>
    match t.group.calls.get? seq with
    | some ⟨value, .flushed batch ok, phase⟩ =>
      let (g, ret) := t.group.record seq ⟨value, .flushed batch ok, phase⟩ batch ok
      some { t with group := g, log := ret.events seq ++ t.log }
    | _ => none
  | .wake seq =>
    match t.group.calls.get? seq with
    | some ⟨value, .waiting, phase⟩ =>
      let (g, ret) := t.group.wake seq ⟨value, .waiting, phase⟩
      some { t with group := g, log := ret.events seq ++ t.log }
    | _ => none
  | .retry seq o =>
    match t.group.calls.get? seq with
    | some ⟨value, .retry, _⟩ =>
      some { store := t.store.commit [.put (entryKey seq) value] true o
             group := t.group.retried seq
             log := .returned seq o.isOk ::
               .committed [.put (entryKey seq) value] true o.isOk :: t.log }
    | _ => none

/-- The runs meant: every call has a seq of its own, and a commit that fails applies
nothing. -/
def Allowed (t : GroupSystem) : GroupAct → Prop
  | .enter seq _ => seq < u64Size ∧ seq ∉ t.log.filterMap GroupEvent.newSeq
  | .flush _ o => o.Clean
  | .retry _ o => o.Clean
  | _ => True

instance (t : GroupSystem) : DecidablePred (Allowed t)
  | .enter seq _ =>
    inferInstanceAs (Decidable (seq < u64Size ∧ seq ∉ t.log.filterMap GroupEvent.newSeq))
  | .flush _ o => inferInstanceAs (Decidable o.Clean)
  | .retry _ o => inferInstanceAs (Decidable o.Clean)
  | .record _ | .wake _ => isTrue trivial

/-! ## What is promised -/

/-- A durable commit with the caller's own `Put` returned `ok` after the call began. -/
def HeldBy (log : List GroupEvent) (seq : ℕ) (value : Bytes) (ok : Bool) : Prop :=
  ∃ ops post pre, log = post ++ .committed ops true ok :: pre ∧
    Op.put (entryKey seq) value ∈ ops ∧ .entered seq value ∈ pre

/-- What must lie before an event: nobody finds its outcome missing, a call that returns `Ok`
was held by a successful commit, and one that returns `Err` was held by a failed batch and
then failed its own retry. -/
def Truth : GroupEvent → List GroupEvent → Prop
  | .took _ outcome, _ => outcome ≠ none
  | .returned seq true, log => ∃ value, HeldBy log seq value true
  | .returned seq false, log => ∃ value pre,
      log = .committed [.put (entryKey seq) value] true false :: pre ∧ HeldBy pre seq value false
  | _, _ => True

/-- The `Put` of the seq has taken effect: its call returned `Ok`, or it is still on its way
with a commit that did. -/
def Landed (t : GroupSystem) (seq : ℕ) : Prop :=
  .returned seq true ∈ t.log ∨ ∃ c, t.group.calls.get? seq = some c ∧ c.phase = .landed

/-- The invariant: the calls on the books are the ones that began and did not return, their
histories are what their phases say, and the store holds what landed. -/
structure Inv (m₀ : SortedMap ℕ Bytes) (t : GroupSystem) : Prop where
  group : t.group.Inv
  seq_lt : ∀ s v, .entered s v ∈ t.log → s < u64Size
  value_eq : ∀ s v w, .entered s v ∈ t.log → .entered s w ∈ t.log → v = w
  call_open : ∀ s c, t.group.calls.get? s = some c →
    .entered s c.value ∈ t.log ∧ ∀ ok, .returned s ok ∉ t.log
  entered_open : ∀ s v, .entered s v ∈ t.log →
    (∃ c, t.group.calls.get? s = some c) ∨ ∃ ok, .returned s ok ∈ t.log
  returned_entered : ∀ s ok, .returned s ok ∈ t.log → ∃ v, .entered s v ∈ t.log
  tried : ∀ s c, t.group.calls.get? s = some c → c.phase = .tried → HeldBy t.log s c.value false
  landed : ∀ s c, t.group.calls.get? s = some c → c.phase = .landed → HeldBy t.log s c.value true
  truth : Justified Truth t.log
  stored_landed : ∀ s v, t.Landed s → .entered s v ∈ t.log → (items t.store.live).get? s = some v
  stored_other : ∀ s, ¬t.Landed s → (items t.store.live).get? s = m₀.get? s

variable {t t' : GroupSystem} {m₀ : SortedMap ℕ Bytes} {seq : ℕ} {value : Bytes} {c : GroupCall}

theorem HeldBy.append {log post : List GroupEvent} {ok : Bool} (h : HeldBy log seq value ok) :
    HeldBy (post ++ log) seq value ok := by
  obtain ⟨ops, post', pre, rfl, hmem, hent⟩ := h
  exact ⟨ops, post ++ post', pre, by rw [List.append_assoc], hmem, hent⟩

theorem HeldBy.cons {log : List GroupEvent} {e : GroupEvent} {ok : Bool}
    (h : HeldBy log seq value ok) : HeldBy (e :: log) seq value ok := by
  have happend : HeldBy ([e] ++ log) seq value ok := h.append
  exact happend

theorem inv_init (st : Store) : Inv (items st.live) (init st) where
  group := Group.inv_init
  seq_lt := fun _ _ h => by cases h
  value_eq := fun _ _ _ h => by cases h
  call_open := fun _ _ h => by cases h
  entered_open := fun _ _ h => by cases h
  returned_entered := fun _ _ h => by cases h
  tried := fun _ _ h => by cases h
  landed := fun _ _ h => by cases h
  truth := Justified.nil
  stored_landed := fun _ _ _ h => by cases h
  stored_other := fun _ _ => rfl

/-! ## One seq at a time -/

/-- What the invariant says of one seq. -/
structure Book (m₀ : SortedMap ℕ Bytes) (t : GroupSystem) (s : ℕ) : Prop where
  seq_lt : ∀ v, .entered s v ∈ t.log → s < u64Size
  value_eq : ∀ v w, .entered s v ∈ t.log → .entered s w ∈ t.log → v = w
  call_open : ∀ c, t.group.calls.get? s = some c →
    .entered s c.value ∈ t.log ∧ ∀ ok, .returned s ok ∉ t.log
  entered_open : ∀ v, .entered s v ∈ t.log →
    (∃ c, t.group.calls.get? s = some c) ∨ ∃ ok, .returned s ok ∈ t.log
  returned_entered : ∀ ok, .returned s ok ∈ t.log → ∃ v, .entered s v ∈ t.log
  tried : ∀ c, t.group.calls.get? s = some c → c.phase = .tried → HeldBy t.log s c.value false
  landed : ∀ c, t.group.calls.get? s = some c → c.phase = .landed → HeldBy t.log s c.value true
  stored_landed : ∀ v, t.Landed s → .entered s v ∈ t.log → (items t.store.live).get? s = some v
  stored_other : ¬t.Landed s → (items t.store.live).get? s = m₀.get? s

theorem Inv.book (h : Inv m₀ t) (s : ℕ) : Book m₀ t s :=
  ⟨h.seq_lt s, h.value_eq s, h.call_open s, h.entered_open s, h.returned_entered s, h.tried s,
    h.landed s, h.stored_landed s, h.stored_other s⟩

theorem Inv.of_books (hgroup : t.group.Inv) (htruth : Justified Truth t.log)
    (h : ∀ s, Book m₀ t s) : Inv m₀ t :=
  ⟨hgroup, fun s => (h s).seq_lt, fun s => (h s).value_eq, fun s => (h s).call_open,
    fun s => (h s).entered_open, fun s => (h s).returned_entered, fun s => (h s).tried,
    fun s => (h s).landed, htruth, fun s => (h s).stored_landed, fun s => (h s).stored_other⟩

/-- What a call carries besides the place where it stands. -/
def carried (c : GroupCall) : Bytes × Phase := (c.value, c.phase)

/-- A turn that is not about the seq leaves its book: no event of its call is added, and its call
keeps its bytes and its phase. -/
theorem Book.frame {s : ℕ} (h : Book m₀ t s) (post : List GroupEvent)
    (hlog : t'.log = post ++ t.log)
    (hent : ∀ v, .entered s v ∉ post) (hret : ∀ ok, .returned s ok ∉ post)
    (hcall : (t'.group.calls.get? s).map carried = (t.group.calls.get? s).map carried)
    (hitem : (items t'.store.live).get? s = (items t.store.live).get? s) : Book m₀ t' s := by
  have hent' : ∀ v, .entered s v ∈ t'.log ↔ .entered s v ∈ t.log := fun v => by
    rw [hlog, List.mem_append, or_iff_right (hent v)]
  have hret' : ∀ ok, .returned s ok ∈ t'.log ↔ .returned s ok ∈ t.log := fun ok => by
    rw [hlog, List.mem_append, or_iff_right (hret ok)]
  have hback : ∀ c', t'.group.calls.get? s = some c' →
      ∃ c, t.group.calls.get? s = some c ∧ c.value = c'.value ∧ c.phase = c'.phase := by
    intro c' hs
    rw [hs] at hcall
    obtain ⟨c, hc, heq⟩ := Option.map_eq_some_iff.mp hcall.symm
    exact ⟨c, hc, Prod.mk.inj heq⟩
  have hforth : ∀ c, t.group.calls.get? s = some c →
      ∃ c', t'.group.calls.get? s = some c' ∧ c'.phase = c.phase := by
    intro c hs
    rw [hs] at hcall
    obtain ⟨c', hc', heq⟩ := Option.map_eq_some_iff.mp hcall
    exact ⟨c', hc', (Prod.mk.inj heq).2⟩
  have hlanded : t'.Landed s ↔ t.Landed s := by
    refine or_congr (hret' true) ⟨?_, ?_⟩
    · rintro ⟨c', hs, hp⟩
      obtain ⟨c, hc, -, hphase⟩ := hback c' hs
      exact ⟨c, hc, hphase.trans hp⟩
    · rintro ⟨c, hs, hp⟩
      obtain ⟨c', hc', hphase⟩ := hforth c hs
      exact ⟨c', hc', hphase.trans hp⟩
  refine
    { seq_lt := fun v hv => h.seq_lt v ((hent' v).mp hv)
      value_eq := fun v w hv hw => h.value_eq v w ((hent' v).mp hv) ((hent' w).mp hw)
      call_open := fun c' hs => ?_, entered_open := fun v hv => ?_
      returned_entered := fun ok hr => ?_, tried := fun c' hs hp => ?_
      landed := fun c' hs hp => ?_
      stored_landed := fun v hs hv =>
        hitem.trans (h.stored_landed v (hlanded.mp hs) ((hent' v).mp hv))
      stored_other := fun hs => hitem.trans (h.stored_other (mt hlanded.mpr hs)) }
  · obtain ⟨c, hc, hv, -⟩ := hback c' hs
    obtain ⟨he, hn⟩ := h.call_open c hc
    exact ⟨(hent' _).mpr (hv ▸ he), fun ok hr => hn ok ((hret' ok).mp hr)⟩
  · rcases h.entered_open v ((hent' v).mp hv) with ⟨c, hc⟩ | ⟨ok, hr⟩
    · obtain ⟨c', hc', -⟩ := hforth c hc
      exact Or.inl ⟨c', hc'⟩
    · exact Or.inr ⟨ok, (hret' ok).mpr hr⟩
  · obtain ⟨v, hv⟩ := h.returned_entered ok ((hret' ok).mp hr)
    exact ⟨v, (hent' v).mpr hv⟩
  · obtain ⟨c, hc, hv, hphase⟩ := hback c' hs
    rw [hlog, ← hv]
    exact (h.tried c hc (hphase.trans hp)).append
  · obtain ⟨c, hc, hv, hphase⟩ := hback c' hs
    rw [hlog, ← hv]
    exact (h.landed c hc (hphase.trans hp)).append

/-- The book of a seq whose call returned. -/
theorem Book.of_returned {s : ℕ} (h : Book m₀ t s) (post : List GroupEvent) {ok : Bool}
    (hlog : t'.log = .returned s ok :: post ++ t.log)
    (hent : ∀ v, .entered s v ∉ post) (hret : ∀ ok, .returned s ok ∉ post)
    (hc : t.group.calls.get? s = some c) (hnone : t'.group.calls.get? s = none)
    (hitem : (items t'.store.live).get? s = if ok = true then some c.value else m₀.get? s) :
    Book m₀ t' s := by
  obtain ⟨he, hn⟩ := h.call_open c hc
  have hent' : ∀ v, .entered s v ∈ t'.log ↔ .entered s v ∈ t.log := fun v => by
    simp [hlog, hent v]
  have hret' : ∀ ok', .returned s ok' ∈ t'.log ↔ ok' = ok := fun ok' => by
    simp [hlog, hret ok', hn ok']
  have hlanded : t'.Landed s ↔ ok = true := by
    rw [Landed, hret', hnone]
    simp [eq_comm]
  have hnocall : ∀ c', t'.group.calls.get? s ≠ some c' := fun c' hs => by
    rw [hnone] at hs
    cases hs
  refine
    { seq_lt := fun v hv => h.seq_lt v ((hent' v).mp hv)
      value_eq := fun v w hv hw => h.value_eq v w ((hent' v).mp hv) ((hent' w).mp hw)
      call_open := fun c' hs => absurd hs (hnocall c')
      entered_open := fun v hv => Or.inr ⟨ok, (hret' ok).mpr rfl⟩
      returned_entered := fun ok' hr => ⟨c.value, (hent' _).mpr he⟩
      tried := fun c' hs => absurd hs (hnocall c')
      landed := fun c' hs => absurd hs (hnocall c')
      stored_landed := fun v hs hv => ?_, stored_other := fun hs => ?_ }
  · rw [hitem, if_pos (hlanded.mp hs), h.value_eq _ _ he ((hent' v).mp hv)]
  · rw [hitem, if_neg (mt hlanded.mpr hs)]

/-! ## Every turn keeps the invariant -/

/-- A section of the call `c` that keeps the group's invariant and tells its caller the
truth keeps the invariant of the system. -/
theorem Inv.ofSection (h : Inv m₀ t) (hc : t.group.calls.get? seq = some c)
    {res : Group × GroupRet} (hsec : Group.Section t.group.calls seq c res)
    (hgroup : res.1.Inv) (htrue : Group.Truthful c res.2) :
    Inv m₀ { t with group := res.1, log := res.2.events seq ++ t.log } := by
  obtain ⟨g, ret⟩ := res
  by_cases hret : ret = .took (some true)
  · -- the call returns `Ok`: the outcome it took says that its `Put` landed
    subst hret
    have hland : c.phase = .landed := by
      rcases htrue with htrue | ⟨ok, htrue, hphase⟩
      · cases htrue
      · obtain rfl := Option.some.inj (GroupRet.took.inj htrue)
        exact hphase
    obtain ⟨hent, -⟩ := h.call_open seq c hc
    refine Inv.of_books hgroup ?_ fun s => ?_
    · exact (h.truth.cons (by simp [Truth])).cons ⟨c.value, (h.landed seq c hc hland).cons⟩
    · by_cases hs : s = seq
      · subst hs
        refine (h.book s).of_returned [.took s (some true)] rfl (by simp) (by simp) hc
          (hsec.leaves rfl) ?_
        exact h.stored_landed s c.value (Or.inr ⟨c, hc, hland⟩) hent
      · exact (h.book s).frame _ rfl (by simp [GroupRet.events]) (by simp [GroupRet.events, hs])
          (congrArg _ (hsec.frame s hs)) rfl
  · -- the call stays on the books, at another program point
    obtain ⟨pc, hself⟩ := hsec.stays hret
    have hevents : ∀ e ∈ ret.events seq, ∃ outcome, e = .took seq (some outcome) := by
      intro e he
      rcases htrue with rfl | ⟨ok, rfl, -⟩
      · cases he
      · cases ok
        · exact ⟨false, List.mem_singleton.mp he⟩
        · exact absurd rfl hret
    refine Inv.of_books hgroup ?_ fun s => ?_
    · refine h.truth.append fun e he pre => ?_
      obtain ⟨outcome, rfl⟩ := hevents e he
      simp [Truth]
    · refine (h.book s).frame _ rfl (fun v hv => ?_) (fun ok hr => ?_) ?_ rfl
      · obtain ⟨outcome, heq⟩ := hevents _ hv
        cases heq
      · obtain ⟨outcome, heq⟩ := hevents _ hr
        cases heq
      · by_cases hs : s = seq
        · subst hs
          rw [hc]
          exact (congrArg (Option.map carried) hself).trans rfl
        · exact congrArg _ (hsec.frame s hs)

/-- A new call. -/
theorem Inv.enter (h : Inv m₀ t) (hnew : t.group.calls.get? seq = none) (hlt : seq < u64Size)
    (hfresh : seq ∉ t.log.filterMap GroupEvent.newSeq) (value : Bytes) :
    Inv m₀
      { t with group := (t.group.enter seq value).1
               log := (t.group.enter seq value).2.events seq ++ .entered seq value :: t.log } := by
  obtain ⟨hgroup, hret⟩ := h.group.enter hnew value
  obtain ⟨hframe, hstays, -⟩ := Group.section_enter t.group seq value
  obtain ⟨pc, hself⟩ := hstays (by rw [hret]; simp)
  rw [hret]
  simp only [GroupRet.events, List.nil_append]
  generalize (t.group.enter seq value).1 = g at *
  refine Inv.of_books hgroup (h.truth.cons trivial) fun s => ?_
  by_cases hs : s = seq
  · -- the seq is new: its history is this one event, and nothing of it is stored
    subst hs
    have hnever : ∀ v, .entered s v ∉ t.log :=
      fun v hv => hfresh (List.mem_filterMap.mpr ⟨_, hv, rfl⟩)
    have hnot : ∀ ok, .returned s ok ∉ t.log := by
      intro ok hr
      obtain ⟨v, hv⟩ := h.returned_entered s ok hr
      exact hnever v hv
    have hent : ∀ v, GroupEvent.entered s v ∈ .entered s value :: t.log ↔ v = value := fun v => by
      simp [hnever v]
    have hret' : ∀ ok, GroupEvent.returned s ok ∉ .entered s value :: t.log := fun ok => by
      simp [hnot ok]
    have hcall : ∀ c', g.calls.get? s = some c' → c'.value = value ∧ c'.phase = .fresh := by
      intro c' hc'
      obtain rfl := Option.some.inj (hself.symm.trans hc')
      exact ⟨rfl, rfl⟩
    have hlanded : ¬Landed { t with group := g, log := .entered s value :: t.log } s := by
      rintro (hr | ⟨c', hc', hp⟩)
      · exact hret' true hr
      · rw [(hcall c' hc').2] at hp
        cases hp
    have hother : ¬t.Landed s := by
      rintro (hr | ⟨c', hc', -⟩)
      · exact hnot true hr
      · rw [hnew] at hc'
        cases hc'
    refine
      { seq_lt := fun _ _ => hlt
        value_eq := fun v w hv hw => ((hent v).mp hv).trans ((hent w).mp hw).symm
        call_open := fun c' hc' => ⟨(hent _).mpr (hcall c' hc').1, hret'⟩
        entered_open := fun _ _ => Or.inl ⟨_, hself⟩
        returned_entered := fun ok hr => absurd hr (hret' ok)
        tried := fun c' hc' hp => ?_, landed := fun c' hc' hp => ?_
        stored_landed := fun _ hs _ => absurd hs hlanded
        stored_other := fun _ => h.stored_other s hother }
    · rw [(hcall c' hc').2] at hp
      cases hp
    · rw [(hcall c' hc').2] at hp
      cases hp
  · exact (h.book s).frame [.entered seq value] rfl (by simp [hs]) (by simp)
      (congrArg _ (hframe s hs)) rfl

theorem clean_cases {o : Outcome} (h : o.Clean) : o = .ok ∨ o = .errClean := by
  cases o with
  | ok => exact Or.inl rfl
  | err applied => exact Or.inr (congrArg Outcome.err h)

/-- The items after the commit of a batch: those of its members, if it succeeds. -/
theorem get?_items_batch {st : Store} {batch : List (ℕ × Bytes)} {o : Outcome} (ho : o.Clean)
    (hlt : ∀ e ∈ batch, e.1 < u64Size) (s : ℕ) :
    (items (st.commit (batchOps batch) true o).live).get? s =
      if o.isOk = true then ((items st.live).applyAll (batch.map fun e => (e.1, some e.2))).get? s
      else (items st.live).get? s := by
  rcases clean_cases ho with rfl | rfl
  · rw [← items_batchOps hlt]
    rfl
  · simp [Outcome.errClean, Outcome.isOk]

/-- The call of a member of the batch, after the batch's commit. -/
theorem Book.flushed {s : ℕ} (h : Book m₀ t s) {ops : List Op} {ok : Bool}
    (hlog : t'.log = .committed ops true ok :: t.log)
    (hc : t.group.calls.get? s = some c) (hphase : c.phase = .fresh)
    (hop : Op.put (entryKey s) c.value ∈ ops)
    (hcall : ∃ pc, t'.group.calls.get? s = some { c with pc, phase := .ofCommit ok })
    (hitem : (items t'.store.live).get? s =
      if ok = true then some c.value else (items t.store.live).get? s) : Book m₀ t' s := by
  obtain ⟨he, hn⟩ := h.call_open c hc
  obtain ⟨pc, hself⟩ := hcall
  have hent : ∀ v, .entered s v ∈ t'.log ↔ .entered s v ∈ t.log := fun v => by simp [hlog]
  have hret : ∀ ok', .returned s ok' ∉ t'.log := fun ok' => by simp [hlog, hn ok']
  have hheld : HeldBy t'.log s c.value ok := ⟨ops, [], t.log, hlog, hop, he⟩
  have hcall : ∀ c', t'.group.calls.get? s = some c' →
      c'.value = c.value ∧ c'.phase = .ofCommit ok := by
    intro c' hs
    obtain rfl := Option.some.inj (hself.symm.trans hs)
    exact ⟨rfl, rfl⟩
  -- it has not landed before, and lands now if the commit succeeds
  have hbefore : ¬t.Landed s := by
    rintro (hr | ⟨c', hs, hp⟩)
    · exact hn true hr
    · obtain rfl := Option.some.inj (hc.symm.trans hs)
      rw [hphase] at hp
      cases hp
  have hlanded : t'.Landed s ↔ ok = true := by
    rw [Landed, hself, or_iff_right (hret true)]
    cases ok <;> simp [Phase.ofCommit]
  refine
    { seq_lt := fun v hv => h.seq_lt v ((hent v).mp hv)
      value_eq := fun v w hv hw => h.value_eq v w ((hent v).mp hv) ((hent w).mp hw)
      call_open := fun c' hs => ⟨(hent _).mpr ((hcall c' hs).1 ▸ he), hret⟩
      entered_open := fun v hv => Or.inl ⟨_, hself⟩
      returned_entered := fun ok' hr => absurd hr (hret ok')
      tried := fun c' hs hp => ?_, landed := fun c' hs hp => ?_
      stored_landed := fun v hs hv => ?_, stored_other := fun hs => ?_ }
  · obtain ⟨hv, hp'⟩ := hcall c' hs
    obtain rfl : ok = false := by
      rw [hp'] at hp
      cases ok
      · rfl
      · cases hp
    exact hv ▸ hheld
  · obtain ⟨hv, hp'⟩ := hcall c' hs
    obtain rfl : ok = true := by
      rw [hp'] at hp
      cases ok
      · cases hp
      · rfl
    exact hv ▸ hheld
  · rw [hitem, if_pos (hlanded.mp hs), h.value_eq _ _ he ((hent v).mp hv)]
  · rw [hitem, if_neg (mt hlanded.mpr hs)]
    exact h.stored_other hbefore

/-- The commit of the leader's batch. -/
theorem Inv.flush (h : Inv m₀ t) (hc : t.group.calls.get? seq = some c) {batch : List (ℕ × Bytes)}
    (hpc : c.pc = .flushing batch) {o : Outcome} (ho : o.Clean) :
    Inv m₀ { store := t.store.commit (batchOps batch) true o
             group := t.group.flush seq batch o.isOk
             log := .committed (batchOps batch) true o.isOk :: t.log } := by
  have hplaces := (h.group.led (r := none) hc hpc).places
  have hlt : ∀ e ∈ batch, e.1 < u64Size := by
    intro e he
    obtain ⟨c₀, hc₀, -⟩ := hplaces.batch_call e.1 e.2 he
    exact h.seq_lt e.1 _ (h.call_open e.1 c₀ hc₀).1
  refine Inv.of_books (h.group.flush hc hpc o.isOk) (h.truth.cons trivial) fun s => ?_
  by_cases hs : s ∈ batch.map Prod.fst
  · obtain ⟨⟨s', v⟩, hmem, rfl⟩ := List.mem_map.mp hs
    obtain ⟨c₀, hc₀, rfl, -, hphase⟩ := hplaces.batch_call s' v hmem
    have hop : Op.put (entryKey s') c₀.value ∈ batchOps batch := List.mem_map.mpr ⟨_, hmem, rfl⟩
    refine (h.book s').flushed rfl hc₀ hphase hop ?_ ?_
    · rw [Group.get?_flush, hc₀, Option.map_some, if_pos hs]
      exact ⟨_, rfl⟩
    · refine (get?_items_batch ho hlt s').trans (if_congr Iff.rfl ?_ rfl)
      refine SortedMap.get?_applyAll_of_mem (u := (s', some c₀.value)) ?_
        (List.mem_map.mpr ⟨_, hmem, rfl⟩)
      rw [List.map_map]
      exact hplaces.batch_nodup
  · refine (h.book s).frame [.committed _ _ _] rfl (by simp) (by simp) ?_ ?_
    · rw [Group.get?_flush, Option.map_map]
      refine Option.map_congr fun c₀ _ => ?_
      simp [carried, hs]
    · rw [get?_items_batch ho hlt]
      split
      · refine SortedMap.get?_applyAll_of_ne fun u hu heq => ?_
        obtain ⟨e, he, rfl⟩ := List.mem_map.mp hu
        exact hs (heq ▸ List.mem_map_of_mem he)
      · rfl

/-- The retry of a caller whose batch failed. -/
theorem Inv.retry (h : Inv m₀ t) (hc : t.group.calls.get? seq = some c) (hpc : c.pc = .retry)
    {o : Outcome} (ho : o.Clean) :
    Inv m₀ { store := t.store.commit [.put (entryKey seq) c.value] true o
             group := t.group.retried seq
             log := .returned seq o.isOk ::
               .committed [.put (entryKey seq) c.value] true o.isOk :: t.log } := by
  obtain ⟨hent, hnot⟩ := h.call_open seq c hc
  have hlt := h.seq_lt seq _ hent
  have htried : c.phase = .tried := by
    obtain ⟨batch, r, hplaces⟩ := h.group.places
    exact hplaces.retry_tried seq c hc hpc
  have hstore : ∀ s, (items (t.store.commit [.put (entryKey seq) c.value] true o).live).get? s =
      if s = seq ∧ o.isOk = true then some c.value else (items t.store.live).get? s := by
    intro s
    rcases clean_cases ho with rfl | rfl
    · have hput := items_apply (m := t.store.live) hlt (some c.value)
      simp only [Store.commit_ok_live, List.map_cons, List.map_nil, SortedMap.applyAll_cons,
        SortedMap.applyAll_nil, Op.update, hput, SortedMap.get?_apply, Outcome.isOk, and_true]
    · simp [Outcome.errClean, Outcome.isOk]
  refine Inv.of_books (h.group.retried hc hpc) ?_ fun s => ?_
  · refine Justified.cons ⟨trivial, h.truth⟩ ?_
    rcases clean_cases ho with rfl | rfl
    · exact ⟨c.value, _, [], t.log, rfl, List.mem_singleton_self _, hent⟩
    · exact ⟨c.value, t.log, rfl, h.tried seq c hc htried⟩
  · by_cases hs : s = seq
    · subst hs
      have hother : ¬t.Landed s := by
        rintro (hr | ⟨c', hs, hp⟩)
        · exact hnot true hr
        · obtain rfl := Option.some.inj (hc.symm.trans hs)
          rw [htried] at hp
          cases hp
      refine (h.book s).of_returned [.committed _ _ _] rfl (by simp) (by simp) hc
        (SortedMap.get?_erase_self _ _) ?_
      rw [hstore, h.stored_other s hother]
      exact if_congr (and_iff_right rfl) rfl rfl
    · refine (h.book s).frame [.returned _ _, .committed _ _ _] rfl (by simp)
        (by simp [hs]) ?_ ?_
      · exact congrArg _ (SortedMap.get?_erase_ne _ hs)
      · exact (hstore s).trans (if_neg fun hand => hs hand.1)

/-- One turn keeps the invariant. -/
theorem Inv.step (h : Inv m₀ t) {a : GroupAct} (hok : Allowed t a) (hstep : t.step a = some t') :
    Inv m₀ t' := by
  cases a with
  | enter seq value =>
    simp only [GroupSystem.step] at hstep
    split at hstep
    · cases hstep
    · next hnew =>
      obtain rfl := Option.some.inj hstep
      exact h.enter hnew hok.1 hok.2 value
  | flush seq o =>
    simp only [GroupSystem.step] at hstep
    split at hstep
    · next hc =>
      obtain rfl := Option.some.inj hstep
      exact h.flush hc rfl hok
    · cases hstep
  | record seq =>
    simp only [GroupSystem.step] at hstep
    split at hstep
    · next hc =>
      obtain rfl := Option.some.inj hstep
      obtain ⟨hgroup, htrue⟩ := h.group.record hc rfl
      exact h.ofSection hc (Group.section_record _ _ _ _ _) hgroup htrue
    · cases hstep
  | wake seq =>
    simp only [GroupSystem.step] at hstep
    split at hstep
    · next hc =>
      obtain rfl := Option.some.inj hstep
      obtain ⟨hgroup, htrue⟩ := h.group.wake hc rfl
      exact h.ofSection hc (Group.section_wake hc) hgroup htrue
    · cases hstep
  | retry seq o =>
    simp only [GroupSystem.step] at hstep
    split at hstep
    · next hc =>
      obtain rfl := Option.some.inj hstep
      exact h.retry hc rfl hok
    · cases hstep

theorem Inv.run (h : Inv m₀ t) {as : List GroupAct} (hrun : Run GroupSystem.step Allowed t as t') :
    Inv m₀ t' :=
  hrun.invariant (fun _ _ _ hs hok hstep => hs.step hok hstep) h

/-! ## The result -/

/-- Nobody is stranded, and everybody is told the truth; the store was `st` before the first
call. -/
structure Sound (st : Store) (t : GroupSystem) : Prop where
  /-- at most one caller leads -/
  leader_unique : ∀ s s' c c', t.group.calls.get? s = some c → t.group.calls.get? s' = some c' →
    c.pc.isLeader = true → c'.pc.isLeader = true → s = s'
  /-- `flushing` says whether there is a leader -/
  flushing_iff : t.group.state.flushing = true ↔
    ∃ s c, t.group.calls.get? s = some c ∧ c.pc.isLeader = true
  /-- nothing is pending without a leader -/
  pending_nil : t.group.state.flushing = false → t.group.state.pending = []
  /-- a caller that has not taken its outcome is in exactly one place -/
  placed : ∀ s c, t.group.calls.get? s = some c → c.pc ≠ .retry → t.group.Placed s
  /-- without a leader, the outcome of every waiting caller is there to be taken -/
  not_stranded : t.group.state.flushing = false →
    ∀ s c, t.group.calls.get? s = some c → c.pc = .waiting → t.group.InDone s
  /-- the outcome a caller removes is never missing -/
  never_missing : ∀ s, .took s none ∉ t.log
  /-- a call that returned `Ok` was held by a commit that did, during the call -/
  ok_true : ∀ s post pre, t.log = post ++ .returned s true :: pre → ∃ v, HeldBy pre s v true
  /-- a call that returned `Err` was in a batch that failed, and then failed its own retry -/
  err_true : ∀ s post pre, t.log = post ++ .returned s false :: pre → ∃ v pre',
    pre = .committed [.put (entryKey s) v] true false :: pre' ∧ HeldBy pre' s v false
  /-- when no call is active, nothing is left behind -/
  quiet : (∀ s, t.group.calls.get? s = none) → t.group.state.pending = [] ∧
    t.group.state.flushing = false ∧ ∀ s, t.group.state.done.get? s = none
  /-- and the entries the calls added are those of the calls that returned `Ok` -/
  stored : (∀ s, t.group.calls.get? s = none) →
    (∀ s v, .entered s v ∈ t.log → (items st.live).get? s = none) →
    ∀ s v, (items t.store.live).get? s = some v ↔
      (items st.live).get? s = some v ∨ .entered s v ∈ t.log ∧ .returned s true ∈ t.log

/-- **Group commit.** Every run of any number of calls, in any order at lock granularity, with
failing commits that apply nothing. -/
theorem group_commit_sound {st : Store} {as : List GroupAct}
    (hrun : Run step Allowed (init st) as t) : Sound st t := by
  have h := (inv_init st).run hrun
  refine
    { leader_unique := fun _ _ _ _ hs hs' hc hc' => h.group.leader_unique hs hs' hc hc'
      flushing_iff := h.group.flushing_iff
      pending_nil := h.group.pending_nil
      placed := fun s c hs hc => h.group.placed hs hc
      not_stranded := fun hf s c hs hc => ?_
      never_missing := fun s hs => ?_
      ok_true := fun s post pre heq => ?_
      err_true := fun s post pre heq => ?_
      quiet := h.group.quiet
      stored := fun hnone hnew s v => ?_ }
  · rcases h.group with hg | ⟨l, batch, r, hg⟩
    · rcases hg.places.placed s c hs (by simp [hc]) with hp | hb | hd
      · rw [Group.InPending, hg.pending_nil] at hp
        cases hp
      · cases hb
      · exact hd
    · rw [hg.flushing] at hf
      cases hf
  · obtain ⟨post, pre, heq⟩ := List.append_of_mem hs
    have htruth := h.truth
    rw [heq] at htruth
    exact htruth.of_append rfl
  · have htruth := h.truth
    rw [heq] at htruth
    exact htruth.of_append
  · have htruth := h.truth
    rw [heq] at htruth
    exact htruth.of_append
  · have hlanded : t.Landed s ↔ .returned s true ∈ t.log := by
      refine ⟨fun hl => hl.resolve_right ?_, Or.inl⟩
      rintro ⟨c, hc, -⟩
      rw [hnone] at hc
      cases hc
    by_cases hl : t.Landed s
    · obtain ⟨w, hw⟩ := h.returned_entered s true (hlanded.mp hl)
      rw [h.stored_landed s w hl hw, hnew s w hw]
      refine ⟨fun heq => ?_, ?_⟩
      · obtain rfl := Option.some.inj heq
        exact Or.inr ⟨hw, hlanded.mp hl⟩
      · rintro (heq | ⟨hv, -⟩)
        · cases heq
        · rw [h.value_eq s w v hw hv]
    · rw [h.stored_other s hl]
      exact ⟨Or.inl, fun hor => hor.resolve_right fun hand => hl (hlanded.mpr hand.2)⟩

/-- A batch fails and its caller goes on to lead another batch, then retries its own entry;
the second batch succeeds. -/
theorem group_commit_sound_retry :
    ∃ t, Run step Allowed (init Store.empty)
      [.enter 0 [7], .enter 1 [8], .flush 0 .errClean, .record 0, .flush 0 .ok, .wake 1,
        .record 0, .wake 1, .retry 0 .ok] t ∧ Sound Store.empty t := by
  refine Exists.imp (fun t hrun => ⟨hrun, group_commit_sound hrun⟩) ?_
  exact Run.exists_of_exec (by decide)

end GroupSystem

end PersistentQueue
