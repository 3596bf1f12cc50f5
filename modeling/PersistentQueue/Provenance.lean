import PersistentQueue.StableIds
import PersistentQueue.TypedQueue

/-!
# Where everything comes from

Nothing in a store, and nothing that is handed out, comes from anywhere but a push. Each event
of a history has its cause before it (`Grounded`): a push that returned `Ok` committed its own
bytes under its own seq, an item that is handed out was put with these bytes, and what an ack
removes is the item that was handed out. An entry is never written over with other bytes, and
an ack deletes no other item than its own.

This holds in every run, `nothing_invented`: over any number of sessions and crashes, under
any policy, with any number of threads, and with commits that fail with any part applied. So a
typed queue whose codec decodes what it encodes hands out values that were pushed, and never
fails to decode one: `never_undecodable`.

The same invariant over the meta record says that a queue is never locked out of its own
store (`never_locked_out`).
-/

namespace PersistentQueue

/-- The cause of an event lies before it. -/
def Grounded : Event → List Event → Prop
  | .opened, _ | .called _ _, _ => True
  | .claimed k _ v, before => .called k v ∈ before
  | .put t v old _, before => (∃ k, .claimed k t v ∈ before) ∧ (old = none ∨ old = some v)
  | .pushOk k t v, before => .claimed k t v ∈ before ∧ ∃ old, .put t v old true ∈ before
  | .handedOut t v, before => ∃ old ok, .put t v old ok ∈ before
  | .ackCalled t, before => ∃ v, .handedOut t v ∈ before
  | .removed t v old _, before => .handedOut t v ∈ before ∧ (old = none ∨ old = some v)
  | .acked t, before => ∃ v old, .removed t v old true ∈ before

/-- The content of a key is what a commit put there. -/
def Placed (log : List Event) (key : Key) (value : Bytes) : Prop :=
  key = metaKey ∨ ∃ t old ok, t < u64Max ∧ key = entryKey t ∧ .put t value old ok ∈ log

section

variable {st : Store} {log log' : List Event} {t : ℕ} {v : Bytes}

theorem mem_of_session {e : Event} (he : e ∈ thisSession log) : e ∈ log := by
  induction log with
  | nil => exact he
  | cons x log ih =>
    by_cases hx : x = .opened
    · subst hx
      cases he
    · rw [thisSession_cons hx] at he
      exact (List.mem_cons.mp he).elim (fun heq => heq ▸ List.mem_cons_self)
        fun hmem => List.mem_cons_of_mem _ (ih hmem)

theorem Placed.mono {key : Key} (h : Placed log key v) (hlog : ∀ e ∈ log, e ∈ log') :
    Placed log' key v := by
  rcases h with h | ⟨t, old, ok, hlt, hkey, hmem⟩
  · exact Or.inl h
  · exact Or.inr ⟨t, old, ok, hlt, hkey, hlog _ hmem⟩

/-- A stored item is one that a commit put. -/
theorem put_of_placed (h : st.All (Placed log)) (ht : (items st.live).get? t = some v) :
    ∃ old ok, .put t v old ok ∈ log := by
  have hlt := items_lt ht
  rw [get?_items hlt] at ht
  rcases h.live _ v ht with hmeta | ⟨s, old, ok, hs, hkey, hmem⟩
  · exact absurd hmeta (entryKey_ne_metaKey t)
  · obtain rfl := (entryKey_inj hlt (lt_u64Size_of_lt_u64Max hs)).mp hkey
    exact ⟨old, ok, hmem⟩

/-- A property of the whole content is kept by a commit of one op that has it, if the op takes
effect. -/
theorem Store.all_commit_one {p : Key → Bytes → Prop} (h : st.All p) {op : Op} {durable : Bool}
    {o : Outcome} (hop : o.applies = true → ∀ key value, op = .put key value → p key value) :
    (st.commit [op] durable o).All p := by
  rcases o with _ | _ | ⟨_ | _, applied⟩
  · refine Store.all_commit h (fun key value hmem => ?_) durable .ok
    exact hop rfl key value (List.mem_singleton.mp hmem).symm
  · rw [Store.commit_err_nil]
    exact h
  · simp only [Store.commit, List.map_cons, List.map_nil, List.select]
    exact h.write (by simp) false
  · refine Store.all_commit h (fun key value hmem => ?_) durable _
    exact hop rfl key value (List.mem_singleton.mp hmem).symm

end

namespace Ledger

variable {l l' : Ledger} {m : Move}

/-! ## The bytes of a seq -/

/-- In a session a seq stands for the same bytes wherever it is. -/
structure OneValue (l : Ledger) (f : ℕ → Bytes) : Prop where
  stored : ∀ t v, l.items.get? t = some v → f t = v
  write : ∀ t w, l.writes.get? t = some w → f t = w.value
  checking : ∀ r t v b, l.reserves.get? r = some ⟨.checking t v, b⟩ → f t = v
  guard : ∀ g gd, l.guards.get? g = some gd → f gd.seq = gd.value

theorem oneValue_opened {b : Builder} (h : FreshLedger b l) :
    l.OneValue fun t => (l.items.get? t).getD [] := by
  have hl := h.opened
  refine ⟨fun t v ht => by simp [ht], fun t w hw => ?_, fun r t v b hr => ?_, fun g gd hg => ?_⟩
  · rw [hl] at hw
    cases hw
  · rw [hl] at hr
    cases hr
  · rw [hl] at hg
    cases hg

/-- The bytes that the seqs stand for after a move: only the tail's can be new. -/
def bytesAfter (l l' : Ledger) (f : ℕ → Bytes) (t : ℕ) : Bytes :=
  if t < l.inner.tail then f t else ((l'.writes.get? t).map Write.value).getD []

theorem bytesAfter_of_lt {f : ℕ → Bytes} {t : ℕ} (ht : t < l.inner.tail) :
    l.bytesAfter l' f t = f t := if_pos ht

theorem OneValue.moved {f : ℕ → Bytes} (h : l.OneValue f) (hwf : l.Wf) (hm : Moved l m l') :
    l'.OneValue (l.bytesAfter l' f) where
  stored := by
    intro t v ht
    rcases hwf.of_items hm ht with hold | ⟨w, durable, o, -, hw, -, rfl⟩
    · rw [bytesAfter_of_lt (hwf.stored_lt t v hold), h.stored t v hold]
    · rw [bytesAfter_of_lt (hwf.write_lt t w hw), h.write t w hw]
  write := by
    intro t w hw
    rcases of_writes hm hw with ⟨w₀, hold, -, hvalue⟩ | ⟨k, c, -, -, rfl, rfl, -⟩
    · rw [bytesAfter_of_lt (hwf.write_lt t w₀ hold), h.write t w₀ hold, hvalue]
    · rw [bytesAfter, if_neg (lt_irrefl _), hw]
      rfl
  checking := by
    intro r t v b hr
    rcases hwf.of_found hm hr with ⟨b₀, hold⟩ | ⟨-, hstored⟩
    · rw [bytesAfter_of_lt (hwf.checking_lt r t v b₀ hold), h.checking r t v b₀ hold]
    · rw [bytesAfter_of_lt (hwf.stored_lt t v hstored), h.stored t v hstored]
  guard := by
    intro g gd hg
    rcases of_guards hm hg with ⟨gd₀, hold, hseq, hvalue, -⟩ | ⟨r, b, -, hr, -⟩
    · rw [hseq, hvalue, bytesAfter_of_lt (hwf.guard_lt g gd₀ hold), h.guard g gd₀ hold]
    · rw [bytesAfter_of_lt (hwf.checking_lt r _ _ b hr), h.checking r _ _ b hr]

/-- What a key holds when its seq's bytes are put or deleted: nothing, or these bytes. -/
theorem OneValue.get {f : ℕ → Bytes} (h : l.OneValue f) (hwf : l.Wf) {t : ℕ}
    (ht : t < l.inner.tail) {v : Bytes} (hv : f t = v) :
    l.store.get (entryKey t) = none ∨ l.store.get (entryKey t) = some v := by
  rw [get_entryKey (hwf.lt_u64Size ht)]
  rcases hstored : l.items.get? t with _ | v'
  · exact Or.inl rfl
  · exact Or.inr (by rw [← hv, h.stored t v' hstored])

/-! ## The history -/

/-- Everything in play has its cause in the history. -/
structure Explained (l : Ledger) : Prop where
  store : l.store.All (Placed l.log)
  call : ∀ k c, l.calls.get? k = some c → .called k c.value ∈ l.log
  landed : ∀ t w, l.writes.get? t = some w → w.stage = .landed →
    ∃ old, .put t w.value old true ∈ l.log
  checking : ∀ r t v b, l.reserves.get? r = some ⟨.checking t v, b⟩ →
    ∃ old ok, .put t v old ok ∈ l.log
  guard : ∀ g gd, l.guards.get? g = some gd → .handedOut gd.seq gd.value ∈ l.log
  deleted : ∀ g gd, l.guards.get? g = some gd → gd.pc = .deleted →
    ∃ old, .removed gd.seq gd.value old true ∈ l.log

/-- A commit that took effect is in the history. -/
theorem put_mem {seq : ℕ} {w : Write} {durable : Bool} {o : Outcome} (ho : o.applies = true) :
    .put seq w.value (l.store.get (entryKey seq)) o.isOk ∈ (l.put seq w durable o).log := by
  simp only [put, ho, if_true]
  exact List.mem_cons_self

/-- A delete that was committed is in the history. -/
theorem removed_mem {g : ℕ} {gd : Guard} {o : Outcome} (ho : o.applies = true) :
    .removed gd.seq gd.value (l.store.get (entryKey gd.seq)) o.isOk ∈ (l.remove g gd o).log := by
  simp only [remove, ho, if_true]
  exact List.mem_cons_self

theorem Explained.store_moved (h : l.Explained) (hwf : l.Wf) (hm : Moved l m l') :
    l'.store.All (Placed l'.log) := by
  have hplaced : l.store.All (Placed l'.log) :=
    h.store.mono fun k v hk => hk.mono fun e he => log_mono hm he
  cases hm with
  | @put seq w hw hstage durable o =>
    refine Store.all_commit_one hplaced fun ho key value hop => ?_
    obtain ⟨rfl, rfl⟩ := Op.put.inj hop
    exact Or.inr ⟨seq, _, _, hwf.lt_u64Max (hwf.write_lt seq w hw), rfl, put_mem ho⟩
  | remove hg hpc o =>
    exact Store.all_commit_one hplaced fun _ key value hop => by cases hop
  | call | turnedAway | waits | claim | giveBack | close | reserve | ended | found | skipped
  | handedOut | record | release | returned | gaveUp => exact hplaced

theorem Explained.moved (h : l.Explained) (hwf : l.Wf) (hm : Moved l m l') : l'.Explained where
  store := h.store_moved hwf hm
  call := by
    intro k c hc
    cases hm with
    | call =>
      rcases SortedMap.of_get?_insert hc with ⟨rfl, rfl⟩ | ⟨-, hc⟩
      · exact List.mem_cons_self
      · exact List.mem_cons_of_mem _ (h.call k c hc)
    | turnedAway hc₀ => exact h.call k c (SortedMap.of_get?_erase hc).2
    | claim => exact List.mem_cons_of_mem _ (h.call k c (SortedMap.of_get?_erase hc).2)
    | put hw hstage durable o hdurable =>
      exact log_mono (.put hw hstage durable o hdurable) (h.call k c hc)
    | remove hg hpc o => exact log_mono (.remove hg hpc o) (h.call k c hc)
    | record hg hpc => exact log_mono (.record hg hpc) (h.call k c hc)
    | handedOut hr hmem hnone => exact log_mono (.handedOut hr hmem hnone) (h.call k c hc)
    | returned hw hstage => exact log_mono (.returned hw hstage) (h.call k c hc)
    | waits | giveBack | close | reserve | ended | found | skipped | release | gaveUp =>
      exact h.call k c hc
  landed := by
    intro t w hw hstage
    cases writeMoved hm hw with
    | stays hw₀ =>
      obtain ⟨old, hput⟩ := h.landed t w hw₀ hstage
      exact ⟨old, log_mono hm hput⟩
    | claims | givesUp => cases hstage
    | commits hw₀ _ durable o =>
      have hok : o.isOk = true := by
        by_contra hok
        simp [hok] at hstage
      cases hm with
      | put hw₁ =>
        obtain rfl := Option.some.inj (hw₀.symm.trans hw₁)
        exact ⟨_, hok ▸ put_mem (Outcome.applies_of_isOk hok)⟩
  checking := by
    intro r t v b hr
    rcases hwf.of_found hm hr with ⟨b₀, hold⟩ | ⟨-, hstored⟩
    · obtain ⟨old, ok, hput⟩ := h.checking r t v b₀ hold
      exact ⟨old, ok, log_mono hm hput⟩
    · obtain ⟨old, ok, hput⟩ := put_of_placed h.store hstored
      exact ⟨old, ok, log_mono hm hput⟩
  guard := by
    intro g gd hg
    rcases of_guards hm hg with ⟨gd₀, hold, hseq, hvalue, -⟩ | ⟨r, b, -, -, -, -, hout⟩
    · rw [hseq, hvalue]
      exact log_mono hm (h.guard g gd₀ hold)
    · exact mem_of_session hout
  deleted := by
    intro g gd hg hpc
    rcases of_guard_deleted hm hg hpc with hold | ⟨gd₀, o, rfl, hg₀, -, hok, -⟩
    · obtain ⟨old, hmem⟩ := h.deleted g gd hold hpc
      exact ⟨old, log_mono hm hmem⟩
    · cases hm with
      | remove hg₁ =>
        obtain rfl := Option.some.inj (hg₀.symm.trans hg₁)
        obtain rfl := Option.some.inj ((SortedMap.get?_insert_self _ _ _).symm.trans hg)
        exact ⟨_, hok ▸ removed_mem (Outcome.applies_of_isOk hok)⟩

/-- What a move adds to the history is grounded in it. -/
theorem Explained.grounded {f : ℕ → Bytes} (h : l.Explained) (hone : l.OneValue f) (hwf : l.Wf)
    (hsourced : l.Sourced) (hm : Moved l m l') (hlog : Justified Grounded l.log) :
    Justified Grounded l'.log := by
  cases hm with
  | call => exact hlog.cons trivial
  | claim hc => exact hlog.cons (h.call _ _ hc)
  | handedOut hr => exact hlog.cons (h.checking _ _ _ _ hr)
  | record hg hpc =>
    obtain ⟨old, hremoved⟩ := h.deleted _ _ hg hpc
    exact hlog.cons ⟨_, old, hremoved⟩
  | returned hw hstage => exact hlog.cons ⟨hsourced.write _ _ hw, h.landed _ _ hw hstage⟩
  | @put seq w hw hstage durable o =>
    simp only [put]
    split
    · exact hlog.cons ⟨⟨_, hsourced.write _ _ hw⟩,
        hone.get hwf (hwf.write_lt _ _ hw) (hone.write _ _ hw)⟩
    · exact hlog
  | @remove g gd hg hpc o =>
    have hacked : Justified Grounded (.ackCalled gd.seq :: l.log) :=
      hlog.cons ⟨_, h.guard _ _ hg⟩
    simp only [remove]
    split
    · exact hacked.cons ⟨List.mem_cons_of_mem _ (h.guard _ _ hg),
        hone.get hwf (hwf.guard_lt _ _ hg) (hone.guard _ _ hg)⟩
    · exact hacked
  | turnedAway | waits | giveBack | close | reserve | ended | found | skipped | release | gaveUp =>
    exact hlog

theorem explained_opened {b : Builder} (hfresh : FreshLedger b l)
    (hstore : l.store.All (Placed l.log.tail)) : l.Explained := by
  have hl := hfresh.opened
  have hlog := hfresh.log_eq
  refine ⟨?_, fun k c hc => ?_, fun t w hw => ?_, fun r t v b hr => ?_, fun g gd hg => ?_,
    fun g gd hg => ?_⟩
  · rw [hlog]
    exact hstore.mono fun k v hk => hk.mono fun e he => List.mem_cons_of_mem _ he
  · rw [hl] at hc
    cases hc
  · rw [hl] at hw
    cases hw
  · rw [hl] at hr
    cases hr
  · rw [hl] at hg
    cases hg
  · rw [hl] at hg
    cases hg

end Ledger

/-- In every run the history is grounded, and the store holds what was put. -/
theorem World.genuine {ds : List Deed} {w : World}
    (hrun : Run World.step anySessions.deed World.start ds w) :
    Justified Grounded w.log ∧ w.store.All (Placed w.log) := by
  have hall := World.invariant
    (I := fun l => l.Explained ∧ (∃ f, l.OneValue f) ∧ Justified Grounded l.log)
    (J := fun st log => st.All (Placed log) ∧ Justified Grounded log) hrun
    ⟨⟨fun _ _ hk => (by cases hk), fun _ _ hk => (by cases hk), fun _ _ hk => (by cases hk)⟩,
      Justified.nil⟩
    (fun st log durable o h => ⟨Store.all_commit_one h.1 fun _ key value hop =>
      Or.inl (Op.put.inj hop).1.symm, h.2⟩)
    (fun b l hfresh _ _ h => ⟨Ledger.explained_opened hfresh h.1,
      ⟨_, Ledger.oneValue_opened hfresh⟩, by
        rw [hfresh.opened]
        exact h.2.cons trivial⟩)
    (fun l m l' hwf hsourced ⟨hexplained, ⟨f, hone⟩, hlog⟩ _ hm => ⟨hexplained.moved hwf hm,
      ⟨_, hone.moved hwf hm⟩, hexplained.grounded hone hwf hsourced hm hlog⟩)
    (fun l _ _ h => ⟨h.1.store, h.2.2⟩) (fun st log kept h => ⟨h.1.crash kept, h.2⟩)
  cases w with
  | closed st log => exact ⟨hall.2.2, hall.2.1⟩
  | running s => exact ⟨hall.2.2.2.2, hall.2.2.1.store⟩

/-- **Nothing is invented, and nothing is mixed up.** Over any number of sessions and crashes,
under any policies and with any failures, each event of the history has its cause before it,
and everything stored was put. -/
theorem nothing_invented {ds : List Deed} {w : World}
    (hrun : Run World.step anySessions.deed World.start ds w) :
    Justified Grounded w.log ∧
      ∀ t v, (items w.store.live).get? t = some v → ∃ old ok, .put t v old ok ∈ w.log := by
  obtain ⟨hlog, hstore⟩ := World.genuine hrun
  exact ⟨hlog, fun t v ht => put_of_placed hstore ht⟩

/-- Two sessions: an item is handed out when the crash comes, the commit of another one fails
after it was applied, and after the reopen both are handed out and one is removed. -/
def redelivered : List Deed :=
  [.open Builder.default64 none, .act (.turn (.call [3] true)), .act (.turn (.attempt 1)),
    .act (.commit 0 .ok), .act (.turn (.call [5] true)), .act (.turn (.attempt 5)),
    .act (.commit 1 (.err [true])), .act (.turn (.reserve 0)), .act (.turn (.seek 0 true)),
    .act (.turn (.check 0 0)), .crash [true], .open Builder.group64 none,
    .act (.turn (.reserve 0)), .act (.turn (.seek 0 true)), .act (.turn (.check 0 0)),
    .act (.turn (.reserve 1)), .act (.turn (.seek 1 true)), .act (.turn (.check 1 1)),
    .act (.turn (.seek 1 true)), .act (.turn (.check 1 1)), .act (.turn (.ack 0 .ok))]

theorem nothing_invented_redelivered :
    ∃ w, Run World.step anySessions.deed World.start redelivered w ∧
      (Justified Grounded w.log ∧
        ∀ t v, (items w.store.live).get? t = some v → ∃ old ok, .put t v old ok ∈ w.log) := by
  refine Exists.imp (fun w hrun => ⟨hrun, nothing_invented hrun⟩) ?_
  exact Run.exists_of_exec (by decide)

/-! ## What a typed queue hands out -/

/-- The bytes are the encoding of a value that was pushed. -/
def Pushed {T : Type} (c : Codec T) (log : List Event) (v : Bytes) : Prop :=
  ∃ k value, .called k v ∈ log ∧ c.encode value = .ok v ∧ c.decode v = .ok value

section

variable {T : Type} {c : Codec T} {log : List Event} {t : ℕ} {v : Bytes}

/-- What was put was pushed. -/
theorem pushed_of_put
    (hround : ∀ value bytes, c.encode value = .ok bytes → c.decode bytes = .ok value)
    (hencoded : ∀ k v, .called k v ∈ log → ∃ value, c.encode value = .ok v)
    (hlog : Justified Grounded log) (hput : ∃ old ok, .put t v old ok ∈ log) :
    Pushed c log v := by
  obtain ⟨old, ok, hput⟩ := hput
  obtain ⟨pre, ⟨⟨k, hclaimed⟩, -⟩, hpre⟩ := hlog.of_mem hput
  obtain ⟨pre', hcalled, hpre'⟩ := hlog.of_mem (hpre _ hclaimed)
  have hcall : .called k v ∈ log := hpre' _ hcalled
  obtain ⟨value, hvalue⟩ := hencoded k v hcall
  exact ⟨k, value, hcall, hvalue, hround value v hvalue⟩

end

/-- **A typed queue never fails to decode.** When every push is of an encoding, and the codec
decodes what it encodes, then over any number of sessions and crashes, under any policies and
with any failures, what is stored and what is handed out are the encodings of values that were
pushed, and they decode to these values. -/
theorem never_undecodable {T : Type} {c : Codec T}
    (hround : ∀ value bytes, c.encode value = .ok bytes → c.decode bytes = .ok value)
    {ds : List Deed} {w : World} (hrun : Run World.step anySessions.deed World.start ds w)
    (hencoded : ∀ k v, .called k v ∈ w.log → ∃ value, c.encode value = .ok v) :
    (∀ t v, (items w.store.live).get? t = some v → Pushed c w.log v) ∧
      ∀ t v, .handedOut t v ∈ w.log → Pushed c w.log v := by
  obtain ⟨hlog, hstore⟩ := World.genuine hrun
  refine ⟨fun t v ht => pushed_of_put hround hencoded hlog (put_of_placed hstore ht),
    fun t v hout => ?_⟩
  obtain ⟨pre, ⟨old, ok, hput⟩, hpre⟩ := hlog.of_mem hout
  exact pushed_of_put hround hencoded hlog ⟨old, ok, hpre _ hput⟩

theorem never_undecodable_redelivered :
    ∃ w, Run World.step anySessions.deed World.start redelivered w ∧
      (∀ t v, (items w.store.live).get? t = some v → Pushed oneByte w.log v) ∧
      ∀ t v, .handedOut t v ∈ w.log → Pushed oneByte w.log v := by
  have hrun : ∃ w, Run World.step anySessions.deed World.start redelivered w ∧
      (w.log.all fun | .called _ v => v == [3] || v == [5] | _ => true) = true :=
    Run.exists_of_exec_any (by decide)
  obtain ⟨w, hrun, hcalls⟩ := hrun
  refine ⟨w, hrun, never_undecodable oneByte_roundTrips hrun fun k v hcalled => ?_⟩
  have hbyte : v = [3] ∨ v = [5] := by simpa using List.all_eq_true.mp hcalls _ hcalled
  rcases hbyte with rfl | rfl
  · exact ⟨3, rfl⟩
  · exact ⟨5, rfl⟩

/-! ## The meta record -/

/-- The meta record of a queue's own store has its version. -/
def OwnVersion (key : Key) (value : Bytes) : Prop := key = metaKey → value = [formatVersion]

theorem Ledger.ownVersion_moved {l l' : Ledger} {m : Move} (h : l.store.All OwnVersion)
    (hm : Ledger.Moved l m l') : l'.store.All OwnVersion := by
  cases hm with
  | @put seq w hw hstage durable o =>
    refine Store.all_commit_one h fun _ key value hop hkey => ?_
    obtain ⟨rfl, -⟩ := Op.put.inj hop
    exact absurd hkey (entryKey_ne_metaKey seq)
  | remove hg hpc o => exact Store.all_commit_one h fun _ key value hop => by cases hop
  | call | turnedAway | waits | claim | giveBack | close | reserve | ended | found | skipped
  | handedOut | record | release | returned | gaveUp => exact h

section

variable {b : Builder} {st st' : Store} {fault : Option OpenFault} {fuel : ℕ} {version : Byte}

/-- The version is refused only if it is another one. -/
theorem openMeta_ne_unsupported
    (hversion : ∀ record, st.get metaKey = some record → record.head?.getD 0 = formatVersion) :
    b.openMeta st fault ≠ (st', .error (.unsupportedVersion version)) := by
  rw [Builder.openMeta]
  split
  · simp
  · split
    · next record hget =>
      rw [if_neg (not_not.mpr (hversion record hget))]
      simp
    · split <;> simp

/-- An open of a store with this version fails with the store's error or not at all. -/
theorem open_ne_unsupported
    (hversion : ∀ record, st.get metaKey = some record → record.head?.getD 0 = formatVersion) :
    b.open st fault fuel ≠ some (st', .error (.unsupportedVersion version)) := by
  have hwalk : ∀ {st : Store} {fails cursor w},
      b.recover st fuel fails cursor w ≠ some (.error (.unsupportedVersion version)) := by
    intro st fails cursor w
    rw [recover_visits]
    split
    · simp
    · split <;> simp
  intro hopen
  unfold Builder.open at hopen
  split at hopen
  · next hmeta =>
    obtain ⟨rfl, heq⟩ := Prod.mk.inj (Option.some.inj hopen)
    rw [Except.error.inj heq] at hmeta
    exact openMeta_ne_unsupported hversion hmeta
  · split at hopen
    · cases hopen
    · simp only at hopen
      split at hopen
      · cases hopen
      · next hfailed =>
        obtain ⟨-, heq⟩ := Prod.mk.inj (Option.some.inj hopen)
        rw [Except.error.inj heq] at hfailed
        exact hwalk hfailed
      · cases hopen

end

/-- **A queue is never locked out of its own store.** After any number of sessions and crashes,
under any policies and with any failures, an open returns a queue over all that is stored, and
if a store call of the open fails, the error is the store's. -/
theorem never_locked_out {ds : List Deed} {st : Store} {log : List Event}
    (hrun : Run World.step anySessions.deed World.start ds (.closed st log)) (b : Builder) :
    (∃ s, (World.closed st log).step (.open b none) = some (.running s) ∧
      s.items = items st.live) ∧
    ∀ fault fuel st' version,
      b.open st fault fuel ≠ some (st', .error (.unsupportedVersion version)) := by
  obtain ⟨hwritten, hown⟩ := World.invariant (I := fun l => l.store.All OwnVersion)
    (J := fun st _ => st.All OwnVersion) hrun
    ⟨fun _ _ hk => (by cases hk), fun _ _ hk => (by cases hk), fun _ _ hk => (by cases hk)⟩
    (fun st log durable o h => Store.all_commit_one h fun _ key value hop _ =>
      (Op.put.inj hop).2.symm)
    (fun _ _ _ _ _ h => h) (fun _ _ _ _ _ h _ hm => Ledger.ownVersion_moved h hm)
    (fun _ _ _ h => h) fun _ _ kept h => h.crash kept
  have hversion : ∀ record, st.get metaKey = some record →
      record.head?.getD 0 = formatVersion := by
    intro record hget
    rw [hown.live metaKey record hget rfl]
    rfl
  refine ⟨?_, fun fault fuel st' version => open_ne_unsupported hversion⟩
  obtain ⟨inner, hopen⟩ := open_supported (b := b) (wellKeyed_of_written hwritten)
    (fun t v ht => (claimed_of_written hwritten ht).1) hversion
    (Nat.lt_succ_self (items st.live).size)
  refine ⟨Session.opened b (b.openMeta st none).1 inner log, ?_, (open_items hopen).1⟩
  simp only [World.step, hopen]

/-- After a session that was cut off by a crash, and an open whose write of the meta record
failed before it. -/
theorem never_locked_out_crashed :
    ∃ st log, Run World.step anySessions.deed World.start
      [.open Builder.default64 (some (.commit [true])), .open Builder.group64 none,
        .act (.turn (.call [3] true)), .act (.turn (.attempt 1)), .crash [true]]
      (.closed st log) ∧
    ((∃ s, (World.closed st log).step (.open Builder.default64 none) = some (.running s) ∧
      s.items = items st.live) ∧
    ∀ fault fuel st' version, Builder.default64.open st fault fuel ≠
      some (st', .error (.unsupportedVersion version))) := by
  have hrun : ∃ w, Run World.step anySessions.deed World.start
      [.open Builder.default64 (some (.commit [true])), .open Builder.group64 none,
        .act (.turn (.call [3] true)), .act (.turn (.attempt 1))] w :=
    Run.exists_of_exec (by decide)
  obtain ⟨w, hrun⟩ := hrun
  have hcrash : ∀ {w}, anySessions.deed w (.crash [true]) := trivial
  cases w with
  | closed | running =>
    have hcrashed := hrun.snoc hcrash rfl
    exact ⟨_, _, hcrashed, never_locked_out hcrashed _⟩

end PersistentQueue
