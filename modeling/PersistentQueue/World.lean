import PersistentQueue.Session

/-!
# Sessions over one store

A store outlives the queues that are opened on it. In the `World` a queue is opened, runs,
and is dropped or lost in a crash, at any step, any number of times; between sessions the
store is all there is. The history goes on through all of it.

The store starts empty, so every key in it but the meta key is one the queue has written
(`Sourced`). The class of runs a result is about is a `Regime`: what may happen inside a
session, and when a queue may be opened. `World.invariant` is the induction rule for
runs: a property of running queues and one of stores without a queue, kept by the moves of
the ledger and carried over by opens, drops and crashes.
-/

namespace PersistentQueue

/-- A store, with a queue open on it or without. -/
inductive World : Type where
  /-- no queue is open -/
  | closed (st : Store) (log : List Event)
  /-- a queue is -/
  | running (s : Session)

/-- What happens to a store over time. -/
inductive Deed : Type where
  /-- a queue is opened; a store call of the open may fail -/
  | «open» (b : Builder) (fault : Option OpenFault)
  /-- an act of the open queue -/
  | act (a : Act)
  /-- the open queue is dropped -/
  | drop
  /-- a crash, which keeps what is durable and the selected later writes -/
  | crash (kept : List Bool)

namespace World

/-- Nothing has happened yet. -/
def start : World := .closed Store.empty []

/-- The store. -/
def store : World → Store
  | .closed st _ => st
  | .running s => s.store

/-- The history of all sessions. -/
def log : World → List Event
  | .closed _ log => log
  | .running s => s.log

/-- One deed. -/
def step : World → Deed → Option World
  | .closed st log, .open b fault =>
    match b.open st fault ((items st.live).size + 1) with
    | some (st', .ok inner) => some (.running (Session.opened b st' inner log))
    | some (st', .error _) => some (.closed st' log)
    | none => none
  | .closed st log, .crash kept => some (.closed (st.crash kept) log)
  | .running s, .act a => (s.step a).map .running
  | .running s, .drop => some (.closed s.store s.log)
  | .running s, .crash kept => some (.closed (s.store.crash kept) s.log)
  | _, _ => none

end World

/-- A class of runs: the acts allowed in a session, and the opens allowed over a store with
these items after this history. -/
structure Regime where
  /-- the sessions -/
  session : Discipline
  /-- the opens -/
  opens : Builder → SortedMap ℕ Bytes → List Event → Prop

/-- The deeds allowed. The number of stored items has to be a `usize` at every open, which says
something only where that is narrower than a seq. -/
def Regime.deed (R : Regime) (w : World) : Deed → Prop
  | .open b _ =>
    (b.usizeBits < 64 → (items w.store.live).size < 2 ^ b.usizeBits) ∧
      R.opens b (items w.store.live) w.log
  | .act a =>
    match w with
    | .running s => R.session.act s a
    | .closed _ _ => True
  | _ => True

/-- The deeds allowed are decidable if the sessions and the opens are. -/
@[reducible] def Regime.decideDeed (R : Regime) (hact : ∀ s a, Decidable (R.session.act s a))
    (hopens : ∀ b m log, Decidable (R.opens b m log)) : ∀ w, DecidablePred (R.deed w)
  | _, .open _ _ => inferInstanceAs (Decidable (_ ∧ _))
  | .running s, .act a => hact s a
  | .closed _ _, .act _ | _, .drop | _, .crash _ => isTrue trivial

/-! ## What the queue has written -/

/-- The content of a key that the queue wrote. -/
def Written (log : List Event) (key : Key) (value : Bytes) : Prop :=
  key = metaKey ∨
    ∃ call seq, seq < u64Max ∧ key = entryKey seq ∧ .claimed call seq value ∈ log

section

variable {st : Store} {log log' : List Event} {t : ℕ} {v : Bytes}

theorem Written.mono {key : Key} (h : Written log key v) (hlog : ∀ e ∈ log, e ∈ log') :
    Written log' key v := by
  rcases h with h | ⟨call, seq, hlt, hkey, hmem⟩
  · exact Or.inl h
  · exact Or.inr ⟨call, seq, hlt, hkey, hlog _ hmem⟩

theorem wellKeyed_of_written (h : st.All (Written log)) : WellKeyed st.live := by
  intro k v hk hhead
  rcases h.live k v hk with rfl | ⟨call, seq, -, rfl, -⟩
  · cases hhead
  · exact isEntry_entryKey seq

/-- A stored item is one that a push claimed. -/
theorem claimed_of_written (h : st.All (Written log)) (ht : (items st.live).get? t = some v) :
    t < u64Max ∧ ∃ call, .claimed call t v ∈ log := by
  have hlt := items_lt ht
  rw [get?_items hlt] at ht
  rcases h.live _ v ht with hmeta | ⟨call, seq, hseq, hkey, hmem⟩
  · exact absurd hmeta (entryKey_ne_metaKey t)
  · obtain rfl := (entryKey_inj hlt (lt_u64Size_of_lt_u64Max hseq)).mp hkey
    exact ⟨hseq, call, hmem⟩

end

namespace Ledger

variable {l l' : Ledger} {m : Move}

/-- The store holds what the queue wrote, and a write writes what its push claimed. -/
structure Sourced (l : Ledger) : Prop where
  store : l.store.All (Written l.log)
  write : ∀ t w, l.writes.get? t = some w → .claimed w.call t w.value ∈ l.log

theorem Sourced.moved (h : l.Sourced) (hwf : l.Wf) (hm : Moved l m l') : l'.Sourced := by
  have hwritten : l.store.All (Written l'.log) :=
    h.store.mono fun k v hk => hk.mono fun e he => log_mono hm he
  refine ⟨?_, fun t w hw => ?_⟩
  · cases hm with
    | @put seq w hw hstage durable o hdurable =>
      refine Store.all_commit hwritten (fun key value hop => ?_) durable o
      obtain ⟨rfl, rfl⟩ := Op.put.inj (List.mem_singleton.mp hop)
      have hlt := hwf.lt_u64Max (hwf.write_lt seq w hw)
      exact Or.inr ⟨w.call, seq, hlt, rfl, log_mono (.put hw hstage durable o hdurable)
        (h.write seq w hw)⟩
    | remove hg hpc o =>
      exact Store.all_commit hwritten (fun key value hop => by simp at hop) _ o
    | call | turnedAway | waits | claim | giveBack | close | reserve | ended | found | skipped
    | handedOut | record | release | returned | gaveUp => exact hwritten
  · rcases of_writes hm hw with ⟨w₀, hold, hcall, hvalue⟩ | ⟨k, c, -, -, rfl, rfl, rfl⟩
    · rw [hcall, hvalue]
      exact log_mono hm (h.write t w₀ hold)
    · exact List.mem_cons_self

end Ledger

/-! ## The induction rule -/

namespace World

/-- What holds of a running queue, and of a store without one. -/
def Holds (I : Ledger → Prop) (J : Store → List Event → Prop) : World → Prop
  | .closed st log => st.All (Written log) ∧ J st log
  | .running s => Coupled s ∧ s.toLedger.Sourced ∧ I s.toLedger

variable {R : Regime} {w w' : World} {ds : List Deed} {I : Ledger → Prop}
  {J : Store → List Event → Prop} {b : Builder} {fault : Option OpenFault}

/-- An open writes nothing but the meta record. -/
theorem written_open {st st' : Store} {log : List Event} {fuel : ℕ} {r : Except OpenError Inner}
    (hwritten : st.All (Written log)) (h : b.open st fault fuel = some (st', r)) :
    st'.All (Written log) := by
  rcases open_store h with rfl | ⟨o, rfl⟩
  · exact hwritten
  · refine Store.all_commit hwritten (fun key value hop => Or.inl ?_) _ o
    exact (Op.put.inj (List.mem_singleton.mp hop)).1

/-- An open that returns `Ok` opens a queue over what is stored. -/
theorem opens_of_step {st : Store} {log : List Event} {s : Session}
    (hwritten : st.All (Written log))
    (hfits : b.usizeBits < 64 → (items st.live).size < 2 ^ b.usizeBits)
    (hstep : step (.closed st log) (.open b fault) = some (.running s)) : Opens b st s := by
  simp only [step] at hstep
  split at hstep
  · next st' inner hopen =>
    obtain rfl := World.running.inj (Option.some.inj hstep)
    exact ⟨wellKeyed_of_written hwritten, fun t v ht => (claimed_of_written hwritten ht).1, hfits,
      fault, _, st', inner, log, hopen, rfl⟩
  · cases hstep
  · cases hstep

/-- **The invariant rule.** A property of running queues and one of stores without a queue
hold in every state of every run from an empty store, when the moves of the ledger keep the
first, an open takes the second to the first, the end of a session takes it back, and a
crash and a write of the meta record keep the second. -/
theorem invariant (hrun : Run step R.deed start ds w) (hstart : J Store.empty [])
    (hmeta : ∀ st log durable o, J st log →
      J (st.commit [Op.put metaKey [formatVersion]] durable o) log)
    (hopen : ∀ b l, FreshLedger b l → l.Sourced → R.opens b l.items l.log.tail →
      J l.store l.log.tail → I l)
    (hmove : ∀ l m l', l.Wf → l.Sourced → I l → R.session.move l m → Ledger.Moved l m l' → I l')
    (hdrop : ∀ l, l.Wf → l.Sourced → I l → J l.store l.log)
    (hcrash : ∀ st log kept, J st log → J (st.crash kept) log) : w.Holds I J := by
  have hempty : Store.empty.All (Written []) :=
    ⟨fun _ _ hk => (by cases hk), fun _ _ hk => (by cases hk), fun _ _ hk => (by cases hk)⟩
  refine hrun.invariant (I := Holds I J) (fun w d w' hw hdeed hstep => ?_) ⟨hempty, hstart⟩
  cases w with
  | closed st log =>
    obtain ⟨hwritten, hJ⟩ := hw
    cases d with
    | «open» b fault =>
      have hok := hstep
      simp only [step] at hstep
      split at hstep
      · next st' inner hopened =>
        obtain rfl := Option.some.inj hstep
        have hopens := opens_of_step hwritten hdeed.1 hok
        have hsourced : (Session.opened b st' inner log).Sourced := by
          refine ⟨?_, fun t w hw => by cases hw⟩
          exact (written_open hwritten hopened).mono fun k v hk =>
            hk.mono fun e he => List.mem_cons_of_mem _ he
        refine ⟨hopens.coupled, hsourced, hopen b _ hopens.fresh.1 hsourced ?_ ?_⟩
        · have hallowed := hdeed.2
          rw [show (World.closed st log).store = st from rfl, ← (open_items hopened).1] at hallowed
          exact hallowed
        · rcases open_store hopened with rfl | ⟨o, rfl⟩
          · exact hJ
          · exact hmeta st log _ o hJ
      · next st' e hfailed =>
        obtain rfl := Option.some.inj hstep
        refine ⟨written_open hwritten hfailed, ?_⟩
        rcases open_store hfailed with rfl | ⟨o, rfl⟩
        · exact hJ
        · exact hmeta st log _ o hJ
      · cases hstep
    | crash kept =>
      obtain rfl := Option.some.inj hstep
      exact ⟨hwritten.crash kept, hcrash st log kept hJ⟩
    | act | drop => cases hstep
  | running s =>
    obtain ⟨hcoupled, hsourced, hI⟩ := hw
    have hJ := hdrop s.toLedger hcoupled.wf hsourced hI
    cases d with
    | «open» => cases hstep
    | act a =>
      obtain ⟨t, ht, rfl⟩ := Option.map_eq_some_iff.mp hstep
      obtain ⟨hnext, ms, hms⟩ := hcoupled.step hdeed ht
      refine ⟨hnext, ?_⟩
      refine (hms.invariant (I := fun l => l.Wf ∧ l.Sourced ∧ I l) (fun l m l' hl hm hstep => ?_)
        ⟨hcoupled.wf, hsourced, hI⟩).2
      have hmoved := Ledger.moved_of_step hstep
      exact ⟨hl.1.moved (Discipline.move_below hm) hmoved, hl.2.1.moved hl.1 hmoved,
        hmove l m l' hl.1 hl.2.1 hl.2.2 hm hmoved⟩
    | drop =>
      obtain rfl := Option.some.inj hstep
      exact ⟨hsourced.store, hJ⟩
    | crash kept =>
      obtain rfl := Option.some.inj hstep
      exact ⟨hsourced.store.crash kept, hcrash _ _ kept hJ⟩

/-- An open always returns. -/
theorem open_returns (hrun : Run step R.deed start ds w) {st : Store} {log : List Event}
    (hw : w = .closed st log) (b : Builder) (fault : Option OpenFault) :
    ∃ w', w.step (.open b fault) = some w' := by
  subst hw
  obtain ⟨hwritten, -⟩ := invariant (I := fun _ => True) (J := fun _ _ => True) hrun trivial
    (fun _ _ _ _ _ => trivial) (fun _ _ _ _ _ _ => trivial) (fun _ _ _ _ _ _ _ _ => trivial)
    (fun _ _ _ _ => trivial) (fun _ _ _ _ => trivial)
  obtain ⟨⟨st', r⟩, hr⟩ := open_total (b := b) (wellKeyed_of_written hwritten)
    (fun t v ht => (claimed_of_written hwritten ht).1) fault
  simp only [step, hr]
  cases r <;> exact ⟨_, rfl⟩

end World

end PersistentQueue
