import PersistentQueue.Lib.Database
import PersistentQueue.Lib.Run
import PersistentQueue.Store

/-!
# The backends

The four implementations of the store trait. `MemStore` is a map in memory; the others make a
batch or a transaction and hand it to an embedded database, which is a parameter here: all that
is used of it is what `Database.Lawful` says.

The queue is verified over a store whose commits may fail with any part applied and whose
crashes may lose any write that is not durable. `backends_are_stores` connects the two: whatever
a shipped backend answers to a history of calls, with any calls failing and any crashes, the
model of the store can answer. Of what the model allows a backend does only a part: a batch that
fails has been applied as a whole or not at all.
-/

namespace PersistentQueue

/-! ## Histories of calls -/

/-- A call of the store trait, or a crash and the next open. -/
inductive StoreCall : Type where
  /-- `get` -/
  | get (key : Key)
  /-- `seek` -/
  | seek (start : Key)
  /-- `seek_back` -/
  | seekBack (upto : Key)
  /-- `commit` -/
  | commit (ops : List Op) (durable : Bool)
  /-- the process or the machine goes down, and the store is opened again -/
  | crash

/-- Whether a call only reads. -/
def StoreCall.reads : StoreCall → Bool
  | .get _ | .seek _ | .seekBack _ => true
  | .commit _ _ | .crash => false

/-- What a call returns. -/
inductive StoreReply : Type where
  /-- the value of a key -/
  | value (v : Option Bytes)
  /-- the entry a seek ended on -/
  | entry (e : Option (Key × Bytes))
  /-- `Ok(())` -/
  | done
  /-- `Err(_)` -/
  | failed
  /-- the store is open again -/
  | reopened

/-- The answer of a `get`. -/
def StoreReply.ofGet : Except Unit (Option Bytes) → StoreReply
  | .ok v => .value v
  | .error _ => .failed

/-- The answer of a seek. -/
def StoreReply.ofSeek : Except Unit (Option (Key × Bytes)) → StoreReply
  | .ok e => .entry e
  | .error _ => .failed

/-- The answer of a commit. -/
def StoreReply.ofCommit (ok : Bool) : StoreReply := if ok then .done else .failed

/-- The outcome is that of a batch which goes in as a whole: it did, or it did not. -/
def Outcome.Whole (ops : List Op) (o : Outcome) : Prop :=
  o = .ok ∨ o = .err [] ∨ o = .err (ops.map fun _ => true)

/-- The model of the store serves a call: reads may fail, and a commit has any outcome in which
its batch is whole. -/
inductive Store.Serves : Store → StoreCall × StoreReply → Store → Prop
  /-- the value of a key -/
  | get (st : Store) (key : Key) : Serves st (.get key, .value (st.get key)) st
  /-- the least entry from a key on -/
  | seek (st : Store) (start : Key) : Serves st (.seek start, .entry (st.seek start)) st
  /-- the greatest entry up to a key -/
  | seekBack (st : Store) (upto : Key) :
      Serves st (.seekBack upto, .entry (st.seekBack upto)) st
  /-- a read fails -/
  | failed (st : Store) (c : StoreCall) (hreads : c.reads = true) : Serves st (c, .failed) st
  /-- a commit comes to an outcome -/
  | commit (st : Store) (ops : List Op) (durable : Bool) (o : Outcome) (hwhole : o.Whole ops) :
      Serves st (.commit ops durable, .ofCommit o.isOk) (st.commit ops durable o)
  /-- a crash keeps some of what is not durable -/
  | crash (st : Store) (kept : List Bool) : Serves st (.crash, .reopened) (st.crash kept)

/-! ## A backend -/

/-- An implementation of the store trait. A `Fault` says which calls of the database fail on
the way, and how. -/
structure Backend extends Storage Key Bytes where
  /-- what goes wrong in a call -/
  Fault : Type
  /-- value for an exact key -/
  get : State → Key → Fault → Except Unit (Option Bytes)
  /-- smallest entry whose key is `>= from` -/
  seek : State → Key → Fault → Except Unit (Option (Key × Bytes))
  /-- greatest entry whose key is `<= upto` -/
  seekBack : State → Key → Fault → Except Unit (Option (Key × Bytes))
  /-- apply `ops`; whether it returns `Ok` -/
  commit : State → List Op → Bool → Fault → State × Bool

namespace Backend

/-- The backend serves a call. -/
inductive Serves (B : Backend) : B.State → StoreCall × StoreReply → B.State → Prop
  /-- `get` -/
  | get (s : B.State) (key : Key) (e : B.Fault) :
      B.Serves s (.get key, .ofGet (B.get s key e)) s
  /-- `seek` -/
  | seek (s : B.State) (start : Key) (e : B.Fault) :
      B.Serves s (.seek start, .ofSeek (B.seek s start e)) s
  /-- `seek_back` -/
  | seekBack (s : B.State) (upto : Key) (e : B.Fault) :
      B.Serves s (.seekBack upto, .ofSeek (B.seekBack s upto e)) s
  /-- `commit` -/
  | commit (s : B.State) (ops : List Op) (durable : Bool) (e : B.Fault) :
      B.Serves s (.commit ops durable, .ofCommit (B.commit s ops durable e).2)
        (B.commit s ops durable e).1
  /-- a crash, and an open of what it left -/
  | crash {s t : B.State} (h : B.recovers s t) : B.Serves s (.crash, .reopened) t

theorem Serves.commit_as {B : Backend} {s : B.State} {ops : List Op} {durable : Bool}
    (e : B.Fault) {r : StoreReply} (h : .ofCommit (B.commit s ops durable e).2 = r) :
    B.Serves s (.commit ops durable, r) (B.commit s ops durable e).1 := by
  subst h
  exact .commit s ops durable e

theorem Serves.get_as {B : Backend} {s : B.State} {key : Key} (e : B.Fault) {r : StoreReply}
    (h : .ofGet (B.get s key e) = r) : B.Serves s (.get key, r) s := by
  subst h
  exact .get s key e

/-- What makes a backend a store: reads that return see the content, and a batch goes in as a
whole or not at all, durably when that was asked for and `Ok` was returned. -/
structure Sound (B : Backend) : Prop where
  get : ∀ s key e v, B.get s key e = .ok v → v = (B.content s).get? key
  seek : ∀ s start e x, B.seek s start e = .ok x → x = (B.content s).seek start
  seekBack : ∀ s upto e x, B.seekBack s upto e = .ok x → x = (B.content s).seekBack upto
  commit_ok : ∀ s ops durable e, (B.commit s ops durable e).2 = true →
    B.Writes s (ops.map Op.update) durable (B.commit s ops durable e).1
  commit_err : ∀ s ops durable e, (B.commit s ops durable e).2 = false →
    B.Keeps s (B.commit s ops durable e).1 ∨
      B.Writes s (ops.map Op.update) false (B.commit s ops durable e).1
  recovers_trans : ∀ s t r, B.recovers s t → B.recovers t r → B.recovers s r

variable {B : Backend} {s t : B.State} {st : Store} {c : StoreCall × StoreReply}

/-- A commit has an outcome with a whole batch. -/
theorem Sound.commit (h : B.Sound) (hcovers : B.Covers s st) (ops : List Op) (durable : Bool)
    (e : B.Fault) :
    ∃ o : Outcome, o.Whole ops ∧ o.isOk = (B.commit s ops durable e).2 ∧
      B.Covers (B.commit s ops durable e).1 (st.commit ops durable o) := by
  cases hok : (B.commit s ops durable e).2 with
  | true => exact ⟨.ok, Or.inl rfl, rfl, hcovers.writes (h.commit_ok s ops durable e hok)⟩
  | false =>
    rcases h.commit_err s ops durable e hok with hkeeps | hwrites
    · refine ⟨.err [], Or.inr (Or.inl rfl), rfl, ?_⟩
      rw [Store.commit_err_nil]
      exact hcovers.keeps hkeeps
    · refine ⟨.err (ops.map fun _ => true), Or.inr (Or.inr rfl), rfl, ?_⟩
      rw [Store.commit, List.select_map, List.select_all]
      exact hcovers.writes hwrites

/-- Reads see what is live, or fail. -/
theorem Sound.reads (h : B.Sound) (hlive : B.content s = st.live) (hserves : B.Serves s c t)
    (hreads : c.1.reads = true) : st.Serves c st ∧ t = s := by
  cases hserves with
  | get key e =>
    refine ⟨?_, rfl⟩
    cases hres : B.get s key e with
    | error => exact .failed st _ rfl
    | ok v =>
      obtain rfl := h.get s key e v hres
      rw [hlive]
      exact .get st key
  | seek start e =>
    refine ⟨?_, rfl⟩
    cases hres : B.seek s start e with
    | error => exact .failed st _ rfl
    | ok x =>
      obtain rfl := h.seek s start e x hres
      rw [hlive]
      exact .seek st start
  | seekBack upto e =>
    refine ⟨?_, rfl⟩
    cases hres : B.seekBack s upto e with
    | error => exact .failed st _ rfl
    | ok x =>
      obtain rfl := h.seekBack s upto e x hres
      rw [hlive]
      exact .seekBack st upto
  | commit | crash => cases hreads

/-- What a sound backend does with a call, the model of the store can do. -/
theorem Sound.serves (h : B.Sound) (hcovers : B.Covers s st) (hserves : B.Serves s c t) :
    ∃ st', st.Serves c st' ∧ B.Covers t st' := by
  cases hserves with
  | get key e => exact ⟨st, (h.reads hcovers.content (.get s key e) rfl).1, hcovers⟩
  | seek start e => exact ⟨st, (h.reads hcovers.content (.seek s start e) rfl).1, hcovers⟩
  | seekBack upto e => exact ⟨st, (h.reads hcovers.content (.seekBack s upto e) rfl).1, hcovers⟩
  | commit ops durable e =>
    obtain ⟨o, hwhole, hok, hcovers⟩ := h.commit hcovers ops durable e
    refine ⟨st.commit ops durable o, ?_, hcovers⟩
    rw [← hok]
    exact .commit st ops durable o hwhole
  | crash hcrash =>
    obtain ⟨kept, hcovers⟩ := hcovers.crash (fun r => h.recovers_trans s t r hcrash) hcrash
    exact ⟨st.crash kept, .crash st kept, hcovers⟩

end Backend

/-! ## Reads and batches -/

/-- A call that may fail. -/
def attempt {α : Type} (fails : Bool) (a : α) : Except Unit α := if fails then .error () else .ok a

/-- The entries from a key on: `range(from..)`. -/
def rangeFrom (m : SortedMap Key Bytes) (start : Key) : List (Key × Bytes) :=
  m.entries.filter fun e => start ≤ e.1

/-- The entries up to a key: `range(..=upto)`. -/
def rangeUpto (m : SortedMap Key Bytes) (upto : Key) : List (Key × Bytes) :=
  m.entries.filter fun e => e.1 ≤ upto

/-- The next item of an iterator over entries, which may be an error. -/
def nextEntry (fails : Bool) (entries : List (Key × Bytes)) :
    Option (Except Unit (Key × Bytes)) :=
  if fails then some (.error ()) else entries.head?.map .ok

/-- What the seeks make of the next item. -/
def firstEntry (fails : Bool) (entries : List (Key × Bytes)) :
    Except Unit (Option (Key × Bytes)) :=
  match nextEntry fails entries with
  | some (.ok e) => .ok (some e)
  | some (.error e) => .error e
  | none => .ok none

/-- Add one op to a batch. -/
def addOp (db : Database Key Bytes) (batch : db.Batch) : Op → db.Batch
  | .put key value => db.insert batch key value
  | .delete key => db.remove batch key

theorem of_attempt {α : Type} {fails : Bool} {a b : α} (h : attempt fails a = .ok b) : b = a := by
  cases fails with
  | false => exact (Except.ok.inj h).symm
  | true => cases h

theorem of_attempt_bind {α : Type} {fails : Bool} {x : Except Unit α} {a : α}
    (h : (attempt fails () >>= fun _ => x) = .ok a) : x = .ok a := by
  cases fails with
  | false => exact h
  | true => cases h

theorem head?_rangeFrom (m : SortedMap Key Bytes) (start : Key) :
    (rangeFrom m start).head? = m.seek start := List.head?_filter

theorem head?_rangeUpto (m : SortedMap Key Bytes) (upto : Key) :
    (rangeUpto m upto).reverse.head? = m.seekBack upto := List.head?_reverse

theorem of_firstEntry {fails : Bool} {entries : List (Key × Bytes)} {x : Option (Key × Bytes)}
    (h : firstEntry fails entries = .ok x) : x = entries.head? := by
  cases fails with
  | true => cases h
  | false =>
    cases entries with
    | nil => exact (Except.ok.inj h).symm
    | cons e entries => exact (Except.ok.inj h).symm

theorem foldl_addOp (db : Database Key Bytes) (ops : List Op) :
    ops.foldl (addOp db) db.batch = db.batchOf (ops.map Op.update) := by
  rw [Database.batchOf, List.foldl_map]
  congr
  funext batch op
  cases op <;> rfl

/-! ## The map in memory -/

namespace MemStore

/-- `MemStore::get`. -/
def get (map : SortedMap Key Bytes) (key : Key) : Option Bytes := map.get? key

/-- `MemStore::seek`. -/
def seek (map : SortedMap Key Bytes) (start : Key) : Option (Key × Bytes) :=
  (rangeFrom map start).head?

/-- `MemStore::seek_back`. -/
def seekBack (map : SortedMap Key Bytes) (upto : Key) : Option (Key × Bytes) :=
  (rangeUpto map upto).getLast?

/-- `MemStore::commit`: it cannot fail, and `durable` means nothing. -/
def commit (map : SortedMap Key Bytes) (ops : List Op) (_durable : Bool) : SortedMap Key Bytes :=
  ops.foldl (fun map op => match op with
    | .put key value => map.insert key value
    | .delete key => map.erase key) map

/-- Nothing is left of it after a crash. -/
def backend : Backend where
  State := SortedMap Key Bytes
  content map := map
  recovers _ _ := False
  Fault := Unit
  get map key _ := .ok (get map key)
  seek map start _ := .ok (seek map start)
  seekBack map upto _ := .ok (seekBack map upto)
  commit map ops durable _ := (commit map ops durable, true)

theorem commit_eq (map : SortedMap Key Bytes) (ops : List Op) (durable : Bool) :
    commit map ops durable = map.applyAll (ops.map Op.update) := by
  rw [SortedMap.applyAll, List.foldl_map, commit]
  congr
  funext map op
  cases op <;> rfl

theorem sound : backend.Sound where
  get := fun _ _ _ _ h => (Except.ok.inj h).symm
  seek := fun map start _ _ h => (Except.ok.inj h).symm.trans (head?_rangeFrom map start)
  seekBack := fun _ _ _ _ h => (Except.ok.inj h).symm
  commit_ok := fun map ops durable _ _ => by
    refine ⟨commit_eq map ops durable, ?_⟩
    rintro m ⟨_, hnever, -⟩
    exact hnever.elim
  commit_err := fun _ _ _ _ h => by cases h
  recovers_trans := fun _ _ _ h => h.elim

end MemStore

/-! ## sled -/

/-- What fails in a call of a `SledStore`. -/
structure SledFault (db : Database Key Bytes) where
  /-- a read, or the next item of an iterator -/
  read : Bool
  /-- `apply_batch` -/
  apply : db.Fault
  /-- `flush` -/
  flush : db.Fault

namespace SledStore

variable (db : Database Key Bytes)

/-- `SledStore::get`. -/
def get (s : db.State) (key : Key) (e : SledFault db) : Except Unit (Option Bytes) :=
  attempt e.read ((db.content s).get? key)

/-- `SledStore::seek`. -/
def seek (s : db.State) (start : Key) (e : SledFault db) : Except Unit (Option (Key × Bytes)) :=
  firstEntry e.read (rangeFrom (db.content s) start)

/-- `SledStore::seek_back`. -/
def seekBack (s : db.State) (upto : Key) (e : SledFault db) :
    Except Unit (Option (Key × Bytes)) :=
  firstEntry e.read (rangeUpto (db.content s) upto).reverse

/-- The first part of `SledStore::commit`: the batch goes in. -/
def applyBatch (s : db.State) (ops : List Op) (e : db.Fault) : db.State × Bool :=
  let batch := ops.foldl (addOp db) db.batch
  db.apply s batch false e

/-- `SledStore::commit`: what went in is made durable by a flush. -/
def commit (s : db.State) (ops : List Op) (durable : Bool) (e : SledFault db) : db.State × Bool :=
  match applyBatch db s ops e.apply with
  | (s, false) => (s, false)
  | (s, true) => if durable then db.flush s e.flush else (s, true)

/-- A store over a sled database. -/
def backend : Backend where
  toStorage := db.toStorage
  Fault := SledFault db
  get := get db
  seek := seek db
  seekBack := seekBack db
  commit := commit db

variable {db}

theorem applyBatch_ok (h : db.Lawful) {s : db.State} {ops : List Op} {e : db.Fault}
    (hok : (applyBatch db s ops e).2 = true) :
    db.Writes s (ops.map Op.update) false (applyBatch db s ops e).1 := by
  rw [applyBatch, foldl_addOp] at hok ⊢
  exact h.batch_ok hok

theorem applyBatch_err (h : db.Lawful) {s : db.State} {ops : List Op} {e : db.Fault}
    (herr : (applyBatch db s ops e).2 = false) :
    db.Keeps s (applyBatch db s ops e).1 ∨
      db.Writes s (ops.map Op.update) false (applyBatch db s ops e).1 := by
  rw [applyBatch, foldl_addOp] at herr ⊢
  exact h.batch_err herr

theorem commit_ok (h : db.Lawful) {s : db.State} {ops : List Op} {durable : Bool}
    {e : SledFault db} (hok : (commit db s ops durable e).2 = true) :
    db.Writes s (ops.map Op.update) durable (commit db s ops durable e).1 := by
  rw [commit] at hok ⊢
  rcases happ : applyBatch db s ops e.apply with ⟨t, _ | _⟩
  · rw [happ] at hok
    cases hok
  · have hwrites := applyBatch_ok h (congrArg Prod.snd happ)
    rw [happ] at hok hwrites
    cases durable with
    | false => exact hwrites
    | true => exact h.flushed hwrites e.flush hok

/-- A commit whose flush fails has put its batch in. -/
theorem commit_err (h : db.Lawful) {s : db.State} {ops : List Op} {durable : Bool}
    {e : SledFault db} (herr : (commit db s ops durable e).2 = false) :
    db.Keeps s (commit db s ops durable e).1 ∨
      db.Writes s (ops.map Op.update) false (commit db s ops durable e).1 := by
  rw [commit] at herr ⊢
  rcases happ : applyBatch db s ops e.apply with ⟨t, _ | _⟩
  · have hres := applyBatch_err h (congrArg Prod.snd happ)
    rw [happ] at hres
    exact hres
  · have hwrites := applyBatch_ok h (congrArg Prod.snd happ)
    rw [happ] at herr hwrites
    cases durable with
    | false => cases herr
    | true => exact Or.inr (h.unflushed hwrites e.flush)

theorem sound (h : db.Lawful) : (backend db).Sound where
  get := fun _ _ _ _ hres => of_attempt hres
  seek := fun _ start _ _ hres => (of_firstEntry hres).trans (head?_rangeFrom _ start)
  seekBack := fun _ upto _ _ hres => (of_firstEntry hres).trans (head?_rangeUpto _ upto)
  commit_ok := fun _ _ _ _ hok => commit_ok h hok
  commit_err := fun _ _ _ _ herr => commit_err h herr
  recovers_trans := h.recovers_trans

end SledStore

/-! ## redb -/

/-- What fails in a call of a `RedbStore`. -/
structure RedbFault (db : Database Key Bytes) where
  /-- `begin_read` or `begin_write` -/
  begin : Bool
  /-- `set_durability` -/
  setDurability : Bool
  /-- `open_table` -/
  openTable : Bool
  /-- `get` or `range` -/
  lookup : Bool
  /-- the next item of an iterator -/
  next : Bool
  /-- the insert or the remove of each op -/
  ops : List Bool
  /-- `commit` -/
  commit : db.Fault

namespace RedbStore

variable (db : Database Key Bytes)

/-- `RedbStore::get`. -/
def get (s : db.State) (key : Key) (e : RedbFault db) : Except Unit (Option Bytes) := do
  attempt e.begin ()
  attempt e.openTable ()
  attempt e.lookup ((db.content s).get? key)

/-- The read transaction of the seeks. -/
def range (e : RedbFault db) (entries : List (Key × Bytes)) :
    Except Unit (Option (Key × Bytes)) := do
  attempt e.begin ()
  attempt e.openTable ()
  attempt e.lookup ()
  firstEntry e.next entries

/-- `RedbStore::seek`. -/
def seek (s : db.State) (start : Key) (e : RedbFault db) : Except Unit (Option (Key × Bytes)) :=
  range db e (rangeFrom (db.content s) start)

/-- `RedbStore::seek_back`. -/
def seekBack (s : db.State) (upto : Key) (e : RedbFault db) :
    Except Unit (Option (Key × Bytes)) :=
  range db e (rangeUpto (db.content s) upto).reverse

/-- Do the ops in the transaction; the first that fails ends it. -/
def fill (batch : db.Batch) : List Op → List Bool → Option db.Batch
  | [], _ => some batch
  | op :: ops, fails => if fails.headD false then none else fill (addOp db batch op) ops fails.tail

/-- `RedbStore::commit`: a transaction that is not committed is dropped. -/
def commit (s : db.State) (ops : List Op) (durable : Bool) (e : RedbFault db) : db.State × Bool :=
  if e.begin then (s, false)
  else if !durable && e.setDurability then (s, false)
  else if e.openTable then (s, false)
  else
    match fill db db.batch ops e.ops with
    | none => (s, false)
    | some batch => db.apply s batch durable e.commit

/-- A store over a redb database. -/
def backend : Backend where
  toStorage := db.toStorage
  Fault := RedbFault db
  get := get db
  seek := seek db
  seekBack := seekBack db
  commit := commit db

variable {db}

theorem of_fill {ops : List Op} {fails : List Bool} {batch b : db.Batch}
    (h : fill db batch ops fails = some b) : b = ops.foldl (addOp db) batch := by
  induction ops generalizing fails batch with
  | nil => exact (Option.some.inj h).symm
  | cons op ops ih =>
    rw [fill] at h
    split at h
    · cases h
    · exact ih h

/-- A commit fails before it hands over the transaction, or it is what the database makes of
the transaction. -/
theorem commit_cases (s : db.State) (ops : List Op) (durable : Bool) (e : RedbFault db) :
    commit db s ops durable e = (s, false) ∨
      commit db s ops durable e =
        db.apply s (db.batchOf (ops.map Op.update)) durable e.commit := by
  rw [commit]
  split
  · exact Or.inl rfl
  · split
    · exact Or.inl rfl
    · split
      · exact Or.inl rfl
      · cases hfill : fill db db.batch ops e.ops with
        | none => exact Or.inl rfl
        | some batch =>
          obtain rfl := of_fill hfill
          rw [foldl_addOp]
          exact Or.inr rfl

theorem of_range {e : RedbFault db} {entries : List (Key × Bytes)} {x : Option (Key × Bytes)}
    (h : range db e entries = .ok x) : x = entries.head? :=
  of_firstEntry (of_attempt_bind (of_attempt_bind (of_attempt_bind h)))

theorem sound (h : db.Lawful) : (backend db).Sound where
  get := fun _ _ _ _ hres => of_attempt (of_attempt_bind (of_attempt_bind hres))
  seek := fun _ start _ _ hres => (of_range hres).trans (head?_rangeFrom _ start)
  seekBack := fun _ upto _ _ hres => (of_range hres).trans (head?_rangeUpto _ upto)
  commit_ok := by
    intro s ops durable e hok
    simp only [backend] at hok ⊢
    rcases commit_cases s ops durable e with heq | heq
    · rw [heq] at hok
      cases hok
    · rw [heq] at hok ⊢
      exact h.batch_ok hok
  commit_err := by
    intro s ops durable e hok
    simp only [backend] at hok ⊢
    rcases commit_cases s ops durable e with heq | heq
    · rw [heq]
      exact Or.inl ⟨rfl, fun _ hm => hm⟩
    · rw [heq] at hok ⊢
      exact h.batch_err hok
  recovers_trans := h.recovers_trans

end RedbStore

/-! ## RocksDB -/

/-- What fails in a call of a `RocksStore`. -/
structure RocksFault (db : Database Key Bytes) where
  /-- a read, or the next item of an iterator -/
  read : Bool
  /-- `write_opt` -/
  write : db.Fault

namespace RocksStore

variable (db : Database Key Bytes)

/-- `RocksStore::get`. -/
def get (s : db.State) (key : Key) (e : RocksFault db) : Except Unit (Option Bytes) :=
  attempt e.read ((db.content s).get? key)

/-- `RocksStore::seek`. -/
def seek (s : db.State) (start : Key) (e : RocksFault db) : Except Unit (Option (Key × Bytes)) :=
  firstEntry e.read (rangeFrom (db.content s) start)

/-- `RocksStore::seek_back`. -/
def seekBack (s : db.State) (upto : Key) (e : RocksFault db) :
    Except Unit (Option (Key × Bytes)) :=
  firstEntry e.read (rangeUpto (db.content s) upto).reverse

/-- `RocksStore::commit`. -/
def commit (s : db.State) (ops : List Op) (durable : Bool) (e : RocksFault db) :
    db.State × Bool :=
  db.apply s (ops.foldl (addOp db) db.batch) durable e.write

/-- A store over a RocksDB database. -/
def backend : Backend where
  toStorage := db.toStorage
  Fault := RocksFault db
  get := get db
  seek := seek db
  seekBack := seekBack db
  commit := commit db

variable {db}

theorem sound (h : db.Lawful) : (backend db).Sound where
  get := fun _ _ _ _ hres => of_attempt hres
  seek := fun _ start _ _ hres => (of_firstEntry hres).trans (head?_rangeFrom _ start)
  seekBack := fun _ upto _ _ hres => (of_firstEntry hres).trans (head?_rangeUpto _ upto)
  commit_ok := by
    intro s ops durable e hok
    simp only [backend, commit, foldl_addOp] at hok ⊢
    exact h.batch_ok hok
  commit_err := by
    intro s ops durable e hok
    simp only [backend, commit, foldl_addOp] at hok ⊢
    exact h.batch_err hok
  recovers_trans := h.recovers_trans

end RocksStore

/-! ## The shipped backends -/

/-- The implementations that come with the trait. -/
inductive Shipped : Type where
  /-- `MemStore` -/
  | mem
  /-- `SledStore` -/
  | sled
  /-- `RedbStore` -/
  | redb
  /-- `RocksStore` -/
  | rocks

/-- A shipped backend over a database, which `MemStore` has no use for. -/
def Shipped.over (db : Database Key Bytes) : Shipped → Backend
  | .mem => MemStore.backend
  | .sled => SledStore.backend db
  | .redb => RedbStore.backend db
  | .rocks => RocksStore.backend db

theorem Shipped.sound {db : Database Key Bytes} (h : db.Lawful) (kind : Shipped) :
    (kind.over db).Sound := by
  cases kind with
  | mem => exact MemStore.sound
  | sled => exact SledStore.sound h
  | redb => exact RedbStore.sound h
  | rocks => exact RocksStore.sound h

/-- The model of the store goes along with every history of a sound backend. -/
theorem Backend.Sound.traces {B : Backend} (h : B.Sound) {s t : B.State} (hs : B.Synced s)
    {calls : List (StoreCall × StoreReply)} (htrace : Trace B.Serves s calls t) :
    ∃ st, Trace Store.Serves (Journaled.ofMap (B.content s)) calls st ∧ B.Covers t st := by
  have hstep : ∀ (s : B.State) (call : StoreCall × StoreReply) (t : B.State) (st : Store),
      B.Covers s st → B.Serves s call t → ∃ st', Store.Serves st call st' ∧ B.Covers t st' :=
    fun _ _ _ _ hcovers hserves => h.serves hcovers hserves
  exact htrace.simulates hstep (Storage.covers_ofMap hs)

/-- **The shipped backends are stores.** Over any database that keeps its promises, a shipped
backend answers to every history of calls, in which any calls fail and any crashes happen, as
the model of the store can answer, with whole batches, and what it holds at the end is what
the model holds. -/
theorem backends_are_stores {db : Database Key Bytes} (h : db.Lawful) (kind : Shipped)
    {s t : (kind.over db).State} (hs : (kind.over db).Synced s)
    {calls : List (StoreCall × StoreReply)} (htrace : Trace (kind.over db).Serves s calls t) :
    ∃ st, Trace Store.Serves (Journaled.ofMap ((kind.over db).content s)) calls st ∧
      (kind.over db).content t = st.live := by
  obtain ⟨st, hst, hcovers⟩ := (Shipped.sound h kind).traces hs htrace
  exact ⟨st, hst, hcovers.content⟩

/-- A write-ahead log with nothing in it. -/
def newLog : WriteAhead Key Bytes := ⟨SortedMap.empty, []⟩

/-- A durable commit, one that is not, one whose flush fails, a crash that loses the last of
them, and a read. -/
def faultyCalls : List (StoreCall × StoreReply) :=
  [(.commit [.put [1] [7], .put [2] [8]] true, .done), (.commit [.delete [2]] false, .done),
    (.commit [.put [3] [9]] true, .failed), (.crash, .reopened), (.get [1], .value (some [7]))]

theorem faultyCalls_trace :
    ∃ t, Trace (Shipped.sled.over (writeAhead Key Bytes)).Serves newLog faultyCalls t := by
  let fine : SledFault (writeAhead Key Bytes) :=
    ⟨false, WriteAhead.Fault.none, WriteAhead.Fault.none⟩
  let full : SledFault (writeAhead Key Bytes) :=
    ⟨false, WriteAhead.Fault.none, WriteAhead.Fault.refused⟩
  refine Trace.exists_cons (.commit_as fine rfl) ?_
  refine Trace.exists_cons (.commit_as fine rfl) ?_
  refine Trace.exists_cons (.commit_as full rfl) ?_
  refine Trace.exists_cons (.crash ⟨1, rfl⟩) ?_
  refine Trace.exists_cons (.get_as fine rfl) ?_
  exact ⟨_, .nil _⟩

theorem backends_are_stores_faulty :
    (writeAhead Key Bytes).Lawful ∧
      ∃ st, Trace Store.Serves (Journaled.ofMap SortedMap.empty) faultyCalls st := by
  obtain ⟨t, htrace⟩ := faultyCalls_trace
  obtain ⟨st, hst, -⟩ :=
    backends_are_stores writeAhead_lawful .sled (writeAhead_synced SortedMap.empty) htrace
  exact ⟨writeAhead_lawful, st, hst⟩

/-! ## What a durable commit is worth -/

/-- The call writes to the key. -/
def StoreCall.Touches (key : Key) : StoreCall → Prop
  | .commit ops _ => key ∈ ops.map fun op => op.update.1
  | .get _ | .seek _ | .seekBack _ | .crash => False

instance (key : Key) : DecidablePred (StoreCall.Touches key)
  | .commit ops _ => inferInstanceAs (Decidable (key ∈ ops.map fun op => op.update.1))
  | .get _ | .seek _ | .seekBack _ | .crash => isFalse id

namespace Store

variable {st st' : Store} {key : Key} {c : Option Bytes}

/-- A commit that does not name a pinned key leaves it pinned. -/
theorem pinned_untouched (hpin : st.Pinned key c) {ops : List Op}
    (hnot : key ∉ ops.map fun op => op.update.1) (durable : Bool) (o : Outcome) :
    (st.commit ops durable o).Pinned key c := by
  have hsame : ∀ u ∈ ops.map Op.update, u.1 = key → u.2 = c := by
    intro u hu heq
    obtain ⟨op, hop, rfl⟩ := List.mem_map.mp hu
    exact absurd (heq ▸ List.mem_map_of_mem (f := fun op : Op => op.update.1) hop) hnot
  cases o with
  | ok => exact hpin.write hsame durable
  | err applied =>
    exact hpin.write (fun u hu => hsame u ((List.select_sublist _ _).subset hu)) false

/-- A call that does not write to a pinned key leaves it pinned. -/
theorem Serves.pinned {call : StoreCall × StoreReply} (h : st.Serves call st')
    (hpin : st.Pinned key c) (hnot : ¬call.1.Touches key) : st'.Pinned key c := by
  cases h with
  | get | seek | seekBack | failed => exact hpin
  | commit ops durable o => exact pinned_untouched hpin hnot durable o
  | crash kept => exact hpin.crash kept

theorem pinned_trace {calls : List (StoreCall × StoreReply)}
    (htrace : Trace Store.Serves st calls st') (hnot : ∀ call ∈ calls, ¬call.1.Touches key)
    (hpin : st.Pinned key c) : st'.Pinned key c := by
  refine htrace.invariant (I := fun st => st.Pinned key c) ?_ hpin
  intro _ call _ hcall hp hserves
  exact hserves.pinned hp (hnot call hcall)

/-- Reads of a pinned key return its content, or fail. -/
theorem Serves.reads_pinned {r : StoreReply} (h : st.Serves (.get key, r) st')
    (hpin : st.Pinned key c) : r = .value c ∨ r = .failed := by
  cases h with
  | get => exact Or.inl (congrArg StoreReply.value hpin.live)
  | failed => exact Or.inr rfl

/-- A durable commit that returned `Ok` pins what it wrote. -/
theorem Serves.pins {ops : List Op} (h : st.Serves (.commit ops true, .done) st')
    (hlast : lastWrite (ops.map Op.update) key = some c) : st'.Pinned key c := by
  generalize hreply : StoreReply.done = r at h
  cases h with
  | failed => cases hreply
  | commit _ _ o =>
    cases o with
    | ok => exact Journaled.pinned_lastWrite hlast
    | err => cases hreply

end Store

/-- **A durable commit is not lost.** On a shipped backend, once a durable commit has returned
`Ok`, a key it wrote holds what it wrote last, and every `get` of it that does not fail returns
that, through any calls that fail and any crashes, until another commit names the key. -/
theorem durable_commits_survive {db : Database Key Bytes} (h : db.Lawful) (kind : Shipped)
    {s t : (kind.over db).State} (hs : (kind.over db).Synced s)
    {before after : List (StoreCall × StoreReply)} {ops : List Op} {key : Key} {c : Option Bytes}
    (htrace : Trace (kind.over db).Serves s (before ++ (.commit ops true, .done) :: after) t)
    (hlast : lastWrite (ops.map Op.update) key = some c)
    (hnot : ∀ call ∈ after, ¬call.1.Touches key) :
    ((kind.over db).content t).get? key = c ∧
      ∀ r, (.get key, r) ∈ after → r = .value c ∨ r = .failed := by
  obtain ⟨st, hst, hcovers⟩ := (Shipped.sound h kind).traces hs htrace
  obtain ⟨st₁, -, hrest⟩ := hst.split
  cases hrest with
  | cons hcommit hafter =>
    have hpin := hcommit.pins hlast
    refine ⟨?_, fun r hr => ?_⟩
    · rw [hcovers.content]
      exact (Store.pinned_trace hafter hnot hpin).live
    · -- the key is pinned when the read is made
      obtain ⟨pre, post, rfl⟩ := List.append_of_mem hr
      obtain ⟨st₂, hpre, hpost⟩ := hafter.split
      have hpin₂ : st₂.Pinned key c :=
        Store.pinned_trace hpre (fun call hcall => hnot call (List.mem_append_left _ hcall)) hpin
      cases hpost with
      | cons hread _ => exact hread.reads_pinned hpin₂

theorem durable_commits_survive_faulty :
    (writeAhead Key Bytes).Lawful ∧
      ∀ r, (.get [1], r) ∈ faultyCalls.tail → r = .value (some [7]) ∨ r = .failed := by
  obtain ⟨t, htrace⟩ := faultyCalls_trace
  have hfrom : Trace (Shipped.sled.over (writeAhead Key Bytes)).Serves newLog
      ([] ++ (.commit [.put [1] [7], .put [2] [8]] true, .done) :: faultyCalls.tail) t := htrace
  have hlast : lastWrite ([Op.put [1] [7], .put [2] [8]].map Op.update) [1] = some (some [7]) := by
    decide
  have hnot : ∀ call ∈ faultyCalls.tail, ¬call.1.Touches [1] := by decide
  exact ⟨writeAhead_lawful, (durable_commits_survive writeAhead_lawful .sled
    (writeAhead_synced SortedMap.empty) hfrom hlast hnot).2⟩

end PersistentQueue
