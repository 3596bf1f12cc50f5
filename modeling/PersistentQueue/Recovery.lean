import PersistentQueue.Queue
import PersistentQueue.Visits

/-!
# Opening a queue

`Builder.open` checks or writes the meta record, takes `tail` from the greatest entry key
and walks the entries forward from `entryLow` to find `head`, `len` and `bytes`. The
cursors are never stored, so this is all the recovery there is.

The walk is a loop of seeks and gets a fuel argument; `none` means that it is still
walking when the fuel is used up. Any store call may fail (`OpenFault`). `Recovered`
says what a successful open over well-keyed entries has derived, and `open_recovered`
that it has.
-/

namespace PersistentQueue

/-- Error from opening a queue over a store. -/
inductive OpenError : Type where
  /-- the backend store failed -/
  | store
  /-- the store was written by an unsupported on-disk format version -/
  | unsupportedVersion (version : Byte)
  deriving DecidableEq

/-- The store call of an open that fails. -/
inductive OpenFault : Type where
  /-- reading the meta record -/
  | get
  /-- writing the meta record -/
  | commit (applied : List Bool)
  /-- finding the greatest entry -/
  | seekBack
  /-- the `n`-th seek of the walk, counted from zero -/
  | seek (n : ℕ)
  deriving DecidableEq

/-- What the walk over the entries derives. -/
structure Walk where
  /-- how many entries there are -/
  len : ℕ
  /-- their total size -/
  bytes : ℕ
  /-- the first seq -/
  head : ℕ
  deriving DecidableEq

namespace Builder

/-- The recovery loop: visit entry after entry, re-seeking from the key of `seq + 1`, until
a seek ends on a key that is not an entry or on nothing. -/
def recover (b : Builder) (st : Store) :
    ℕ → Option ℕ → Key → Walk → Option (Except OpenError Walk)
  | 0, _, _, _ => none
  | fuel + 1, fails, cursor, w =>
    if fails = some 0 then
      some (.error .store)
    else
      match st.seek cursor with
      | some (key, value) =>
        if isEntry key then
          b.recover st fuel (fails.map Nat.pred) (entryKey (u64Succ (seqOf key)))
            { len := Word.wrapAdd b.usizeBits w.len 1
              bytes := Word.wrapAdd b.usizeBits w.bytes value.length
              head := if w.len = 0 then seqOf key else w.head }
        else
          some (.ok w)
      | none => some (.ok w)

/-- Check the meta record, or write it into a store that has none. -/
def openMeta (b : Builder) (st : Store) (fault : Option OpenFault) :
    Store × Except OpenError Unit :=
  if fault = some .get then
    (st, .error .store)
  else
    match st.get metaKey with
    | some record =>
      let version := record.head?.getD 0
      if version ≠ formatVersion then (st, .error (.unsupportedVersion version)) else (st, .ok ())
    | none =>
      let ops := [Op.put metaKey [formatVersion]]
      match fault with
      | some (.commit applied) => (st.commit ops b.durability.durable (.err applied), .error .store)
      | _ => (st.commit ops b.durability.durable .ok, .ok ())

/-- The seq after the greatest entry, or zero. -/
def openTail (st : Store) : ℕ :=
  match st.seekBack entryHigh with
  | some (key, _) => if isEntry key then u64Succ (seqOf key) else 0
  | none => 0

/-- Open the queue, recovering any items already in the store. -/
def «open» (b : Builder) (st : Store) (fault : Option OpenFault) (fuel : ℕ) :
    Option (Store × Except OpenError Inner) :=
  match b.openMeta st fault with
  | (st', .error e) => some (st', .error e)
  | (st', .ok ()) =>
    if fault = some .seekBack then
      some (st', .error .store)
    else
      let tail := openTail st'
      let fails := match fault with
        | some (.seek n) => some n
        | _ => none
      match b.recover st' fuel fails entryLow { len := 0, bytes := 0, head := tail } with
      | none => none
      | some (.error e) => some (st', .error e)
      | some (.ok w) =>
        some (st', .ok
          { tail, head := w.head, ackedAbove := ∅, len := w.len, bytes := w.bytes
            reserved := ∅, closed := false })

end Builder

/-! ## What the walk finds -/

/-- The total size of a list of entries. -/
def totalBytes (es : List (ℕ × Bytes)) : ℕ := (es.map fun e => e.2.length).sum

section Walk

variable {b : Builder} {st : Store}

/-- The recovery loop takes in the entry it visits. -/
def Walk.visit (b : Builder) (w : Walk) (e : ℕ × Bytes) : Walk where
  len := Word.wrapAdd b.usizeBits w.len 1
  bytes := Word.wrapAdd b.usizeBits w.bytes e.2.length
  head := if w.len = 0 then e.1 else w.head

/-- The recovery loop takes in its visits in order, unless a seek fails, and returns when the
fuel is more than there are visits. -/
theorem recover_visits : ∀ (fuel : ℕ) (fails : Option ℕ) (cursor : Key) (w : Walk),
    b.recover st fuel fails cursor w =
      if ∃ n ∈ fails, n < fuel ∧ n ≤ (visits st everyEntry fuel cursor).length then
        some (.error .store)
      else if (visits st everyEntry fuel cursor).length < fuel then
        some (.ok ((visits st everyEntry fuel cursor).foldl (Walk.visit b) w))
      else none := by
  intro fuel
  induction fuel with
  | zero =>
    intro fails cursor w
    rw [if_neg (by simp), if_neg (by simp)]
    rfl
  | succ fuel ih =>
    intro fails cursor w
    by_cases hfails : fails = some 0
    · subst hfails
      simp [Builder.recover]
    · rw [Builder.recover, if_neg hfails]
      split
      · next key value hseek =>
        by_cases hkey : isEntry key = true
        · have hvisits : visits st everyEntry (fuel + 1) cursor = (seqOf key, value) ::
              visits st everyEntry fuel (entryKey (u64Succ (seqOf key))) :=
            visits_of_entry hseek hkey
          rw [if_pos hkey, ih, hvisits, List.length_cons, List.foldl_cons]
          exact if_congr (fails_later hfails).symm rfl
            (if_congr Nat.succ_lt_succ_iff.symm rfl rfl)
        · have hend : visits st everyEntry (fuel + 1) cursor = [] := by
            refine visits_of_end fun key' value' hseek' => ?_
            rw [hseek] at hseek'
            obtain ⟨rfl, -⟩ := Prod.mk.inj (Option.some.inj hseek')
            exact Bool.not_eq_true _ ▸ hkey
          rw [if_neg hkey, hend, List.length_nil, if_neg (not_fails hfails),
            if_pos (Nat.succ_pos fuel)]
          rfl
      · next hseek =>
        have hend : visits st everyEntry (fuel + 1) cursor = [] :=
          visits_of_end fun key value hseek' => by rw [hseek] at hseek'; cases hseek'
        rw [hend, List.length_nil, if_neg (not_fails hfails), if_pos (Nat.succ_pos fuel)]
        rfl

/-- What a walk takes in, entry by entry. The number of entries has to fit in a `usize`, or the
counter that marks the first one wraps. -/
theorem Walk.foldl_visit : ∀ {es : List (ℕ × Bytes)} {w : Walk},
    w.len + es.length < 2 ^ b.usizeBits →
    (es.foldl (Walk.visit b) w).len = w.len + es.length ∧
    ((es.foldl (Walk.visit b) w).bytes : ZMod (2 ^ b.usizeBits)) = w.bytes + totalBytes es ∧
    (w.bytes < 2 ^ b.usizeBits → (es.foldl (Walk.visit b) w).bytes < 2 ^ b.usizeBits) ∧
    (es.foldl (Walk.visit b) w).head =
      if w.len = 0 then (es.head?.map Prod.fst).getD w.head else w.head := by
  intro es
  induction es with
  | nil =>
    intro w _
    refine ⟨rfl, by simp [totalBytes], id, ?_⟩
    split <;> rfl
  | cons e es ih =>
    intro w hfit
    rw [List.length_cons] at hfit
    have hlen : (w.visit b e).len = w.len + 1 := Word.wrapAdd_of_lt (by omega)
    obtain ⟨hrlen, hrbytes, hrlt, hrhead⟩ := @ih (w.visit b e) (by rw [hlen]; omega)
    rw [hlen] at hrlen hrhead
    rw [List.foldl_cons]
    refine ⟨by rw [hrlen, List.length_cons]; omega, ?_, fun _ => hrlt (Word.wrapAdd_lt _ _ _), ?_⟩
    · rw [hrbytes, Walk.visit, Word.cast_wrapAdd]
      simp only [totalBytes, List.map_cons, List.sum_cons]
      push_cast
      ring
    · rw [hrhead, if_neg (Nat.succ_ne_zero _)]
      rfl

/-- The walk visits every entry once, with fuel for them. -/
theorem visits_everyEntry (hst : WellKeyed st.live)
    (hbound : ∀ s v, (items st.live).get? s = some v → s < u64Max) {fuel c : ℕ} {cursor : Key}
    (hlow : entryLow ≤ cursor) (hcursor : ∀ t, t < u64Size → (cursor ≤ entryKey t ↔ c ≤ t)) :
    visits st everyEntry fuel cursor = ((items st.live).above c).take fuel := by
  rw [visits_eq hst hlow hcursor (not_startsOver hbound)]
  exact congrArg (List.take fuel) (List.through_true _)

/-- What a walk that returned has counted: from `c` on, every item once. -/
theorem recover_ok (hst : WellKeyed st.live)
    (hbound : ∀ s v, (items st.live).get? s = some v → s < u64Max)
    {fuel : ℕ} {fails : Option ℕ} {c : ℕ} {cursor : Key} {w r : Walk} (hlow : entryLow ≤ cursor)
    (hcursor : ∀ t, t < u64Size → (cursor ≤ entryKey t ↔ c ≤ t))
    (hfit : w.len + ((items st.live).above c).length < 2 ^ b.usizeBits)
    (h : b.recover st fuel fails cursor w = some (.ok r)) :
    r.len = w.len + ((items st.live).above c).length ∧
    (r.bytes : ZMod (2 ^ b.usizeBits)) = w.bytes + totalBytes ((items st.live).above c) ∧
    (w.bytes < 2 ^ b.usizeBits → r.bytes < 2 ^ b.usizeBits) ∧
    r.head = if w.len = 0 then (((items st.live).above c).head?.map Prod.fst).getD w.head
      else w.head := by
  rw [recover_visits, visits_everyEntry hst hbound hlow hcursor] at h
  split at h
  · cases h
  · split at h
    · next hlength =>
      rw [List.length_take] at hlength
      rw [List.take_of_length_le (by omega)] at h
      obtain rfl := Except.ok.inj (Option.some.inj h)
      exact Walk.foldl_visit hfit
    · cases h

/-- What a walk counts stays a word, also when it wraps. -/
theorem recover_len_lt {fuel : ℕ} {fails : Option ℕ} {cursor : Key} {w r : Walk}
    (hw : w.len < 2 ^ b.usizeBits) (h : b.recover st fuel fails cursor w = some (.ok r)) :
    r.len < 2 ^ b.usizeBits := by
  induction fuel generalizing fails cursor w with
  | zero => cases h
  | succ fuel ih =>
    simp only [Builder.recover] at h
    split at h
    · cases h
    · split at h
      · split at h
        · exact ih (Word.wrapAdd_lt _ _ _) h
        · exact Except.ok.inj (Option.some.inj h) ▸ hw
      · exact Except.ok.inj (Option.some.inj h) ▸ hw

/-- The walk returns: with fuel for every item and one more. -/
theorem recover_total (hst : WellKeyed st.live)
    (hbound : ∀ s v, (items st.live).get? s = some v → s < u64Max)
    {fuel : ℕ} (fails : Option ℕ) {c : ℕ} {cursor : Key} {w : Walk} (hlow : entryLow ≤ cursor)
    (hcursor : ∀ t, t < u64Size → (cursor ≤ entryKey t ↔ c ≤ t))
    (hfuel : ((items st.live).above c).length < fuel) :
    ∃ r, b.recover st fuel fails cursor w = some r ∧ (fails = none → ∃ w', r = .ok w') := by
  have hlength : (visits st everyEntry fuel cursor).length < fuel := by
    rw [visits_everyEntry hst hbound hlow hcursor, List.length_take]
    omega
  rw [recover_visits, if_pos hlength]
  split
  · next hfails =>
    refine ⟨_, rfl, fun hnone => ?_⟩
    obtain ⟨n, hn, -⟩ := hfails
    rw [hnone] at hn
    cases hn
  · exact ⟨_, rfl, fun _ => ⟨_, rfl⟩⟩

end Walk

/-! ## What an open derives -/

/-- The cursors and counters are those of the stored items. -/
structure Recovered (b : Builder) (m : SortedMap ℕ Bytes) (i : Inner) : Prop where
  /-- every item is below the tail -/
  lt_tail : ∀ s v, m.get? s = some v → s < i.tail
  /-- the tail is right above the last item, or zero -/
  tail_pred : i.tail = 0 ∨ ∃ s v, m.get? s = some v ∧ i.tail = s + 1
  /-- every item is at or above the head -/
  head_le : ∀ s v, m.get? s = some v → i.head ≤ s
  /-- the head is the first item, or the tail -/
  head_eq : i.head = i.tail ∨ ∃ v, m.get? i.head = some v
  len_eq : i.len = m.size
  bytes_eq : i.bytes = m.sum (fun _ v => v.length) % 2 ^ b.usizeBits
  ackedAbove_eq : i.ackedAbove = ∅
  reserved_eq : i.reserved = ∅
  closed_eq : i.closed = false

/-- The tail is one above the last item, or zero when there is none. -/
theorem openTail_spec {st : Store} (hst : WellKeyed st.live)
    (hbound : ∀ s v, (items st.live).get? s = some v → s < u64Max) :
    (∀ s v, (items st.live).get? s = some v → s < Builder.openTail st) ∧
    (Builder.openTail st = 0 ∨
      ∃ s v, (items st.live).get? s = some v ∧ Builder.openTail st = s + 1) := by
  by_cases hne : ∃ t w, (items st.live).get? t = some w
  · obtain ⟨t, w, ht⟩ := hne
    obtain ⟨k, v, hback, hentry, hget, hlast⟩ := hst.seekBack_of_item ht
    have htail : Builder.openTail st = seqOf k + 1 := by
      simp only [Builder.openTail, Store.seekBack, hback, hentry, if_true]
      exact u64Succ_of_lt (hbound _ _ hget)
    rw [htail]
    exact ⟨fun s v hs => Nat.lt_succ_of_le (hlast s v hs), Or.inr ⟨_, v, hget, rfl⟩⟩
  · push Not at hne
    refine ⟨fun s v hs => absurd hs (hne s v), Or.inl ?_⟩
    rw [Builder.openTail]
    split
    · next key value hback =>
      have hget := (SortedMap.seekBack_eq_some hback).1
      rw [if_neg]
      intro hentry
      exact hne (seqOf key) value (by rw [get?_of_isEntry hentry]; exact hget)
    · rfl

/-- Checking the meta record writes nothing but the meta record. -/
theorem openMeta_store {b : Builder} {st st' : Store} {fault : Option OpenFault}
    {r : Except OpenError Unit} (h : b.openMeta st fault = (st', r)) :
    st' = st ∨
      ∃ o, st' = st.commit [Op.put metaKey [formatVersion]] b.durability.durable o := by
  rw [Builder.openMeta] at h
  split at h
  · exact Or.inl (Prod.mk.inj h).1.symm
  · split at h
    · simp only at h
      split at h <;> exact Or.inl (Prod.mk.inj h).1.symm
    · simp only at h
      split at h <;> exact Or.inr ⟨_, (Prod.mk.inj h).1.symm⟩

/-- Nor does an open, successful or not. -/
theorem open_store {b : Builder} {st st' : Store} {fault : Option OpenFault} {fuel : ℕ}
    {r : Except OpenError Inner} (h : b.open st fault fuel = some (st', r)) :
    st' = st ∨
      ∃ o, st' = st.commit [Op.put metaKey [formatVersion]] b.durability.durable o := by
  unfold Builder.open at h
  split at h
  · next hmeta =>
    obtain ⟨rfl, -⟩ := Prod.mk.inj (Option.some.inj h)
    exact openMeta_store hmeta
  · next hmeta =>
    split at h
    · obtain ⟨rfl, -⟩ := Prod.mk.inj (Option.some.inj h)
      exact openMeta_store hmeta
    · simp only at h
      split at h
      · cases h
      · obtain ⟨rfl, -⟩ := Prod.mk.inj (Option.some.inj h)
        exact openMeta_store hmeta
      · obtain ⟨rfl, -⟩ := Prod.mk.inj (Option.some.inj h)
        exact openMeta_store hmeta

/-- A write of the meta record leaves the items and the key space alone. -/
theorem items_commit_meta (st : Store) (durable : Bool) (o : Outcome) :
    items (st.commit [Op.put metaKey [formatVersion]] durable o).live = items st.live ∧
      (WellKeyed st.live →
        WellKeyed (st.commit [Op.put metaKey [formatVersion]] durable o).live) := by
  have hmeta : isEntry metaKey = false := by decide
  rw [Store.commit_one_live]
  split
  · exact ⟨items_apply_of_not_isEntry hmeta _,
      fun hst => hst.apply (fun h => absurd h (by decide)) _⟩
  · exact ⟨rfl, id⟩

theorem openMeta_items {b : Builder} {st st' : Store} {fault : Option OpenFault}
    {r : Except OpenError Unit} (h : b.openMeta st fault = (st', r)) :
    items st'.live = items st.live ∧ (WellKeyed st.live → WellKeyed st'.live) := by
  rcases openMeta_store h with rfl | ⟨o, rfl⟩
  · exact ⟨rfl, id⟩
  · exact items_commit_meta st _ o

/-- Every open, successful or not, leaves the items and the key space alone. -/
theorem open_items {b : Builder} {st st' : Store} {fault : Option OpenFault} {fuel : ℕ}
    {r : Except OpenError Inner} (h : b.open st fault fuel = some (st', r)) :
    items st'.live = items st.live ∧ (WellKeyed st.live → WellKeyed st'.live) := by
  rcases open_store h with rfl | ⟨o, rfl⟩
  · exact ⟨rfl, id⟩
  · exact items_commit_meta st _ o

/-- What a successful open went through: the meta record, then the walk. -/
theorem open_ok {b : Builder} {st st' : Store} {fault : Option OpenFault} {fuel : ℕ} {i : Inner}
    (h : b.open st fault fuel = some (st', .ok i)) :
    ∃ fails w, b.openMeta st fault = (st', .ok ()) ∧
      b.recover st' fuel fails entryLow { len := 0, bytes := 0, head := Builder.openTail st' } =
        some (.ok w) ∧
      i = { tail := Builder.openTail st', head := w.head, ackedAbove := ∅, len := w.len
            bytes := w.bytes, reserved := ∅, closed := false } := by
  unfold Builder.open at h
  split at h
  · cases (Prod.mk.inj (Option.some.inj h)).2
  · next st₁ hmeta =>
    split at h
    · cases (Prod.mk.inj (Option.some.inj h)).2
    · simp only at h
      split at h
      · cases h
      · cases (Prod.mk.inj (Option.some.inj h)).2
      · next w hwalk =>
        obtain ⟨hst, hi⟩ := Prod.mk.inj (Option.some.inj h)
        subst hst
        exact ⟨_, w, hmeta, hwalk, (Except.ok.inj hi).symm⟩

/-- Entries with seqs below the last `u64` are fewer than the numbers of a `usize`, unless that
is narrower than a seq. -/
theorem size_fits {m : SortedMap ℕ Bytes} {usizeBits : ℕ}
    (hbound : ∀ t v, m.get? t = some v → t < u64Max)
    (hnarrow : usizeBits < 64 → m.size < 2 ^ usizeBits) : m.size < 2 ^ usizeBits := by
  by_cases h : usizeBits < 64
  · exact hnarrow h
  · have hsize := SortedMap.size_le_of_lt hbound
    have hpow : 2 ^ 64 ≤ 2 ^ usizeBits := Nat.pow_le_pow_right (by decide) (not_lt.mp h)
    rw [u64Max, u64Size] at hsize
    omega

/-- **Recovery.** A successful open over well-keyed entries below the last `u64`, whose
number fits in a `usize`, derives the cursors and counters of those entries. -/
theorem open_recovered {b : Builder} {st st' : Store} {fault : Option OpenFault} {fuel : ℕ}
    {i : Inner} (hst : WellKeyed st.live)
    (hbound : ∀ s v, (items st.live).get? s = some v → s < u64Max)
    (hfit : (items st.live).size < 2 ^ b.usizeBits)
    (h : b.open st fault fuel = some (st', .ok i)) : Recovered b (items st'.live) i := by
  have hitems := open_items h
  rw [← hitems.1] at hbound hfit
  have hst' := hitems.2 hst
  obtain ⟨fails, w, -, hwalk, rfl⟩ := open_ok h
  obtain ⟨htail, hpred⟩ := openTail_spec hst' hbound
  have habove : (items st'.live).above 0 = (items st'.live).entries :=
    SortedMap.above_eq_entries fun _ _ _ => Nat.zero_le _
  obtain ⟨hlen, hbytes, hlt, hhead⟩ := recover_ok hst' hbound (le_refl _) entryLow_bound
    (by rw [habove, zero_add]; exact hfit) hwalk
  simp only [habove, if_true, Nat.cast_zero, zero_add] at hlen hbytes hlt hhead
  have hsorted := (items st'.live).sorted
  refine
    { lt_tail := htail, tail_pred := hpred, len_eq := hlen, ackedAbove_eq := rfl
      reserved_eq := rfl, closed_eq := rfl
      bytes_eq := Word.eq_mod_of_cast_eq (hlt (Nat.two_pow_pos _)) hbytes, head_le := ?_
      head_eq := ?_ }
  · intro s v hs
    have hmem := SortedMap.get?_eq_some.mp hs
    simp only [hhead]
    rcases hent : (items st'.live).entries with _ | ⟨e, es⟩
    · rw [hent] at hmem
      cases hmem
    · rw [hent] at hmem hsorted
      rcases List.mem_cons.mp hmem with rfl | hmem
      · exact le_refl _
      · exact (List.rel_of_pairwise_cons hsorted hmem).le
  · simp only [hhead]
    rcases hent : (items st'.live).entries with _ | ⟨e, es⟩
    · exact Or.inl rfl
    · refine Or.inr ⟨e.2, SortedMap.get?_eq_some.mpr ?_⟩
      rw [hent]
      exact List.mem_cons_self

/-- An open returns, with fuel for every item and one more. -/
theorem open_total {b : Builder} {st : Store} (hst : WellKeyed st.live)
    (hbound : ∀ s v, (items st.live).get? s = some v → s < u64Max) (fault : Option OpenFault) :
    ∃ r, b.open st fault ((items st.live).size + 1) = some r := by
  unfold Builder.open
  split
  · exact ⟨_, rfl⟩
  · next st' hmeta =>
    split
    · exact ⟨_, rfl⟩
    · obtain ⟨hitems, hkeyed⟩ := openMeta_items hmeta
      rw [← hitems] at hbound ⊢
      have habove : (items st'.live).above 0 = (items st'.live).entries :=
        SortedMap.above_eq_entries fun _ _ _ => Nat.zero_le _
      simp only
      have hfuel : ((items st'.live).above 0).length < (items st'.live).size + 1 := by
        rw [habove]
        exact Nat.lt_succ_self _
      obtain ⟨r, hr, -⟩ := recover_total (b := b) (hkeyed hst) hbound _ (le_refl entryLow)
        entryLow_bound hfuel
      rw [hr]
      cases r <;> exact ⟨_, rfl⟩

/-- An open whose store calls succeed returns `Ok` if the version is supported or absent. -/
theorem open_supported {b : Builder} {st : Store} (hst : WellKeyed st.live)
    (hbound : ∀ s v, (items st.live).get? s = some v → s < u64Max)
    (hversion : ∀ record, st.get metaKey = some record → record.head?.getD 0 = formatVersion)
    {fuel : ℕ} (hfuel : (items st.live).size < fuel) :
    ∃ inner, b.open st none fuel = some ((b.openMeta st none).1, .ok inner) := by
  obtain ⟨st', hmeta⟩ : ∃ st', b.openMeta st none = (st', .ok ()) := by
    rw [Builder.openMeta]
    rcases hget : st.get metaKey with _ | record
    · exact ⟨_, rfl⟩
    · refine ⟨st, ?_⟩
      simp only [hversion record hget]
      rfl
  obtain ⟨hitems, hkeyed⟩ := openMeta_items hmeta
  rw [← hitems] at hbound hfuel
  have habove : (items st'.live).above 0 = (items st'.live).entries :=
    SortedMap.above_eq_entries fun _ _ _ => Nat.zero_le _
  have hlength : ((items st'.live).above 0).length < fuel := by
    rw [habove]
    exact hfuel
  obtain ⟨r, hr, hok⟩ := recover_total (b := b) (hkeyed hst) hbound none (le_refl entryLow)
    (w := { len := 0, bytes := 0, head := Builder.openTail st' }) entryLow_bound hlength
  obtain ⟨w, rfl⟩ := hok rfl
  simp only [Builder.open, hmeta, reduceCtorEq, if_false, hr]
  exact ⟨_, rfl⟩

/-- An open over a store that was opened before returns `Ok`, and leaves the store alone. -/
theorem open_again {b : Builder} {st : Store} (hst : WellKeyed st.live)
    (hbound : ∀ s v, (items st.live).get? s = some v → s < u64Max) {record : Bytes}
    (hget : st.get metaKey = some record) (hversion : record.head?.getD 0 = formatVersion)
    {fuel : ℕ} (hfuel : (items st.live).size < fuel) :
    ∃ inner, b.open st none fuel = some (st, .ok inner) := by
  have hmeta : (b.openMeta st none).1 = st := by
    simp only [Builder.openMeta, hget, hversion]
    rfl
  obtain ⟨inner, hopen⟩ := open_supported (b := b) hst hbound (fun record' hget' => by
    obtain rfl := Option.some.inj (hget.symm.trans hget')
    exact hversion) hfuel
  rw [hmeta] at hopen
  exact ⟨inner, hopen⟩

/-- After an open that returned `Ok` the meta record has this version. -/
theorem open_version {b : Builder} {st st' : Store} {fault : Option OpenFault} {fuel : ℕ}
    {i : Inner} (h : b.open st fault fuel = some (st', .ok i)) :
    ∃ record, st'.get metaKey = some record ∧ record.head?.getD 0 = formatVersion := by
  obtain ⟨-, -, hmeta, -⟩ := open_ok h
  rw [Builder.openMeta] at hmeta
  split at hmeta
  · cases (Prod.mk.inj hmeta).2
  · split at hmeta
    · next record hget =>
      simp only at hmeta
      split at hmeta
      · cases (Prod.mk.inj hmeta).2
      · next hversion =>
        obtain ⟨rfl, -⟩ := Prod.mk.inj hmeta
        exact ⟨record, hget, not_not.mp hversion⟩
    · simp only at hmeta
      split at hmeta
      · cases (Prod.mk.inj hmeta).2
      · obtain ⟨rfl, -⟩ := Prod.mk.inj hmeta
        refine ⟨[formatVersion], ?_, rfl⟩
        exact SortedMap.get?_insert_self _ _ _

/-- The tail is one above the last item, or zero. -/
theorem Recovered.tail_eq {b : Builder} {m : SortedMap ℕ Bytes} {i : Inner} (h : Recovered b m i) :
    i.tail = (m.entries.getLast?.map fun e => e.1 + 1).getD 0 := by
  rcases h.tail_pred with hzero | ⟨s, v, hs, htail⟩
  · have hnil : m.entries = [] := by
      refine List.eq_nil_iff_forall_not_mem.mpr fun e he => ?_
      have hlt := h.lt_tail e.1 e.2 (SortedMap.get?_eq_some.mpr he)
      omega
    rw [hnil, hzero]
    rfl
  · have hlast : m.entries.getLast? = some (s, v) := by
      refine SortedMap.getLast?_eq_some hs fun a w ha => ?_
      have hlt := h.lt_tail a w ha
      omega
    rw [hlast, htail]
    rfl

/-! ## What an open comes to -/

/-- The cursors and counters are exactly those of the stored items. -/
structure Derives (m : SortedMap ℕ Bytes) (i : Inner) : Prop where
  /-- the seq after the last item, or zero -/
  tail : i.tail = (m.entries.getLast?.map fun e => e.1 + 1).getD 0
  /-- the seq of the first item, or the tail -/
  head : i.head = (m.entries.head?.map Prod.fst).getD i.tail
  /-- how many items there are -/
  len : i.len = m.size
  /-- their total size -/
  bytes : i.bytes = m.sum fun _ v => v.length
  ackedAbove : i.ackedAbove = ∅
  reserved : i.reserved = ∅
  closed : i.closed = false

theorem Recovered.derives {b : Builder} {m : SortedMap ℕ Bytes} {i : Inner}
    (h : Recovered b m i) (hsum : (m.sum fun _ v => v.length) < 2 ^ b.usizeBits) : Derives m i := by
  refine ⟨h.tail_eq, ?_, h.len_eq, ?_, h.ackedAbove_eq, h.reserved_eq, h.closed_eq⟩
  · have hsorted := m.sorted
    rcases hentries : m.entries with _ | ⟨e, es⟩
    · rcases h.head_eq with heq | ⟨v, hv⟩
      · exact heq
      · have hmem := SortedMap.get?_eq_some.mp hv
        rw [hentries] at hmem
        cases hmem
    · have hfirst : m.get? e.1 = some e.2 :=
        SortedMap.get?_eq_some.mpr (hentries ▸ List.mem_cons_self)
      refine le_antisymm (h.head_le _ _ hfirst) ?_
      rcases h.head_eq with heq | ⟨v, hv⟩
      · exact heq ▸ (h.lt_tail _ _ hfirst).le
      · have hmem := SortedMap.get?_eq_some.mp hv
        rw [hentries] at hmem hsorted
        rcases List.mem_cons.mp hmem with heq | hmem
        · exact (congrArg Prod.fst heq).ge
        · exact (List.rel_of_pairwise_cons hsorted hmem).le
  · rw [h.bytes_eq, Nat.mod_eq_of_lt hsum]

/-- Only one state is derived from the items. -/
theorem Derives.unique {m : SortedMap ℕ Bytes} {i j : Inner} (hi : Derives m i)
    (hj : Derives m j) : i = j := by
  obtain ⟨tail, head, above, len, bytes, reserved, closed⟩ := i
  obtain ⟨tail', head', above', len', bytes', reserved', closed'⟩ := j
  obtain rfl : tail = tail' := hi.tail.trans hj.tail.symm
  obtain rfl : head = head' := hi.head.trans hj.head.symm
  obtain rfl : above = above' := hi.ackedAbove.trans hj.ackedAbove.symm
  obtain rfl : len = len' := hi.len.trans hj.len.symm
  obtain rfl : bytes = bytes' := hi.bytes.trans hj.bytes.symm
  obtain rfl : reserved = reserved' := hi.reserved.trans hj.reserved.symm
  obtain rfl : closed = closed' := hi.closed.trans hj.closed.symm
  rfl

/-- **Recovery is exact.** An open over well-keyed entries below the last `u64`, with a
supported version or none, returns; it derives the state of the stored items and writes
nothing but a missing meta record, and a second open derives the same. With an unsupported
version it fails and writes nothing. On a target whose `usize` is narrower than a seq, the
number of entries has to be one. -/
theorem open_derives_stored {b : Builder} {st : Store} (hkeyed : WellKeyed st.live)
    (hbound : ∀ s v, (items st.live).get? s = some v → s < u64Max)
    (hcount : b.usizeBits < 64 → (items st.live).size < 2 ^ b.usizeBits)
    (hsum : ((items st.live).sum fun _ v => v.length) < 2 ^ b.usizeBits) :
    ((∀ record, st.get metaKey = some record → record.head?.getD 0 = formatVersion) →
      ∃ st' inner, Derives (items st.live) inner ∧
        (∀ fuel, (items st.live).size < fuel → b.open st none fuel = some (st', .ok inner)) ∧
        (∀ key, key ≠ metaKey → st'.get key = st.get key) ∧
        (∀ record, st.get metaKey = some record → st' = st) ∧
        ∀ (b' : Builder) (fuel : ℕ), b'.usizeBits = b.usizeBits → (items st'.live).size < fuel →
          b'.open st' none fuel = some (st', .ok inner)) ∧
    ∀ record, st.get metaKey = some record → record.head?.getD 0 ≠ formatVersion →
      ∀ fuel, b.open st none fuel =
        some (st, .error (.unsupportedVersion (record.head?.getD 0))) := by
  have hfit := size_fits hbound hcount
  refine ⟨fun hversion => ?_, fun record hget hversion fuel => ?_⟩
  · -- what an open that returned `Ok` derived
    have hderives : ∀ {b' : Builder} {st₁ st₂ : Store} {fuel inner},
        b'.usizeBits = b.usizeBits → items st₁.live = items st.live → WellKeyed st₁.live →
        b'.open st₁ none fuel = some (st₂, .ok inner) → Derives (items st.live) inner := by
      intro b' st₁ st₂ fuel inner hbits hitems hkeyed₁ hopen
      have hrecovered := open_recovered hkeyed₁ (hitems.symm ▸ hbound)
        (hitems.symm ▸ hbits.symm ▸ hfit) hopen
      rw [(open_items hopen).1, hitems] at hrecovered
      exact hrecovered.derives (hbits.symm ▸ hsum)
    obtain ⟨inner, hopen⟩ := open_supported (b := b) hkeyed hbound hversion (Nat.lt_succ_self _)
    have hinner := hderives rfl rfl hkeyed hopen
    obtain ⟨hitems, hkeyed'⟩ := open_items hopen
    obtain ⟨record, hget, hformat⟩ := open_version hopen
    refine ⟨(b.openMeta st none).1, inner, hinner, fun fuel hfuel => ?_, fun key hkey => ?_,
      fun record hget => ?_, fun b' fuel hbits hfuel => ?_⟩
    · obtain ⟨inner', hopen'⟩ := open_supported (b := b) hkeyed hbound hversion hfuel
      rw [hopen', hinner.unique (hderives rfl rfl hkeyed hopen')]
    · rcases open_store hopen with hst | ⟨o, hst⟩
      · rw [hst]
      · rw [hst, Store.get, Store.commit_one_live]
        split
        · exact SortedMap.get?_insert_ne _ _ hkey
        · rfl
    · simp only [Builder.openMeta, hget, hversion record hget]
      rfl
    · obtain ⟨inner', hopen'⟩ := open_again (b := b') (hkeyed' hkeyed) (hitems.symm ▸ hbound)
        hget hformat hfuel
      rw [hopen', hinner.unique (hderives hbits hitems (hkeyed' hkeyed) hopen')]
  · have hmeta : b.openMeta st none =
        (st, .error (.unsupportedVersion (record.head?.getD 0))) := by
      simp only [Builder.openMeta, hget]
      exact if_pos hversion
    simp only [Builder.open, hmeta]

/-- A store with two entries, a gap between them, and keys of other kinds around them. -/
def mixed : Store :=
  Store.empty.commit
    [.put [] [9], .put [0, 5] [8], .put (entryKey 3) [1], .put (entryKey 5) [2, 2], .put [2] []]
    true .ok

/-- `open_derives_stored` over that store. -/
theorem open_derives_stored_mixed :
    ∃ st' inner, Derives (items mixed.live) inner ∧
      Builder.default64.open mixed none 3 = some (st', .ok inner) ∧
      Builder.default64.open st' none 3 = some (st', .ok inner) := by
  have hkeyed : WellKeyed mixed.live := by decide
  have hseqs : ∀ e ∈ (items mixed.live).entries, e.1 < u64Max := by decide
  obtain ⟨st', inner, hderives, hopen, -, -, hagain⟩ :=
    (open_derives_stored (b := .default64) hkeyed
      (fun t v ht => hseqs (t, v) (SortedMap.get?_eq_some.mp ht)) (by decide) (by decide)).1
      fun record hget => (by cases hget)
  have hfirst := hopen 3 (by decide)
  have hsize : (items st'.live).size < 3 := by
    rw [(open_items hfirst).1]
    decide
  exact ⟨st', inner, hderives, hfirst, hagain _ 3 rfl hsize⟩

/-! ## More entries than a `usize` can count -/

/-- A store with an empty entry under every seq below a number. -/
def crowded : ℕ → Store
  | 0 => Store.empty
  | n + 1 => (crowded n).commit [.put (entryKey n) []] true .ok

/-- What that store holds. -/
structure Crowded (n : ℕ) (st : Store) : Prop where
  keyed : WellKeyed st.live
  no_meta : st.get metaKey = none
  size : (items st.live).size = n
  stored : ∀ t v, (items st.live).get? t = some v → t < n ∧ v = []

theorem crowded_spec : ∀ {n : ℕ}, n ≤ u64Max → Crowded n (crowded n) := by
  intro n
  induction n with
  | zero =>
    exact fun _ => ⟨fun _ _ h => (by cases h), rfl, rfl, fun _ _ h => (by cases h)⟩
  | succ n ih =>
    intro hn
    have hlt : n < u64Size := by
      rw [u64Max] at hn
      omega
    obtain ⟨hkeyed, hmeta, hsize, hstored⟩ := ih (Nat.le_of_succ_le hn)
    have hlive : (crowded (n + 1)).live = (crowded n).live.apply (entryKey n, some []) :=
      Store.commit_one_live _ _ _ _
    have hitems : items (crowded (n + 1)).live = (items (crowded n).live).insert n [] := by
      rw [hlive]
      exact items_apply hlt (some [])
    have hnone : (items (crowded n).live).get? n = none := by
      rcases hget : (items (crowded n).live).get? n with _ | v
      · rfl
      · exact absurd (hstored n v hget).1 (lt_irrefl _)
    refine ⟨?_, ?_, ?_, fun t v ht => ?_⟩
    · rw [hlive]
      exact hkeyed.apply (fun _ => isEntry_entryKey _) _
    · rw [Store.get, hlive]
      -- the meta key and an entry key begin with different bytes
      exact (SortedMap.get?_insert_ne _ _ fun heq => by cases heq).trans hmeta
    · rw [hitems, SortedMap.size_insert_of_none _ hnone, hsize]
    · rw [hitems] at ht
      rcases SortedMap.of_get?_insert ht with ⟨rfl, rfl⟩ | ⟨-, ht⟩
      · exact ⟨Nat.lt_succ_self _, rfl⟩
      · exact ⟨(hstored t v ht).1.trans (Nat.lt_succ_self _), (hstored t v ht).2⟩

/-- An open over more entries than a `usize` can count does not derive their number. -/
theorem open_crowded {b : Builder} {n : ℕ} (hn : n ≤ u64Max) (hmany : 2 ^ b.usizeBits ≤ n) :
    ∃ st' inner, b.open (crowded n) none (n + 1) = some (st', .ok inner) ∧
      inner.len < 2 ^ b.usizeBits ∧ ¬Derives (items (crowded n).live) inner := by
  obtain ⟨hkeyed, hmeta, hsize, hstored⟩ := crowded_spec hn
  have hfuel : (items (crowded n).live).size < n + 1 := by omega
  obtain ⟨inner, hopen⟩ := open_supported (b := b) hkeyed
    (fun t v ht => (hstored t v ht).1.trans_le hn)
    (fun record hget => by rw [hmeta] at hget; cases hget) hfuel
  obtain ⟨fails, w, -, hwalk, rfl⟩ := open_ok hopen
  have hlen := recover_len_lt (Nat.two_pow_pos _) hwalk
  refine ⟨_, _, hopen, hlen, fun h => ?_⟩
  have hcount : w.len = n := h.len.trans hsize
  omega

/-- On a 32-bit target, a store with `2 ^ 32` empty entries: keys and values are as an open
expects them, and it counts fewer entries than there are. -/
theorem open_counts_wrapped :
    WellKeyed (crowded (2 ^ 32)).live ∧
      (∀ t v, (items (crowded (2 ^ 32)).live).get? t = some v → t < u64Max) ∧
      ((items (crowded (2 ^ 32)).live).sum fun _ v => v.length) < 2 ^ 32 ∧
      (crowded (2 ^ 32)).get metaKey = none ∧ (items (crowded (2 ^ 32)).live).size = 2 ^ 32 ∧
      ∃ st' inner, Builder.default32.open (crowded (2 ^ 32)) none (2 ^ 32 + 1) =
          some (st', .ok inner) ∧
        inner.len < 2 ^ 32 ∧ ¬Derives (items (crowded (2 ^ 32)).live) inner := by
  have hle : 2 ^ 32 ≤ u64Max := by decide
  have hspec := crowded_spec hle
  have hsum : ((items (crowded (2 ^ 32)).live).sum fun _ v => v.length) = 0 := by
    refine SortedMap.sum_eq_zero_iff.mpr fun t v ht => ?_
    rw [(hspec.stored t v ht).2]
    rfl
  exact ⟨hspec.keyed, fun t v ht => (hspec.stored t v ht).1.trans_le hle,
    hsum ▸ Nat.two_pow_pos _, hspec.no_meta, hspec.size, open_crowded hle (le_refl _)⟩

end PersistentQueue
