import PersistentQueue.Session

/-!
# Opening over any contents

A store that is given to the queue may already hold any keys. Open looks at one key for the
tail: the greatest one up to `entryHigh`. If that is an entry, and not the one of the last
`u64`, the tail is above every entry (`openTail_above_iff`). Otherwise the tail is zero, whatever
entries there are, and the pushes to come claim their seqs again.

Above the entries the tail is a fence: pushes write at or above it, and below it only acks do
(`Ledger.Fenced`). This takes no more of the store than that, and so it holds over keys of any
shape.
-/

namespace PersistentQueue

/-- The greatest key up to the greatest entry key is an entry, not that of the last `u64`. -/
def LastIsEntry (m : SortedMap Key Bytes) : Prop :=
  ∃ e ∈ m.seekBack entryHigh, isEntry e.1 = true ∧ seqOf e.1 < u64Max

instance : DecidablePred LastIsEntry := fun m =>
  inferInstanceAs (Decidable (∃ e ∈ m.seekBack entryHigh, isEntry e.1 = true ∧ seqOf e.1 < u64Max))

/-- The tail is above every entry exactly if there is none or the last key is one. -/
theorem openTail_above_iff {st : Store} :
    (∀ t v, (items st.live).get? t = some v → t < Builder.openTail st) ↔
      (∀ t, (items st.live).get? t = none) ∨ LastIsEntry st.live := by
  constructor
  · intro htail
    by_contra hbad
    obtain ⟨hsome, hlast⟩ := not_or.mp hbad
    -- the tail is zero then
    have hzero : Builder.openTail st = 0 := by
      rw [Builder.openTail]
      split
      · next key value hback =>
        split
        · next hkey =>
          have hmax : seqOf key = u64Max := by
            refine le_antisymm (Nat.le_sub_one_of_lt (seqOf_lt hkey)) (not_lt.mp fun hlt => ?_)
            exact hlast ⟨(key, value), hback, hkey, hlt⟩
          rw [hmax]
          rfl
        · rfl
      · rfl
    push Not at hsome
    obtain ⟨t, ht⟩ := hsome
    obtain ⟨v, hv⟩ := Option.ne_none_iff_exists'.mp ht
    have hlt := htail t v hv
    rw [hzero] at hlt
    exact absurd hlt (Nat.not_lt_zero t)
  · rintro (hnone | ⟨⟨key, value⟩, hback, hkey, hlt⟩) t v ht
    · rw [hnone] at ht
      cases ht
    · obtain ⟨htlt, ht⟩ := mem_items.mp ht
      have hback : st.seekBack entryHigh = some (key, value) := hback
      have hkey : isEntry key = true := hkey
      have hle := (SortedMap.seekBack_eq_some hback).2.2 _ v ht (entryKey_le_entryHigh htlt)
      rw [← entryKey_seqOf hkey, entryKey_le_entryKey htlt (seqOf_lt hkey)] at hle
      simp only [Builder.openTail, hback, hkey, if_true, u64Succ_of_lt hlt]
      exact Nat.lt_succ_of_le hle

theorem openTail_le (st : Store) : Builder.openTail st ≤ u64Max := by
  rw [Builder.openTail]
  split
  · split
    · exact Nat.le_sub_one_of_lt (u64Succ_lt _)
    · exact Nat.zero_le _
  · exact Nat.zero_le _

/-- A map that differs in the meta record only has the same last entry. -/
theorem LastIsEntry.of_meta {m n : SortedMap Key Bytes}
    (hsame : ∀ k, k ≠ metaKey → n.get? k = m.get? k) (h : LastIsEntry m) : LastIsEntry n := by
  obtain ⟨⟨key, value⟩, hback, hentry, hlt⟩ := h
  have hkey : isEntry key = true := hentry
  obtain ⟨hget, hle, hgreatest⟩ := SortedMap.seekBack_eq_some hback
  have hmeta : metaKey < key := by
    rw [← entryKey_seqOf hkey]
    exact metaKey_lt_entryLow.trans_le (entryLow_le_entryKey _)
  refine ⟨(key, value), SortedMap.seekBack_of_greatest ?_ hle fun k v hk hkle => ?_, hkey, hlt⟩
  · rw [hsame key hmeta.ne']
    exact hget
  · by_cases heq : k = metaKey
    · rw [heq]
      exact hmeta.le
    · rw [hsame k heq] at hk
      exact hgreatest k v hk hkle

/-- The queue was just opened over a store, whatever that holds. -/
def OpensOver (b : Builder) (st : Store) (s : Session) : Prop :=
  ∃ fault fuel st' inner log, b.open st fault fuel = some (st', .ok inner) ∧
    s = Session.opened b st' inner log

/-- The entries of the map are still there, or an ack of theirs was called, and no push has
written to any of their keys. -/
structure KeepsEntries (m₀ : SortedMap ℕ Bytes) (l : Ledger) : Prop where
  kept : ∀ t v, m₀.get? t = some v →
    l.items.get? t = some v ∨ .ackCalled t ∈ thisSession l.log
  not_put : ∀ t v, m₀.get? t = some v → ∀ w old ok, .put t w old ok ∉ thisSession l.log

namespace Ledger

variable {l l' : Ledger} {m : Move} {start : ℕ} {m₀ : SortedMap ℕ Bytes}

/-- Pushes write at or above `start`, and below it only acks do. -/
structure Fenced (start : ℕ) (m₀ : SortedMap ℕ Bytes) (l : Ledger) : Prop where
  start_le : start ≤ l.inner.tail
  tail_le : l.inner.tail ≤ u64Max
  write_ge : ∀ t w, l.writes.get? t = some w → start ≤ t ∧ t < l.inner.tail
  found_lt : ∀ r t v behind, l.reserves.get? r = some ⟨.checking t v, behind⟩ → t < u64Size
  guard_lt : ∀ g gd, l.guards.get? g = some gd → gd.seq < u64Size
  put_ge : ∀ t v old ok, .put t v old ok ∈ thisSession l.log → start ≤ t
  kept : ∀ t v, t < start → m₀.get? t = some v →
    l.items.get? t = some v ∨ .ackCalled t ∈ thisSession l.log

theorem Fenced.tail_free (h : l.Fenced start m₀) : l.writes.get? l.inner.tail = none := by
  rcases hw : l.writes.get? l.inner.tail with _ | w
  · rfl
  · exact absurd (h.write_ge _ w hw).2 (lt_irrefl _)

/-- A scan finds entries only. -/
theorem Fenced.found_moved (h : l.Fenced start m₀) (hm : Moved l m l') {r t : ℕ} {v : Bytes}
    {behind : Finset ℕ} (hr : l'.reserves.get? r = some ⟨.checking t v, behind⟩) :
    t < u64Size := by
  cases hm with
  | reserve | skipped =>
    rcases SortedMap.of_get?_insert hr with ⟨-, heq⟩ | ⟨-, hr⟩
    · cases heq
    · exact h.found_lt r t v behind hr
  | found _ _ hkey =>
    rcases SortedMap.of_get?_insert hr with ⟨-, heq⟩ | ⟨-, hr⟩
    · cases heq
      exact seqOf_lt hkey
    · exact h.found_lt r t v behind hr
  | ended | handedOut => exact h.found_lt r t v behind (SortedMap.of_get?_erase hr).2
  | put =>
    obtain ⟨⟨pc, behind₀⟩, hr₀, rfl⟩ := reserves_put hr
    exact h.found_lt r t v behind₀ hr₀
  | call | turnedAway | waits | claim | giveBack | close | remove | record | release | returned
  | gaveUp => exact h.found_lt r t v behind hr

/-- Only an ack takes away what is below the fence. -/
theorem Fenced.kept_moved (h : l.Fenced start m₀) (hm : Moved l m l') {t : ℕ} {v : Bytes}
    (ht : t < start) (hget : m₀.get? t = some v) :
    l'.items.get? t = some v ∨ .ackCalled t ∈ thisSession l'.log := by
  rcases h.kept t v ht hget with hold | hacked
  · cases hm with
    | @put seq w hw hstage durable o =>
      obtain ⟨hge, hlt⟩ := h.write_ge seq w hw
      have hsize := lt_u64Size_of_lt_u64Max (hlt.trans_le h.tail_le)
      refine Or.inl ?_
      rw [get?_items_put hsize, if_neg fun hand => (ht.trans_le hge).ne hand.2]
      exact hold
    | @remove g gd hg hpc o =>
      by_cases heq : t = gd.seq
      · subst heq
        have hcalled : .ackCalled gd.seq ∈ thisSession (l.remove g gd o).log := by
          simp only [remove]
          split <;> simp
        exact Or.inr hcalled
      · refine Or.inl ?_
        rw [get?_items_remove (h.guard_lt g gd hg), if_neg fun hand => heq hand.2]
        exact hold
    | call | turnedAway | waits | claim | giveBack | close | reserve | ended | found | skipped
    | handedOut | record | release | returned | gaveUp => exact Or.inl hold
  · exact Or.inr (session_mono hm hacked)

theorem Fenced.moved (h : l.Fenced start m₀) (hbelow : l.Below m) (hm : Moved l m l') :
    l'.Fenced start m₀ := by
  have htail := tail_mono hbelow hm
  refine ⟨h.start_le.trans htail, ?_, fun t w hw => ?_, fun r t v behind hr => h.found_moved hm hr,
    fun g gd hg => ?_, fun t v old ok hput => ?_, fun t v ht hget => h.kept_moved hm ht hget⟩
  · cases hm with
    | claim hc hroom hopen =>
      have hlt : l.inner.tail < u64Max := hbelow ⟨hopen, _, hc, hroom⟩
      exact (u64Succ_of_lt hlt).trans_le hlt
    | record => exact Inner.recordAck_tail.trans_le h.tail_le
    | _ => exact h.tail_le
  · rcases of_writes hm hw with ⟨w₀, hold, -⟩ | ⟨k, c, rfl, -, rfl, -, hclaim⟩
    · exact ⟨(h.write_ge t w₀ hold).1, (h.write_ge t w₀ hold).2.trans_le htail⟩
    · exact ⟨h.start_le, (Nat.lt_succ_self _).trans_eq (claimed_tail hbelow hm hclaim).2.symm⟩
  · rcases of_guards hm hg with ⟨gd₀, hold, hseq, -⟩ | ⟨r, behind, -, hr, -⟩
    · exact hseq ▸ h.guard_lt g gd₀ hold
    · exact h.found_lt r _ _ _ hr
  · rcases mem_session hm hput with hold | ⟨w, durable, o, -, hw, -⟩
    · exact h.put_ge t v old ok hold
    · exact (h.write_ge t w hw).1

theorem Fenced.keepsEntries (h : l.Fenced start m₀)
    (hbelow : ∀ t v, m₀.get? t = some v → t < start) : KeepsEntries m₀ l where
  kept := fun t v hget => h.kept t v (hbelow t v hget) hget
  not_put := fun t v hget w old ok hput =>
    absurd (h.put_ge t w old ok hput) (hbelow t v hget).not_ge

end Ledger

namespace OpensOver

variable {b : Builder} {st : Store} {s₀ : Session}

theorem linked (h : OpensOver b st s₀) : Linked s₀ := by
  obtain ⟨fault, fuel, st', inner, log, -, rfl⟩ := h
  refine ⟨Group.inv_init, fun t c hc => ?_, fun _ _ => rfl⟩
  cases hc

/-- The tail is above every entry exactly if the store says so. -/
theorem tail_above_iff (h : OpensOver b st s₀) :
    (∀ t v, s₀.items.get? t = some v → t < s₀.inner.tail) ↔
      (∀ t, (items st.live).get? t = none) ∨ LastIsEntry st.live := by
  obtain ⟨fault, fuel, st', inner, log, hopen, rfl⟩ := h
  obtain ⟨fails, w, -, -, hinner⟩ := open_ok hopen
  have htail : inner.tail = Builder.openTail st' := by rw [hinner]
  have hitems := (open_items hopen).1
  have hlast : LastIsEntry st'.live ↔ LastIsEntry st.live := by
    rcases open_store hopen with rfl | ⟨o, rfl⟩
    · rfl
    · have hsame : ∀ k, k ≠ metaKey → (st.commit [.put metaKey [formatVersion]]
          b.durability.durable o).live.get? k = st.live.get? k := by
        intro k hk
        rw [Store.commit_one_live]
        split
        · exact SortedMap.get?_insert_ne _ _ hk
        · rfl
      exact ⟨LastIsEntry.of_meta fun k hk => (hsame k hk).symm, LastIsEntry.of_meta hsame⟩
  have hiff : (∀ t v, (items st'.live).get? t = some v → t < Builder.openTail st') ↔
      (∀ t, (items st'.live).get? t = none) ∨ LastIsEntry st'.live := openTail_above_iff
  rw [hlast, hitems, ← htail] at hiff
  rw [← hiff, ← hitems]
  rfl

theorem fenced (h : OpensOver b st s₀) : s₀.toLedger.Fenced s₀.inner.tail s₀.items := by
  obtain ⟨fault, fuel, st', inner, log, hopen, rfl⟩ := h
  obtain ⟨fails, w, -, -, rfl⟩ := open_ok hopen
  refine ⟨le_refl _, openTail_le st', fun t w hw => ?_, fun r t v behind hr => ?_,
    fun g gd hg => ?_, fun t v old ok hput => ?_, fun t v _ hget => Or.inl hget⟩
  · cases hw
  · cases hr
  · cases hg
  · cases hput

end OpensOver

/-- **When an open keeps what is stored.** Over any contents: the tail is above every entry, and
in every run each entry of the store at open stays as it is until an ack of it is called and no
push writes to its key, exactly if there was no entry or the last key was one. -/
theorem open_keeps_entries_iff {b : Builder} {st : Store} {s₀ : Session}
    (hopen : OpensOver b st s₀) :
    ((∀ t v, s₀.items.get? t = some v → t < s₀.inner.tail) ∧
        ∀ as s, Run Session.step anyRun.act s₀ as s → KeepsEntries s₀.items s.toLedger) ↔
      (∀ t, (items st.live).get? t = none) ∨ LastIsEntry st.live := by
  constructor
  · exact fun h => hopen.tail_above_iff.mp h.1
  · intro hlast
    have htail := hopen.tail_above_iff.mpr hlast
    refine ⟨htail, fun as s hrun => ?_⟩
    have hfenced : s.toLedger.Fenced s₀.inner.tail s₀.items :=
      (hopen.linked.invariant hrun hopen.fenced (fun l hl => hl.tail_free)
        fun l m l' hl hmove hm => hl.moved (Discipline.move_below hmove) hm).1
    exact hfenced.keepsEntries htail

/-- Two entries, a short key below them, and a key past the prefix. -/
def strayBelow : Store :=
  Store.empty.commit
    [.put [1, 0] [], .put (entryKey 3) [1], .put (entryKey 5) [2], .put [2] []] true .ok

/-- The queue opened over them. The walk has ended at the short key. -/
def strayBelowOpen : Session :=
  Session.opened .default64 (strayBelow.commit [.put metaKey [formatVersion]] true .ok)
    { tail := 6, head := 6, ackedAbove := ∅, len := 0, bytes := 0, reserved := ∅, closed := false }
    []

/-- A push over these entries. -/
theorem open_keeps_entries_stray :
    ∃ s, Run Session.step anyRun.act strayBelowOpen
      [.turn (.call [9] true), .turn (.attempt 1), .commit 6 .ok] s ∧
      KeepsEntries strayBelowOpen.items s.toLedger := by
  have hopen : OpensOver .default64 strayBelow strayBelowOpen := ⟨none, 1, _, _, [], rfl, rfl⟩
  have hkeeps := (open_keeps_entries_iff hopen).mpr (Or.inr (by decide))
  refine Exists.imp (fun s hrun => ⟨hrun, hkeeps.2 _ s hrun⟩) ?_
  exact Run.exists_of_exec (by decide)

/-- An entry, and a short key above it. -/
def strayAbove : Store :=
  Store.empty.commit [.put (entryKey 0) [7], .put [1, 0xff] []] true .ok

/-- The queue opened over them. -/
def strayAboveOpen : Session :=
  Session.opened .default64 (strayAbove.commit [.put metaKey [formatVersion]] true .ok)
    { tail := 0, head := 0, ackedAbove := ∅, len := 1, bytes := 1, reserved := ∅, closed := false }
    []

/-- The first push takes the place of the entry. -/
theorem open_overwrites :
    OpensOver .default64 strayAbove strayAboveOpen ∧ strayAboveOpen.items.get? 0 = some [7] ∧
      ∃ s, Run Session.step anyRun.act strayAboveOpen
        [.turn (.call [8] true), .turn (.attempt 1), .commit 0 .ok] s ∧
        s.items.get? 0 = some [8] ∧ ¬KeepsEntries strayAboveOpen.items s.toLedger := by
  have hstored : strayAboveOpen.items.get? 0 = some [7] := by decide
  have hrun : ∃ s, Run Session.step anyRun.act strayAboveOpen
      [.turn (.call [8] true), .turn (.attempt 1), .commit 0 .ok] s ∧
      s.items.get? 0 = some [8] ∧ .put 0 [8] (some [7]) true ∈ thisSession s.log := by decide
  obtain ⟨s, hrun, hget, hput⟩ := hrun
  exact ⟨⟨none, 2, _, _, [], rfl, rfl⟩, hstored, s, hrun, hget,
    fun h => h.not_put 0 [7] hstored _ _ _ hput⟩

/-- A queue opened over the entries of zero and of the last `u64` but one. -/
def nearTheEnd : Session :=
  Session.opened .default64
    (Store.empty.commit [.put metaKey [formatVersion], .put (entryKey 0) [7],
      .put (entryKey (u64Max - 1)) [8]] true .ok)
    { tail := u64Max, head := 0, ackedAbove := ∅, len := 2, bytes := 2, reserved := ∅
      closed := false } []

-- A push that claims the last `u64` is in none of the runs above. It takes the tail back to zero,
-- and the next one overwrites, although the last key was an entry.
example : ∃ s, Run Session.step (fun _ _ => True) nearTheEnd
    [.turn (.call [9] true), .turn (.attempt 1), .commit u64Max .ok, .turn (.call [10] true),
      .turn (.attempt 5), .commit 0 .ok] s ∧ s.items.get? 0 = some [10] := by decide

end PersistentQueue
