import PersistentQueue.Exclusive

/-!
# Exact accounting

With clean failures, and no ack recorded while a scan is about to look its item up, the
counters are exact at every moment (`Ledger.Accounted`): `len` counts the stored items, the
claims that have not landed and the acks that have deleted and not recorded, `bytes` adds
up their sizes, and no subtraction goes below zero. Calls of a single consumer that do not
overlap never record an ack inside a scan, which gives `exact_accounting`: exactly as long as
the sizes add up to a `usize`, which `admits` alone does not see to (`byte_counter_wraps`).
-/

namespace PersistentQueue

/-- No reserve, ack, nack or drop is in progress. -/
def Ledger.NoConsumer (l : Ledger) : Prop :=
  l.reserves.entries = [] ∧ ∀ e ∈ l.guards.entries, e.2.pc = .held

instance (l : Ledger) : Decidable l.NoConsumer :=
  inferInstanceAs (Decidable (_ ∧ _))

/-- A reserve, ack, nack or drop begins only when none is in progress. The drop of a guard
whose ack has failed is the end of that ack. -/
def Turn.Solo (l : Ledger) : Turn → Prop
  | .reserve _ => l.NoConsumer
  | .ack _ _ => l.NoConsumer
  | .release g => (∃ gd ∈ l.guards.get? g, gd.pc = .failed) ∨ l.NoConsumer
  | _ => True

instance (l : Ledger) : DecidablePred (Turn.Solo l)
  | .reserve _ | .ack _ _ => inferInstanceAs (Decidable l.NoConsumer)
  | .release g =>
    inferInstanceAs (Decidable ((∃ gd ∈ l.guards.get? g, gd.pc = .failed) ∨ l.NoConsumer))
  | .call _ _ | .attempt _ | .giveBack _ | .close | .seek _ _ | .check _ _ | .record _ =>
    isTrue trivial

/-- The runs with clean failures in which reserve, ack, nack and drop calls do not overlap. -/
def soloConsumer : Discipline where
  turn l a := a.CleanFailure ∧ a.Solo l
  outcome o := o.Clean
  retry _ _ _ := True
  split _ h := h.split

instance (s : Session) : DecidablePred (soloConsumer.act s) :=
  soloConsumer.decideAct (fun l a => inferInstanceAs (Decidable (a.CleanFailure ∧ a.Solo l)))
    (fun o => inferInstanceAs (Decidable o.Clean)) (fun _ _ _ => instDecidableTrue) s

theorem soloConsumer_clean {l : Ledger} {m : Move} (h : soloConsumer.move l m) :
    cleanFailures.move l m :=
  (within_cleanFailures (D := soloConsumer) (fun _ _ ha => ha.1) fun _ ho => ho).move h

namespace Ledger

variable {l l' : Ledger} {m : Move} {f : Bytes → ℕ}

/-! ## Nothing drifts -/

/-- Everything the accounting rests on. -/
structure Steady (l : Ledger) : Prop where
  cursor : l.Cursor
  kept : l.Kept
  exclusive : l.Exclusive
  counted : l.Counted
  fits : l.load (fun _ => 1) < 2 ^ l.cfg.usizeBits

theorem Exclusive.balance (h : l.Exclusive) : l.balance f = l.load f := by
  have hzero : drift f l.log = 0 := by
    rw [drift]
    refine List.sum_eq_zero fun d hd => ?_
    obtain ⟨e, he, rfl⟩ := List.mem_map.mp hd
    exact h.steady e he f
  rw [Ledger.balance, hzero, add_zero]

theorem Steady.len_eq (h : l.Steady) : l.inner.len = l.load fun _ => 1 := by
  refine Word.eq_of_cast_eq h.counted.len_lt h.fits ?_
  rw [h.counted.len, h.exclusive.balance, Int.cast_natCast]

theorem Steady.bytes_eq (h : l.Steady) :
    l.inner.bytes = l.load List.length % 2 ^ l.cfg.usizeBits := by
  refine Word.eq_mod_of_cast_eq h.counted.bytes_lt ?_
  rw [h.counted.bytes, h.exclusive.balance, Int.cast_natCast]

theorem steady_opened {b : Builder} (h : FreshLedger b l) : l.Steady where
  cursor := cursor_opened h
  kept := kept_opened h
  exclusive := exclusive_opened h
  counted := counted_opened h
  fits := by
    rw [load_opened h, ← SortedMap.size_eq_sum, h.cfg_eq]
    exact h.fits

theorem Steady.moved (h : l.Steady) (hwf : l.Wf) (hclean : cleanFailures.move l m)
    (hapart : l.RecordApart m) (hm : Moved l m l') : l'.Steady := by
  have hexclusive := h.exclusive.moved h.cursor h.kept hwf hclean hapart hm
  refine ⟨h.cursor.moved hwf (Discipline.move_below hclean) hm (h.kept.not_deleted hm),
    h.kept.moved h.cursor hwf hclean hm, hexclusive, h.counted.moved hwf hm, ?_⟩
  -- the count only grows at a claim, which was admitted under the capacity
  obtain ⟨d, hd, hdown⟩ := shift_moved hwf hm
  have hload := hd.balance fun _ => 1
  rw [hexclusive.balance, h.exclusive.balance] at hload
  have hfits := h.fits
  rw [cfg_moved hm]
  rcases hdown with hdown | ⟨c, ⟨k, -, -, -, hroom⟩, hup⟩
  · have := hdown fun _ => 1
    omega
  · have hone := hup fun _ => 1
    have hlen := h.len_eq
    have hcap := Word.lt_of_le_maxVal l.cfg.capacity_le
    simp only [Builder.admits, Bool.and_eq_true, decide_eq_true_eq] at hroom
    omega

/-- The counters, the reserved set and the guards agree with the store. -/
structure Accounted (l : Ledger) : Prop where
  /-- the stored items, the claims that have not landed, and the acks that have deleted and
  not recorded -/
  len : l.inner.len = l.load fun _ => 1
  /-- and their sizes -/
  bytes : l.inner.bytes = l.load List.length
  /-- the reserved set is the set of the guards' seqs -/
  reserved : ∀ t, t ∈ l.inner.reserved ↔ ∃ g gd, l.guards.get? g = some gd ∧ gd.seq = t
  /-- no two guards have the same item -/
  distinct : ∀ g g' gd gd', l.guards.get? g = some gd → l.guards.get? g' = some gd' →
    gd.seq = gd'.seq → g = g'
  /-- a guard's item is stored with the guard's bytes -/
  held : ∀ g gd, l.guards.get? g = some gd → gd.pc ≠ .deleted →
    l.items.get? gd.seq = some gd.value
  /-- except between the two steps of its own ack -/
  gone : ∀ g gd, l.guards.get? g = some gd → gd.pc = .deleted → l.items.get? gd.seq = none
  /-- giving back a slot does not underflow -/
  give_back : ∀ t w, l.writes.get? t = some w → w.stage = .failed →
    1 ≤ l.inner.len ∧ w.value.length ≤ l.inner.bytes
  /-- nor does recording an ack -/
  record : ∀ g gd, l.guards.get? g = some gd → gd.pc = .deleted →
    1 ≤ l.inner.len ∧ gd.value.length ≤ l.inner.bytes
  /-- with no call in progress the counters are those of the store -/
  quiet : l.NoCall → l.inner.len = l.items.size ∧
    l.inner.bytes = l.items.sum fun _ v => v.length

/-- What is counted in the load is at least the slot of any one call. -/
theorem le_load_of_write {t : ℕ} {w : Write} (hw : l.writes.get? t = some w)
    (hstage : w.stage = .failed) : f w.value ≤ l.load f := by
  have hsum := SortedMap.sum_erase_add (fun _ w => Write.pending f w) hw
  simp only [Write.pending, hstage, reduceCtorEq, if_false] at hsum
  simp only [load, Write.pending]
  omega

theorem le_load_of_guard {g : ℕ} {gd : Guard} (hg : l.guards.get? g = some gd)
    (hpc : gd.pc = .deleted) : f gd.value ≤ l.load f := by
  have hsum := SortedMap.sum_erase_add (fun _ gd => Guard.unrecorded f gd) hg
  simp only [Guard.unrecorded, hpc, if_true] at hsum
  simp only [load, Guard.unrecorded]
  omega

theorem Steady.no_underflow (h : l.Steady) (hfits : l.load List.length < 2 ^ l.cfg.usizeBits)
    {v : Bytes} (hle : ∀ f : Bytes → ℕ, f v ≤ l.load f) :
    1 ≤ l.inner.len ∧ v.length ≤ l.inner.bytes := by
  refine ⟨h.len_eq ▸ hle fun _ => 1, ?_⟩
  rw [h.bytes_eq, Nat.mod_eq_of_lt hfits]
  exact hle List.length

/-- The counters are exact when the sizes add up to a `usize`. -/
theorem Steady.accounted (h : l.Steady) (hfits : l.load List.length < 2 ^ l.cfg.usizeBits) :
    l.Accounted where
  len := h.len_eq
  bytes := h.bytes_eq.trans (Nat.mod_eq_of_lt hfits)
  reserved := h.exclusive.reserved
  distinct := h.exclusive.distinct
  held := h.exclusive.held
  gone := fun g gd hg hpc => h.cursor.gone _ (h.cursor.guard_deleted g gd hg hpc)
  give_back := fun _ _ hw hstage => h.no_underflow hfits fun _ => le_load_of_write hw hstage
  record := fun _ _ hg hpc => h.no_underflow hfits fun _ => le_load_of_guard hg hpc
  quiet := by
    intro hquiet
    refine ⟨?_, ?_⟩
    · rw [h.len_eq, hquiet.load, SortedMap.size_eq_sum]
    · rw [h.bytes_eq, Nat.mod_eq_of_lt hfits, hquiet.load]

end Ledger

/-! ## A consumer whose calls do not overlap -/

namespace Ledger

variable {l l' : Ledger} {m : Move}

/-- A reserve call runs, or an ack does, but not both. -/
def OneCall (l : Ledger) : Prop :=
  (∀ r, l.reserves.get? r = none) ∨ ∀ g gd, l.guards.get? g = some gd → gd.pc = .held

theorem NoConsumer.reserves (h : l.NoConsumer) (r : ℕ) : l.reserves.get? r = none :=
  SortedMap.get?_of_entries_nil h.1 r

theorem NoConsumer.held (h : l.NoConsumer) {g : ℕ} {gd : Guard} (hg : l.guards.get? g = some gd) :
    gd.pc = .held := h.2 _ (SortedMap.get?_eq_some.mp hg)

/-- An ack that is about to be recorded has the queue's consumer side for itself. -/
theorem OneCall.recordApart (h : l.OneCall) (hm : Moved l m l') : l.RecordApart m := by
  rintro g gd rfl hg ⟨e, he, -⟩
  cases hm with
  | record hg' hpc =>
    rcases h with h | h
    · have := h e.1
      rw [SortedMap.get?_eq_some.mpr he] at this
      cases this
    · rw [h g _ hg'] at hpc
      cases hpc

theorem OneCall.moved (h : l.OneCall) (hsolo : soloConsumer.move l m) (hm : Moved l m l') :
    l'.OneCall := by
  -- a reserve call that is on says that every guard is held
  have hreserve : ∀ {r c}, l.reserves.get? r = some c →
      ∀ g gd, l.guards.get? g = some gd → gd.pc = .held := by
    intro r c hr
    refine h.resolve_left fun hnone => ?_
    rw [hnone] at hr
    cases hr
  cases hm with
  | call | turnedAway | waits | claim | giveBack | close | returned | gaveUp => exact h
  | reserve =>
    have hnone : l.NoConsumer := hsolo.2.2
    exact Or.inr fun g gd hg => hnone.held hg
  | ended r ok =>
    exact h.imp (fun hnone r' => SortedMap.get?_erase_of_none (hnone r')) id
  | found hr | skipped g hr => exact Or.inr (hreserve hr)
  | handedOut hr hmem hg =>
    refine Or.inr fun g' gd hg' => ?_
    rcases SortedMap.of_get?_insert hg' with ⟨-, rfl⟩ | ⟨-, hg'⟩
    · rfl
    · exact hreserve hr g' gd hg'
  | remove hg hpc o =>
    have hnone : l.NoConsumer := hsolo.2.2
    exact Or.inl hnone.reserves
  | record | release =>
    exact h.imp id fun hheld g gd hg => hheld g gd (SortedMap.of_get?_erase hg).2
  | put =>
    refine h.imp (fun hnone r => ?_) id
    simp only [put]
    split
    · rw [SortedMap.get?_mapVal, hnone]
      rfl
    · exact hnone r

/-- What the accounting rests on along the runs of a consumer whose calls do not overlap. -/
theorem solo_opened {b : Builder} (h : FreshLedger b l) : l.OneCall ∧ l.Steady := by
  refine ⟨?_, steady_opened h⟩
  rw [h.opened]
  exact Or.inl fun _ => rfl

theorem solo_moved (h : l.OneCall ∧ l.Steady) (hwf : l.Wf) (hsolo : soloConsumer.move l m)
    (hm : Moved l m l') : l'.OneCall ∧ l'.Steady :=
  ⟨h.1.moved hsolo hm, h.2.moved hwf (soloConsumer_clean hsolo) (h.1.recordApart hm) hm⟩

end Ledger

/-- What the accounting rests on in every such run. -/
theorem Opens.steady_solo {b : Builder} {st : Store} {s₀ s : Session} {as : List Act}
    (hopen : Opens b st s₀) (hrun : Run Session.step soloConsumer.act s₀ as s) :
    s.toLedger.Steady :=
  (hopen.invariant (I := fun l => l.OneCall ∧ l.Steady) hrun (fun _ hl => Ledger.solo_opened hl)
    fun _ _ _ hwf hl hsolo hm => Ledger.solo_moved hl hwf hsolo hm).1.2

/-- **Exact accounting.** In every state of every run with clean failures in which reserve,
ack, nack and drop calls do not overlap, with any number of producers: exactly if the sizes of
the stored items, of the claims that have not landed and of the items whose ack has deleted and
not recorded add up to a `usize`. -/
theorem exact_accounting {b : Builder} {st : Store} {s₀ s : Session} {as : List Act}
    (hopen : Opens b st s₀) (hrun : Run Session.step soloConsumer.act s₀ as s) :
    s.Accounted ↔ s.load List.length < 2 ^ s.cfg.usizeBits := by
  have hsteady := hopen.steady_solo hrun
  exact ⟨fun h => h.bytes ▸ hsteady.counted.bytes_lt, hsteady.accounted⟩

/-- A push fails and gives its slot back, another one's item is handed out, and its first ack
fails; the second one deletes it while a third push is on its way. -/
theorem exact_accounting_failures :
    ∃ s, Run Session.step soloConsumer.act (Session.fresh .default64)
      [.turn (.call [1] true), .turn (.call [2, 2] false), .turn (.attempt 1), .turn (.attempt 2),
        .commit 0 .errClean, .commit 1 .ok, .turn (.reserve 0), .turn (.seek 0 true),
        .turn (.check 0 0), .turn (.ack 0 .errClean), .turn (.giveBack 0), .turn (.release 0),
        .turn (.reserve 0), .turn (.seek 0 true), .turn (.check 0 0),
        .turn (.call [3] false), .turn (.attempt 10), .turn (.ack 0 .ok)] s ∧ s.Accounted := by
  have hrun : ∃ s, Run Session.step soloConsumer.act (Session.fresh .default64)
      [.turn (.call [1] true), .turn (.call [2, 2] false), .turn (.attempt 1), .turn (.attempt 2),
        .commit 0 .errClean, .commit 1 .ok, .turn (.reserve 0), .turn (.seek 0 true),
        .turn (.check 0 0), .turn (.ack 0 .errClean), .turn (.giveBack 0), .turn (.release 0),
        .turn (.reserve 0), .turn (.seek 0 true), .turn (.check 0 0),
        .turn (.call [3] false), .turn (.attempt 10), .turn (.ack 0 .ok)] s ∧
      s.load List.length < 2 ^ s.cfg.usizeBits := Run.exists_of_exec_any (by decide)
  obtain ⟨s, hrun, hfits⟩ := hrun
  exact ⟨s, hrun, (exact_accounting (opens_fresh _) hrun).mpr hfits⟩

/-! ## Values that do not add up to a `usize` -/

/-- Two values as long as a slice can be are pushed, and one of two bytes is about to be. -/
def crowd (b : Builder) : List Act :=
  [.turn (.call (List.replicate (Word.maxSigned b.usizeBits) 0) false), .turn (.attempt 1),
    .turn (.call (List.replicate (Word.maxSigned b.usizeBits) 0) false), .turn (.attempt 3),
    .turn (.call [0, 0] false)]

/-- With the whole range of a `usize` as `max_bytes` and room for a third item, that one is let
in, and makes the total the first number out of range. -/
theorem crowd_run {D : Discipline} {b : Builder} (hbits : 16 ≤ b.usizeBits)
    (hmax : b.maxBytes = Word.maxVal b.usizeBits) (hcap : 2 < b.capacity)
    (hcall : ∀ (l : Ledger) (v : Bytes), v.length ≤ Word.maxSigned l.cfg.usizeBits →
      D.turn l (.call v false))
    (hattempt : ∀ (l : Ledger) (k : ℕ), l.NoDrift → D.turn l (.attempt k)) :
    ∃ s, Run Session.step D.act (Session.fresh b) (crowd b) s ∧ s.cfg = b ∧ s.NoDrift ∧
      s.calls.get? 5 = some ⟨[0, 0], false⟩ ∧ s.inner.closed = false ∧ s.inner.tail = 2 ∧
      s.writes.get? 2 = none ∧ s.inner.len = 2 ∧
      s.cfg.admits s.inner.len s.inner.bytes 2 = true ∧
      s.inner.bytes + 2 = 2 ^ s.cfg.usizeBits ∧ s.load List.length = s.inner.bytes := by
  have hrange := Word.maxSigned_add_self (by omega : 0 < b.usizeBits)
  have hpow : 2 ^ 16 ≤ 2 ^ b.usizeBits := Nat.pow_le_pow_right (by decide) hbits
  have hlen : (List.replicate (Word.maxSigned b.usizeBits) (0 : Byte)).length =
      Word.maxSigned b.usizeBits := List.length_replicate
  rw [crowd]
  generalize List.replicate (Word.maxSigned b.usizeBits) (0 : Byte) = big at hlen
  have hone : Word.wrapAdd b.usizeBits 0 1 = 1 := Word.wrapAdd_of_lt (by omega)
  have hbig : Word.wrapAdd b.usizeBits 0 big.length = big.length :=
    (Word.wrapAdd_of_lt (by omega)).trans (zero_add _)
  have htwo : Word.wrapAdd b.usizeBits 1 1 = 2 := Word.wrapAdd_of_lt (by omega)
  have hboth : Word.wrapAdd b.usizeBits big.length big.length = big.length + big.length :=
    Word.wrapAdd_of_lt (by omega)
  have hfirst : b.admits 0 0 big.length = true := Builder.admits_of_maxVal hmax (by omega) _ _
  have hsecond : b.admits (Word.wrapAdd b.usizeBits 0 1) (Word.wrapAdd b.usizeBits 0 big.length)
      big.length = true := Builder.admits_of_maxVal hmax (by omega) _ _
  have hnone : (0 : ℕ) < u64Max := by decide
  have hnext : 1 < u64Max := by decide
  refine ⟨_, .cons ⟨trivial, hcall _ _ hlen.le⟩ rfl
    (.cons ⟨fun _ => hnone, hattempt _ _ ⟨rfl, rfl⟩⟩ (congrArg (Option.map _)
      (Ledger.turn_attempt (c := ⟨big, false⟩) rfl rfl hfirst))
    (.cons ⟨trivial, hcall _ _ hlen.le⟩ rfl
    (.cons ⟨fun _ => hnext, hattempt _ _ ⟨rfl, rfl⟩⟩ (congrArg (Option.map _)
      (Ledger.turn_attempt (c := ⟨big, false⟩) rfl rfl hsecond))
    (.single ⟨trivial, hcall _ _ ?_⟩ rfl)))), rfl, ⟨rfl, rfl⟩, rfl, rfl, rfl, rfl, ?_, ?_, ?_, ?_⟩
  · show 2 ≤ Word.maxSigned b.usizeBits
    omega
  · show Word.wrapAdd b.usizeBits (Word.wrapAdd b.usizeBits 0 1) 1 = 2
    rw [hone, htwo]
  · show b.admits (Word.wrapAdd b.usizeBits (Word.wrapAdd b.usizeBits 0 1) 1) _ 2 = true
    rw [hone, htwo]
    exact Builder.admits_of_maxVal hmax hcap _ _
  · show Word.wrapAdd b.usizeBits (Word.wrapAdd b.usizeBits 0 big.length) big.length + 2 = _
    rw [hbig, hboth, hlen]
    exact hrange
  · show _ = Word.wrapAdd b.usizeBits (Word.wrapAdd b.usizeBits 0 big.length) big.length
    rw [hbig, hboth]
    show 0 + (big.length + (big.length + 0)) + 0 = big.length + big.length
    omega

/-- The third push is let in on a 32-bit target with the builder's defaults: three items are in
the queue, and none of their bytes are counted. -/
theorem byte_counter_wraps :
    ∃ s, Run Session.step soloConsumer.act (Session.fresh .default32)
        (crowd .default32 ++ [.turn (.attempt 5)]) s ∧
      s.inner.len = 3 ∧ s.inner.bytes = 0 ∧ s.load List.length = 2 ^ 32 ∧ ¬s.Accounted := by
  obtain ⟨s, hrun, hcfg, -, hcall, hopened, htail, hnone, hlen, hroom, hbytes, hload⟩ :=
    crowd_run (D := soloConsumer) (b := .default32) (by decide) rfl (by decide)
      (fun _ _ _ => ⟨trivial, trivial⟩) fun _ _ _ => ⟨trivial, trivial⟩
  have hbits : s.cfg.usizeBits = 32 := by
    rw [hcfg]
    rfl
  rw [hbits] at hbytes
  have hstep : s.step (.turn (.attempt 5)) = some { s with toLedger := s.claim 5 [0, 0] } :=
    congrArg (Option.map _) (Ledger.turn_attempt hcall hopened hroom)
  have hallowed : soloConsumer.act s (.turn (.attempt 5)) :=
    ⟨fun _ => htail ▸ (by decide), trivial, trivial⟩
  have htotal : (s.claim 5 [0, 0]).load List.length = 2 ^ 32 := by
    rw [Ledger.load_claim (htail ▸ hnone), hload, ← hbytes]
    rfl
  have hcount : (s.claim 5 [0, 0]).inner.len = 3 := by
    simp only [Ledger.claim, Inner.claim, hlen, hbits]
    rfl
  have hwrapped : (s.claim 5 [0, 0]).inner.bytes = 0 := by
    have hsum : s.inner.bytes + ([0, 0] : Bytes).length = 2 ^ 32 := hbytes
    simp only [Ledger.claim, Inner.claim, hbits, Word.wrapAdd, hsum, Nat.mod_self]
  refine ⟨_, hrun.append (.single hallowed hstep), hcount, hwrapped, htotal, fun h => ?_⟩
  have hexact := h.bytes
  rw [show ({ s with toLedger := s.claim 5 [0, 0] } : Session).toLedger = s.claim 5 [0, 0] from rfl,
    hwrapped, htotal] at hexact
  cases hexact

end PersistentQueue
