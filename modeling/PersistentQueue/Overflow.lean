import PersistentQueue.Bounds

/-!
# When the byte counter overflows

`admits` compares a saturating sum with `max_bytes`, and the claim then adds without
saturation. Below the range of a `usize` the comparison keeps the sum in range
(`Builder.admits_fits`). At `max_bytes = usize::MAX`, the default, a saturated sum passes it,
and only a queue that never holds three items is safe: a slice is no longer than the largest
signed word, and two of these still fit.

What the counters hold is the load as long as the commits have not drifted away from them
(`Ledger.NoDrift`), so this is said of runs in which nothing has drifted when a slot is
claimed. Nothing is asked of interleavings.
-/

namespace PersistentQueue

/-- What `admits` lets in is in range when `max_bytes` is not the whole range of a `usize`, or
when there is only room for two items. -/
theorem Builder.admits_fits {b : Builder} {len bytes v : ℕ}
    (hb : b.maxBytes < Word.maxVal b.usizeBits ∨ b.capacity ≤ 2)
    (hadmits : b.admits len bytes v = true)
    (hbytes : bytes ≤ Word.maxSigned b.usizeBits * len)
    (hv : v ≤ Word.maxSigned b.usizeBits) : bytes + v < 2 ^ b.usizeBits := by
  have hpos : 0 < b.usizeBits := by
    refine Nat.pos_of_ne_zero fun hzero => ?_
    have hle := b.maxBytes_pos.trans_le b.maxBytes_le
    rw [hzero] at hle
    exact lt_irrefl _ hle
  have hrange := Word.maxSigned_add_self hpos
  have hsecond : len ≤ 1 → bytes + v < 2 ^ b.usizeBits := fun hle => by
    have := hbytes.trans (Nat.mul_le_mul_left _ hle)
    omega
  simp only [Builder.admits, Bool.and_eq_true, Bool.or_eq_true, decide_eq_true_eq] at hadmits
  obtain ⟨hlen, hzero | hsum⟩ := hadmits
  · exact hsecond (hzero.le.trans (Nat.zero_le 1))
  · rcases hb with hmax | htwo
    · -- a saturated sum is above the bound
      exact Word.lt_of_satAdd_lt (hsum.trans_lt hmax)
    · exact hsecond (by omega)

namespace Ledger

variable {l l' : Ledger} {m : Move} {b : Builder}

/-- The byte counter is the total of the unacked items, and can take in every value that
`admits` accepts. -/
structure ByteExact (l : Ledger) : Prop where
  total : l.inner.bytes = l.load List.length
  fits : ∀ k c, l.calls.get? k = some c →
    l.cfg.admits l.inner.len l.inner.bytes c.value.length = true →
    l.inner.bytes + c.value.length < 2 ^ l.cfg.usizeBits

/-- No value is longer than a slice can be: none that is stored, and none on its way. -/
structure Short (l : Ledger) : Prop where
  stored : ∀ t v, l.items.get? t = some v → v.length ≤ Word.maxSigned l.cfg.usizeBits
  called : ∀ k c, l.calls.get? k = some c → c.value.length ≤ Word.maxSigned l.cfg.usizeBits
  written : ∀ t w, l.writes.get? t = some w → w.value.length ≤ Word.maxSigned l.cfg.usizeBits
  found : ∀ r t v behind, l.reserves.get? r = some ⟨.checking t v, behind⟩ →
    v.length ≤ Word.maxSigned l.cfg.usizeBits
  held : ∀ g gd, l.guards.get? g = some gd → gd.value.length ≤ Word.maxSigned l.cfg.usizeBits

/-- The load in size is at most that many such values. -/
theorem Short.load_le (h : l.Short) :
    l.load List.length ≤ Word.maxSigned l.cfg.usizeBits * l.load fun _ => 1 := by
  rw [load, load, mul_add, mul_add]
  refine add_le_add (add_le_add (SortedMap.sum_le_mul fun t v hv => ?_)
    (SortedMap.sum_le_mul fun t w hw => ?_)) (SortedMap.sum_le_mul fun g gd hg => ?_)
  · rw [mul_one]
    exact h.stored t v hv
  · have hle := h.written t w hw
    simp only [Write.pending]
    split
    · exact Nat.zero_le _
    · rwa [mul_one]
  · have hle := h.held g gd hg
    simp only [Guard.unrecorded]
    split
    · rwa [mul_one]
    · exact Nat.zero_le _

/-- What the counters stand at is in range, and so is every value on its way. -/
structure Tallied (l : Ledger) : Prop where
  counted : l.Counted
  count_lt : l.balance (fun _ => 1) < 2 ^ l.cfg.usizeBits
  bytes_lt : l.balance List.length < 2 ^ l.cfg.usizeBits
  short : l.Short

/-- With no drift the counters are the load. -/
theorem Tallied.exact (h : l.Tallied) (hdrift : l.NoDrift) :
    l.inner.len = l.load (fun _ => 1) ∧ l.inner.bytes = l.load List.length := by
  have hload : ∀ {f : Bytes → ℕ}, drift f l.log = 0 → l.balance f = l.load f :=
    fun hzero => by rw [balance, hzero, add_zero]
  obtain ⟨hcounted, hcount, hbytes, -⟩ := h
  rw [hload hdrift.1] at hcount
  rw [hload hdrift.2] at hbytes
  refine ⟨Word.eq_of_cast_eq hcounted.len_lt (by exact_mod_cast hcount) ?_,
    Word.eq_of_cast_eq hcounted.bytes_lt (by exact_mod_cast hbytes) ?_⟩
  · rw [hcounted.len, hload hdrift.1, Int.cast_natCast]
  · rw [hcounted.bytes, hload hdrift.2, Int.cast_natCast]

theorem Tallied.byteExact (h : l.Tallied) (hdrift : l.NoDrift)
    (hb : l.cfg.maxBytes < Word.maxVal l.cfg.usizeBits ∨ l.cfg.capacity ≤ 2) : l.ByteExact := by
  obtain ⟨hlen, hbytes⟩ := h.exact hdrift
  refine ⟨hbytes, fun k c hc hadmits => ?_⟩
  refine Builder.admits_fits hb hadmits ?_ (h.short.called k c hc)
  rw [hbytes, hlen]
  exact h.short.load_le

end Ledger

/-- Values are as long as a slice can be, and slots are claimed when nothing has drifted. -/
def Turn.InRange (l : Ledger) : Turn → Prop
  | .call value _ => value.length ≤ Word.maxSigned l.cfg.usizeBits
  | .attempt _ => l.NoDrift
  | _ => True

instance (l : Ledger) : DecidablePred (Turn.InRange l)
  | .call value _ =>
    inferInstanceAs (Decidable (value.length ≤ Word.maxSigned l.cfg.usizeBits))
  | .attempt _ => inferInstanceAs (Decidable l.NoDrift)
  | .giveBack _ | .close | .reserve _ | .seek _ _ | .check _ _ | .ack _ _ | .record _
  | .release _ => isTrue trivial

/-- The runs in which every slot is claimed with counters that have not drifted. -/
def inRange : Discipline where
  turn l a := a.InRange l
  outcome _ := True
  retry _ _ _ := True
  split _ _ := ⟨trivial, trivial⟩

instance (s : Session) : DecidablePred (inRange.act s) :=
  inRange.decideAct (fun l a => inferInstanceAs (Decidable (a.InRange l)))
    (fun _ => instDecidableTrue) (fun _ _ _ => instDecidableTrue) s

namespace Ledger

variable {l l' : Ledger} {m : Move} {b : Builder}

theorem short_opened (h : FreshLedger b l)
    (hstored : ∀ t v, l.items.get? t = some v → v.length ≤ Word.maxSigned b.usizeBits) :
    l.Short := by
  refine ⟨fun t v ht => h.cfg_eq ▸ hstored t v ht, fun k c hc => ?_, fun t w hw => ?_,
    fun r t v behind hr => ?_, fun g gd hg => ?_⟩
  · rw [h.opened] at hc
    cases hc
  · rw [h.opened] at hw
    cases hw
  · rw [h.opened] at hr
    cases hr
  · rw [h.opened] at hg
    cases hg

theorem Short.moved (h : l.Short) (hwf : l.Wf) (hmove : inRange.move l m) (hm : Moved l m l') :
    l'.Short := by
  have hcfg := cfg_moved hm
  refine ⟨fun t v ht => ?_, fun k c hc => ?_, fun t w hw => ?_, fun r t v behind hr => ?_,
    fun g gd hg => ?_⟩ <;> rw [hcfg]
  · rcases hwf.of_items hm ht with hold | ⟨w, -, -, -, hw, -, rfl⟩
    · exact h.stored t v hold
    · exact h.written t w hw
  · cases hm with
    | call value blocking =>
      rcases SortedMap.of_get?_insert hc with ⟨-, rfl⟩ | ⟨-, hc⟩
      · exact hmove.2
      · exact h.called k c hc
    | turnedAway | claim => exact h.called k c (SortedMap.of_get?_erase hc).2
    | waits | giveBack | close | reserve | ended | found | skipped | handedOut | remove | record
    | release | put | returned | gaveUp => exact h.called k c hc
  · rcases of_writes hm hw with ⟨w₀, hold, -, hvalue⟩ | ⟨k, c, -, hc, -, rfl, -⟩
    · exact hvalue ▸ h.written t w₀ hold
    · exact h.called k c hc
  · rcases hwf.of_found hm hr with ⟨b₀, hold⟩ | ⟨-, hstored⟩
    · exact h.found r t v b₀ hold
    · exact h.stored t v hstored
  · rcases of_guards hm hg with ⟨gd₀, hold, -, hvalue, -⟩ | ⟨r, behind, -, hr, -⟩
    · exact hvalue ▸ h.held g gd₀ hold
    · exact h.found r _ _ _ hr

theorem tallied_opened (h : FreshLedger b l)
    (hstored : ∀ t v, l.items.get? t = some v → v.length ≤ Word.maxSigned b.usizeBits)
    (hbytes : l.items.sum (fun _ v => v.length) < 2 ^ b.usizeBits) : l.Tallied := by
  refine ⟨counted_opened h, ?_, ?_, short_opened h hstored⟩
  · rw [balance_opened h, h.cfg_eq, ← SortedMap.size_eq_sum]
    exact_mod_cast h.fits
  · rw [balance_opened h, h.cfg_eq]
    exact_mod_cast hbytes

theorem Tallied.moved (h : l.Tallied) (hwf : l.Wf)
    (hb : l.cfg.maxBytes < Word.maxVal l.cfg.usizeBits ∨ l.cfg.capacity ≤ 2)
    (hmove : inRange.move l m) (hm : Moved l m l') : l'.Tallied := by
  obtain ⟨d, hd, hdown⟩ := shift_moved hwf hm
  have hcount := h.count_lt
  have hbytes := h.bytes_lt
  refine ⟨h.counted.moved hwf hm, ?_, ?_, h.short.moved hwf hmove hm⟩
  · rw [cfg_moved hm, hd.balance]
    rcases hdown with hdown | ⟨c, ⟨k, rfl, hk, -, hroom⟩, hup⟩
    · have hle := hdown fun _ => 1
      omega
    · -- `admits` compares with a capacity in range
      have hdrift : l.NoDrift := hmove.2
      have hlen := (h.exact hdrift).1
      have hcap := Word.lt_of_le_maxVal l.cfg.capacity_le
      simp only [Builder.admits, Bool.and_eq_true, decide_eq_true_eq] at hroom
      have hlt : l.inner.len + 1 < 2 ^ l.cfg.usizeBits := by omega
      rw [balance, hdrift.1, hup, ← hlen, add_zero]
      exact_mod_cast hlt
  · rw [cfg_moved hm, hd.balance]
    rcases hdown with hdown | ⟨c, ⟨k, rfl, hk, -, hroom⟩, hup⟩
    · have hle := hdown List.length
      omega
    · have hdrift : l.NoDrift := hmove.2
      have hexact := h.byteExact hdrift hb
      have hfits := hexact.fits k c hk hroom
      rw [balance, hdrift.2, hup, ← hexact.total, add_zero]
      exact_mod_cast hfits

end Ledger

/-- A state that lets in what does not fit is not exact. -/
theorem Ledger.not_byteExact {l : Ledger} {k : ℕ} {c : Call} (hc : l.calls.get? k = some c)
    (hadmits : l.cfg.admits l.inner.len l.inner.bytes c.value.length = true)
    (hover : l.inner.bytes + c.value.length = 2 ^ l.cfg.usizeBits) : ¬l.ByteExact :=
  fun h => (h.fits k c hc hadmits).ne hover

/-- **When byte accounting cannot overflow.** Whatever the calls that overlap and the commits
that fail, as long as nothing has drifted, exactly if `max_bytes` is less than the range of a
`usize` or there is only room for two items; and what is recovered at open is counted right
exactly if it is in that range. -/
theorem byte_accounting_iff (b : Builder) (hbits : 16 ≤ b.usizeBits) :
    ((∀ st s₀ as s, Opens b st s₀ →
        (∀ t v, s₀.items.get? t = some v → v.length ≤ Word.maxSigned b.usizeBits) →
        s₀.items.sum (fun _ v => v.length) < 2 ^ b.usizeBits →
        Run Session.step inRange.act s₀ as s → s.NoDrift → s.ByteExact) ↔
      b.maxBytes < Word.maxVal b.usizeBits ∨ b.capacity ≤ 2) ∧
    ∀ st s₀, Opens b st s₀ →
      (s₀.ByteExact ↔ s₀.items.sum (fun _ v => v.length) < 2 ^ b.usizeBits) := by
  refine ⟨⟨fun h => ?_, fun hb st s₀ as s hopen hstored hbytes hrun hdrift => ?_⟩,
    fun st s₀ hopen => ?_⟩
  · by_contra hb
    obtain ⟨hmax, htwo⟩ := not_or.mp hb
    obtain ⟨s, hrun, -, hdrift, hc, -, -, -, -, hadmits, hover, -⟩ :=
      crowd_run (D := inRange) hbits (le_antisymm b.maxBytes_le (not_lt.mp hmax))
        (not_le.mp htwo) (fun _ _ hle => hle) fun _ _ hdrift => hdrift
    exact Ledger.not_byteExact hc hadmits hover
      (h _ _ _ s (opens_fresh b) (fun _ _ ht => by cases ht) (Nat.two_pow_pos _) hrun hdrift)
  · have hfresh := hopen.fresh.1
    obtain ⟨⟨htallied, hkept⟩, -⟩ := hopen.coupled.invariant
      (I := fun l => l.Tallied ∧ l.cfg = b) hrun
      ⟨Ledger.tallied_opened hfresh hstored hbytes, hfresh.cfg_eq⟩
      fun l m l' hwf ⟨htallied, hkept⟩ hmove hm =>
        ⟨htallied.moved hwf (hkept ▸ hb) hmove hm, (Ledger.cfg_moved hm).trans hkept⟩
    exact htallied.byteExact hdrift (hkept ▸ hb)
  · have hfresh := hopen.fresh.1
    have hload := Ledger.load_opened hfresh List.length
    constructor
    · intro hexact
      rw [← hload, ← hexact.total, ← hfresh.cfg_eq]
      exact (Ledger.counted_opened hfresh).bytes_lt
    · intro hbytes
      refine ⟨?_, fun k c hc => ?_⟩
      · rw [hload, hfresh.recovered.bytes_eq]
        exact Nat.mod_eq_of_lt hbytes
      · rw [hfresh.opened] at hc
        cases hc

/-- With a bound of three bytes: an oversized item goes into the empty queue and its push fails,
two small ones go in, and a third one waits. -/
theorem byte_accounting_iff_tight :
    ∃ s, Run Session.step inRange.act (Session.fresh tight64)
      [.turn (.call [1, 2, 3, 4, 5] true), .turn (.attempt 1), .commit 0 .errClean,
        .turn (.giveBack 0), .turn (.call [6] true), .turn (.attempt 3), .turn (.call [7, 8] false),
        .turn (.attempt 5), .commit 1 .ok, .turn (.call [9] true), .turn (.attempt 9)] s ∧
      s.ByteExact := by
  have hrun : ∃ s, Run Session.step inRange.act (Session.fresh tight64)
      [.turn (.call [1, 2, 3, 4, 5] true), .turn (.attempt 1), .commit 0 .errClean,
        .turn (.giveBack 0), .turn (.call [6] true), .turn (.attempt 3), .turn (.call [7, 8] false),
        .turn (.attempt 5), .commit 1 .ok, .turn (.call [9] true), .turn (.attempt 9)] s ∧
      s.NoDrift := by decide
  obtain ⟨s, hrun, hdrift⟩ := hrun
  exact ⟨s, hrun, (byte_accounting_iff tight64 (by decide)).1.mpr (Or.inl (by decide)) _ _ _ s
    (opens_fresh tight64) (fun _ _ ht => by cases ht) (by decide) hrun hdrift⟩

/-- On a 32-bit target with the builder's defaults, two values one byte short of two gibibytes
and one of two bytes: the third one is let in, and the sum is the first number out of range. -/
theorem byte_counter_overflows :
    ∃ s, Run Session.step inRange.act (Session.fresh .default32) (crowd .default32) s ∧
      s.calls.get? 5 = some ⟨[0, 0], false⟩ ∧
      s.cfg.admits s.inner.len s.inner.bytes 2 = true ∧ s.inner.bytes + 2 = 2 ^ 32 ∧
      ¬s.ByteExact := by
  obtain ⟨s, hrun, hcfg, -, hc, -, -, -, -, hadmits, hover, -⟩ :=
    crowd_run (D := inRange) (b := .default32) (by decide) rfl (by decide) (fun _ _ hle => hle)
      fun _ _ hdrift => hdrift
  have hbad := Ledger.not_byteExact hc hadmits hover
  rw [hcfg] at hover
  exact ⟨s, hrun, hc, hadmits, hover, hbad⟩

end PersistentQueue
