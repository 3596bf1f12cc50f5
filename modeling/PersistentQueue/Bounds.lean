import PersistentQueue.Exact

/-!
# Backpressure

`admits` is asked once, at the claim, and the store grows later and shrinks before `len`
does. What it bounds is the load, of which the stored entries and the claims in flight are
a part (`Ledger.size`). `Bounded` is the invariant: the load stays below the bounds or
below what was recovered, and above the byte bound only as a single item.

The claim is about counters that count: `Turn.Exact` keeps the byte counter from wrapping,
which `admits` alone does not when `max_bytes` is the whole range of a `usize`.
-/

namespace PersistentQueue

/-- A claim does not wrap the byte counter. -/
def Turn.Exact (l : Ledger) : Turn → Prop
  | .attempt k => ∀ c ∈ l.calls.get? k,
      l.cfg.admits l.inner.len l.inner.bytes c.value.length = true →
        l.inner.bytes + c.value.length < 2 ^ l.cfg.usizeBits
  | _ => True

instance (l : Ledger) : DecidablePred (Turn.Exact l)
  | .attempt k => inferInstanceAs (Decidable (∀ c ∈ l.calls.get? k,
      l.cfg.admits l.inner.len l.inner.bytes c.value.length = true →
        l.inner.bytes + c.value.length < 2 ^ l.cfg.usizeBits))
  | .call _ _ | .giveBack _ | .close | .reserve _ | .seek _ _ | .check _ _ | .ack _ _
  | .record _ | .release _ => isTrue trivial

/-- The runs with clean failures in which reserve, ack, nack and drop calls do not overlap
and the counters do not wrap. -/
def exactCounters : Discipline where
  turn l a := (a.CleanFailure ∧ a.Solo l) ∧ a.Exact l
  outcome o := o.Clean
  retry _ _ _ := True
  split _ h := h.split

instance (s : Session) : DecidablePred (exactCounters.act s) :=
  exactCounters.decideAct
    (fun l a => inferInstanceAs (Decidable ((a.CleanFailure ∧ a.Solo l) ∧ a.Exact l)))
    (fun o => inferInstanceAs (Decidable o.Clean)) (fun _ _ _ => instDecidableTrue) s

theorem exactCounters_solo {l : Ledger} {m : Move} (h : exactCounters.move l m) :
    soloConsumer.move l m := by
  cases m with
  | turn a => exact ⟨h.1, h.2.1⟩
  | put | returned | gaveUp => exact h

namespace Ledger

variable {l l' : Ledger} {m : Move} {n₀ b₀ : ℕ}

/-- The size of the stored entries and of the claims in flight. -/
def size (l : Ledger) (f : Bytes → ℕ) : ℕ :=
  l.items.sum (fun _ v => f v) + l.writes.sum fun _ w => w.pending f

theorem size_le_load (f : Bytes → ℕ) : l.size f ≤ l.load f := Nat.le_add_right _ _

/-- Nothing has no size. -/
theorem size_eq_zero (h : l.size (fun _ => 1) = 0) (f : Bytes → ℕ) : l.size f = 0 := by
  obtain ⟨hitems, hwrites⟩ := Nat.add_eq_zero_iff.mp h
  refine Nat.add_eq_zero_iff.mpr ⟨SortedMap.sum_eq_zero_iff.mpr fun t v ht => ?_,
    SortedMap.sum_eq_zero_iff.mpr fun t w hw => ?_⟩
  · have := SortedMap.sum_eq_zero_iff.mp hitems t v ht
    cases this
  · have hlanded := SortedMap.sum_eq_zero_iff.mp hwrites t w hw
    simp only [Write.pending, ite_eq_left_iff, one_ne_zero, imp_false, not_not] at hlanded ⊢
    intro hne
    exact absurd hlanded hne

/-- The load is within the bounds, or within what was recovered. -/
structure Bounded (n₀ b₀ : ℕ) (l : Ledger) : Prop where
  count : l.load (fun _ => 1) ≤ max l.cfg.capacity n₀
  bytes : l.load List.length ≤ max l.cfg.maxBytes b₀ ∨ l.load (fun _ => 1) ≤ 1
  exact : l.load List.length < 2 ^ l.cfg.usizeBits

theorem bounded_opened {b : Builder} (h : FreshLedger b l)
    (hbytes : l.items.sum (fun _ v => v.length) < 2 ^ b.usizeBits) :
    l.Bounded l.items.size (l.items.sum fun _ v => v.length) := by
  refine ⟨?_, ?_, ?_⟩
  · rw [load_opened h, SortedMap.size_eq_sum]
    exact le_max_right _ _
  · rw [load_opened h]
    exact Or.inl (le_max_right _ _)
  · rw [load_opened h, h.cfg_eq]
    exact hbytes

theorem Bounded.moved (h : l.Bounded n₀ b₀) (hwf : l.Wf) (hl : l.Steady) (hl' : l'.Steady)
    (hmove : exactCounters.move l m) (hm : Moved l m l') : l'.Bounded n₀ b₀ := by
  obtain ⟨d, hd, hdown⟩ := shift_moved hwf hm
  have hshift : ∀ f, (l'.load f : ℤ) = l.load f + d f := by
    intro f
    have hbalance := hd.balance f
    rw [hl.exclusive.balance, hl'.exclusive.balance] at hbalance
    exact hbalance
  have hcount := hshift fun _ => 1
  have hbytes := hshift List.length
  obtain ⟨hc, hb, he⟩ := h
  refine ⟨?_, ?_, ?_⟩ <;> rw [cfg_moved hm]
  all_goals
    rcases hdown with hdown | ⟨c, ⟨k, rfl, hk, -, hroom⟩, hup⟩
    · -- a slot was freed, or none was taken
      have hone := hdown fun _ => 1
      have hlength := hdown List.length
      omega
    · -- a slot was claimed, and `admits` said that there was room
      have hfits := hmove.2.2 c hk hroom
      have hone := hup fun _ => 1
      have hlength := hup List.length
      have hlen := hl.len_eq
      have hexact := hl.bytes_eq
      rw [Nat.mod_eq_of_lt he] at hexact
      simp only [Builder.admits, Bool.and_eq_true, Bool.or_eq_true, decide_eq_true_eq,
        Word.satAdd_of_lt hfits] at hroom
      omega

/-- With no stored entry and no call in progress there is room for a value of any size. -/
theorem NoCall.admits (h : l.NoCall) (hl : l.Steady) (hempty : l.items.entries = []) (v : ℕ) :
    l.cfg.admits l.inner.len l.inner.bytes v = true := by
  have hlen : l.inner.len = 0 := by
    rw [hl.len_eq, h.load]
    simp [SortedMap.sum, hempty]
  have hpos := l.cfg.capacity_pos
  simp only [Builder.admits, hlen, hpos, decide_true, Bool.true_or, Bool.and_self]

end Ledger

/-- The bounds that `admits` is there for. -/
structure Backpressure (n₀ b₀ : ℕ) (s : Session) : Prop where
  /-- the stored entries and claims in flight are at most the capacity, or what was recovered -/
  count : s.size (fun _ => 1) ≤ max s.cfg.capacity n₀
  /-- so is their size, unless they are a single item -/
  bytes : s.size List.length ≤ max s.cfg.maxBytes b₀ ∨ s.size (fun _ => 1) = 1
  /-- with no stored entry and no call in progress, a `try_push` of any value gets its claim -/
  progress : s.NoCall → s.items.entries = [] → s.inner.closed = false → ∀ v,
    ∃ s₁ s₂, s.step (.turn (.call v false)) = some s₁ ∧
      s₁.step (.turn (.attempt s.log.length)) = some s₂ ∧
      s₂.writes.get? s.inner.tail = some { call := s.log.length, value := v, stage := .fresh }

/-- **Backpressure bounds hold for every interleaving** of producers with a consumer whose
calls do not overlap. -/
theorem backpressure_bounds {b : Builder} {st : Store} {s₀ s : Session} {as : List Act}
    (hopen : Opens b st s₀) (hbytes : s₀.items.sum (fun _ v => v.length) < 2 ^ b.usizeBits)
    (hrun : Run Session.step exactCounters.act s₀ as s) :
    Backpressure s₀.items.size (s₀.items.sum fun _ v => v.length) s := by
  have hfresh := hopen.fresh.1
  obtain ⟨⟨⟨-, hsteady⟩, hbounded⟩, -⟩ := hopen.coupled.invariant
    (I := fun l => (l.OneCall ∧ l.Steady) ∧ l.Bounded _ _) hrun
    ⟨Ledger.solo_opened hfresh, Ledger.bounded_opened hfresh hbytes⟩
    fun l m l' hwf ⟨hsolo, hbounded⟩ hmove hm =>
      have hnext := Ledger.solo_moved hsolo hwf (exactCounters_solo hmove) hm
      ⟨hnext, hbounded.moved hwf hsolo.2 hnext.2 hmove hm⟩
  refine ⟨(Ledger.size_le_load _).trans hbounded.count, ?_, fun hquiet hempty hopened v => ?_⟩
  · rcases hbounded.bytes with hle | hone
    · exact Or.inl ((Ledger.size_le_load _).trans hle)
    · have hle := (Ledger.size_le_load (l := s.toLedger) fun _ => 1).trans hone
      rcases Nat.le_one_iff_eq_zero_or_eq_one.mp hle with hzero | hone
      · exact Or.inl (Ledger.size_eq_zero hzero List.length ▸ Nat.zero_le _)
      · exact Or.inr hone
  · have hroom := hquiet.admits hsteady hempty v.length
    have hclaim := Ledger.turn_attempt (k := s.log.length) (c := { value := v, blocking := false })
      (l := { s.toLedger with
        calls := s.calls.insert s.log.length { value := v, blocking := false }
        log := .called s.log.length v :: s.log })
      (SortedMap.get?_insert_self _ _ _) hopened hroom
    exact ⟨_, { toLedger := _, group := s.group }, rfl, congrArg (Option.map _) hclaim,
      SortedMap.get?_insert_self _ _ _⟩

/-- An item larger than `max_bytes` goes into the empty queue, and its push fails; two small
ones go in then, a third one does not fit, and the first of the two is acked while a fourth
one waits. -/
theorem backpressure_bounds_tight :
    ∃ s, Run Session.step exactCounters.act (Session.fresh tight64)
      [.turn (.call [1, 2, 3, 4, 5] true), .turn (.attempt 1), .commit 0 .errClean,
        .turn (.giveBack 0), .turn (.call [6] true), .turn (.attempt 3), .turn (.call [7, 8] false),
        .turn (.attempt 5), .turn (.call [9] false), .turn (.attempt 7), .turn (.call [10, 11] true),
        .turn (.attempt 8), .commit 1 .ok, .turn (.reserve 0), .turn (.seek 0 true),
        .turn (.check 0 0), .turn (.ack 0 .ok), .turn (.record 0), .turn (.attempt 8)] s ∧
      Backpressure 0 0 s := by
  refine Exists.imp (fun s hrun => ⟨hrun, backpressure_bounds (opens_fresh _) ?_ hrun⟩) ?_
  · decide
  · exact Run.exists_of_exec (by decide)

end PersistentQueue
