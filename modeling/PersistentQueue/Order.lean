import PersistentQueue.Overlap

/-!
# The order of hand-outs

`reserve` hands out the oldest item it finds, but its scan is not atomic: it goes past
reserved items with one seek each. A slow producer can commit behind the scan and return
`Ok`, and then a push that was called after that can commit ahead of it. The scan hands
out the second item first.

The history of a run says what real-time order asks of it (`Fifo`): when an item is handed
out, every item whose push had returned `Ok` before its own push was called has been handed
out before. `fifo_iff` is exact: a run is in this order if and only if no scan ever hands
out an item while it has left behind one that is older in real time. The proof rests on
what a scan has passed (`Scanned`): everything stored below its position was handed out
before, or was written there since the scan began.
-/

namespace PersistentQueue

/-- The push of `a` returned `Ok` before the push of `b` was called. -/
def Before (log : List Event) (a b : ℕ) : Prop :=
  ∃ ka va kb vb, Earlier (.pushOk ka a va) (.called kb vb) log ∧ .claimed kb b vb ∈ log

/-- The item was handed out. -/
def HandedOut (log : List Event) (t : ℕ) : Prop := ∃ v, .handedOut t v ∈ log

/-- Items are handed out oldest first: what was pushed before an item was handed out before. -/
def Fifo : List Event → Prop :=
  Justified fun e log => ∀ b v, e = .handedOut b v → ∀ a, Before log a b → HandedOut log a

/-- A scan hands out no item while one that was pushed before it has been written behind the
scan. -/
def Turn.InOrder (l : Ledger) : Turn → Prop
  | .check r _ => ∀ b v behind, l.reserves.get? r = some ⟨.checking b v, behind⟩ →
      b ∉ l.inner.reserved → ∀ a ∈ behind, ¬Before (thisSession l.log) a b
  | _ => True

/-- The runs with one reserve call at a time in which no commit fails, and no scan hands out
an item while one that was pushed before it has been written behind the scan. -/
def inOrder : Discipline where
  turn l a := a.OneReserve l ∧ a.InOrder l
  outcome o := o = .ok
  retry _ _ _ := True
  split := oneReserve.split

theorem oneReserve_clean {l : Ledger} {m : Move} (h : oneReserve.move l m) :
    cleanFailures.move l m := by
  refine (within_cleanFailures (D := oneReserve) (fun l a ha => ?_)
    fun _ ho => Outcome.clean_of_ok ho).move h
  cases a with
  | ack g o => exact Outcome.clean_of_ok ha
  | call | attempt | giveBack | close | reserve | seek | check | record | release => trivial

theorem inOrder_oneReserve {l : Ledger} {m : Move} (h : inOrder.move l m) :
    oneReserve.move l m := by
  have hwithin : inOrder.Within oneReserve :=
    ⟨fun _ _ ha => ha.1, fun _ ho => ho, fun _ _ _ hr => hr⟩
  exact hwithin.move h

namespace Ledger

variable {l l' : Ledger} {m : Move} {t : ℕ}

/-! ## Real time and the order of seqs -/

/-- A push that is called later claims a higher seq. -/
structure Timed (l : Ledger) : Prop where
  call_lt : ∀ k c, l.calls.get? k = some c → k < l.log.length
  claimed_lt : ∀ k t v, .claimed k t v ∈ thisSession l.log → k < l.log.length
  seq_lt : ∀ k b v, .claimed k b v ∈ thisSession l.log → ∀ ka a va,
    Earlier (.pushOk ka a va) (.called k v) (thisSession l.log) → a < b

theorem timed_opened {cfg : Builder} {st : Store} {inner : Inner} {log : List Event} :
    (opened cfg st inner log).Timed where
  call_lt := fun _ _ h => by cases h
  claimed_lt := fun _ _ _ h => by cases h
  seq_lt := fun _ _ _ h => by cases h

theorem Timed.moved (h : l.Timed) (hkept : l.Kept) (hm : Moved l m l') : l'.Timed := by
  refine ⟨call_lt_moved hm h.call_lt, fun k t v hk => ?_, fun k b v hk ka a va hlog => ?_⟩
  · rcases mem_session hm hk with hk | ⟨c, -, hc, -, -⟩
    · exact (h.claimed_lt k t v hk).trans_le (length_mono hm)
    · exact (h.call_lt k c hc).trans_le (length_mono hm)
  · obtain ⟨es, heq, hes⟩ := moved_session hm
    rw [heq] at hlog
    rcases hlog.of_append with hlog | ⟨hcalled, -⟩
    · rcases mem_session hm hk with hk | ⟨c, -, -, rfl, -⟩
      · exact h.seq_lt k b v hk ka a va hlog
      · exact (hkept.returned ka a va hlog.mem_left).2.1
    · -- the call is new, so nothing is claimed for it yet
      obtain ⟨blocking, rfl, rfl⟩ := hes _ hcalled
      rcases mem_session hm hk with hk | ⟨c, hne, -⟩
      · exact absurd (h.claimed_lt _ b v hk) (lt_irrefl _)
      · cases hne

theorem Timed.before_lt (h : l.Timed) {a b : ℕ} (hbefore : Before (thisSession l.log) a b) :
    a < b := by
  obtain ⟨ka, va, kb, vb, hlog, hclaimed⟩ := hbefore
  exact h.seq_lt kb b vb hclaimed ka a va hlog

/-! ## What a scan has passed -/

/-- Stored, or deleted by an ack. -/
def Landed (l : Ledger) (t : ℕ) : Prop := (∃ v, l.items.get? t = some v) ∨ Deleted l.log t

theorem Unseen.not_landed (h : l.Unseen t) : ¬l.Landed t := by
  rintro (⟨v, hv⟩ | hd)
  · rw [h.not_stored] at hv
    cases hv
  · exact h.not_deleted hd

theorem Kept.landed_moved (h : l.Kept) (hwf : l.Wf) (hclean : cleanFailures.move l m)
    (hm : Moved l m l') (hlanded : l.Landed t) : l'.Landed t := by
  rcases hlanded with ⟨v, hv⟩ | hd
  · have hput := h.not_put hm (Or.inl hv)
    exact (stored_or_deleted hwf hclean hm hput (Or.inl hv)).imp (fun h => ⟨v, h⟩) id
  · exact Or.inr (deleted_mono hm hd)

theorem handedOut_mono (hm : Moved l m l') (h : HandedOut (thisSession l.log) t) :
    HandedOut (thisSession l'.log) t := by
  obtain ⟨v, hv⟩ := h
  exact ⟨v, session_mono hm hv⟩

/-- What a move hands out: what its scan has found. -/
theorem of_handedOut (hm : Moved l m l') (h : HandedOut (thisSession l'.log) t) :
    HandedOut (thisSession l.log) t ∨
      ∃ r g v behind, m = .turn (.check r g) ∧
        l.reserves.get? r = some ⟨.checking t v, behind⟩ ∧ t ∉ l.inner.reserved := by
  obtain ⟨v, hv⟩ := h
  rcases mem_session hm hv with hv | ⟨r, g, behind, hturn, hr, hmem⟩
  · exact Or.inl ⟨v, hv⟩
  · exact Or.inr ⟨r, g, v, behind, hturn, hr, hmem⟩

theorem notice_behind {c : ReserveCall} {seq : ℕ} :
    t ∈ (c.notice seq).behind ↔ t ∈ c.behind ∨ t = seq ∧ seq < c.pc.position := by
  rw [ReserveCall.notice]
  split
  · next hlt => simp [hlt, or_comm]
  · next hlt => simp [hlt]

/-- A commit of a write is noticed by the scans that have passed its seq. -/
theorem get?_reserves_put {seq : ℕ} {w : Write} {durable : Bool} {o : Outcome} {r : ℕ}
    {c : ReserveCall} (h : (l.put seq w durable o).reserves.get? r = some c) :
    ∃ c₀, l.reserves.get? r = some c₀ ∧ c = if o.applies then c₀.notice seq else c₀ := by
  simp only [put] at h
  split at h
  · next ho =>
    rw [SortedMap.get?_mapVal] at h
    obtain ⟨c₀, hc₀, rfl⟩ := Option.map_eq_some_iff.mp h
    exact ⟨c₀, hc₀, by rw [if_pos ho]⟩
  · next ho => exact ⟨c, h, by rw [if_neg ho]⟩

/-- What was handed out is stored or deleted, and what a scan has passed was handed out or
was written behind it. -/
structure Scanned (l : Ledger) : Prop where
  landed : ∀ t, HandedOut (thisSession l.log) t → l.Landed t
  found : ∀ r t v b, l.reserves.get? r = some ⟨.checking t v, b⟩ → l.Landed t
  guarded : ∀ g gd, l.guards.get? g = some gd → HandedOut (thisSession l.log) gd.seq
  reserved : ∀ t ∈ l.inner.reserved, HandedOut (thisSession l.log) t
  deleted : ∀ t, Deleted l.log t → HandedOut (thisSession l.log) t
  one : ∀ r r' c c', l.reserves.get? r = some c → l.reserves.get? r' = some c' → r = r'
  passed : ∀ r c, l.reserves.get? r = some c → ∀ t v, l.items.get? t = some v →
    t < c.pc.position → ¬HandedOut (thisSession l.log) t → t ∈ c.behind
  behind : ∀ r c, l.reserves.get? r = some c → ∀ t ∈ c.behind, ¬HandedOut (thisSession l.log) t

theorem scanned_opened {b : Builder} (h : FreshLedger b l) : l.Scanned := by
  have hscans : ∀ r c, l.reserves.get? r ≠ some c := by
    rw [h.opened]
    intro r c hr
    cases hr
  refine ⟨fun t ht => ?_, fun r t v b hr => absurd hr (hscans r _), fun g gd hg => ?_,
    fun t ht => ?_, fun t ht => absurd ht (h.not_deleted t),
    fun r r' c c' hr _ => absurd hr (hscans r c),
    fun r c hr => absurd hr (hscans r c), fun r c hr => absurd hr (hscans r c)⟩
  · obtain ⟨v, hv⟩ := ht
    rw [h.thisSession_log] at hv
    cases hv
  · rw [h.opened] at hg
    cases hg
  · rw [h.recovered.reserved_eq] at ht
    cases ht

/-- The scans stay one at a time. -/
theorem Scanned.one_moved (h : l.Scanned) (hwf : l.Wf) (hmove : oneReserve.move l m)
    (hm : Moved l m l') :
    ∀ r r' c c', l'.reserves.get? r = some c → l'.reserves.get? r' = some c' → r = r' := by
  intro r r' c c' hr hr'
  by_cases hnew : ∃ r₀, m = .turn (.reserve r₀)
  · obtain ⟨r₀, rfl⟩ := hnew
    have hnil : l.reserves.entries = [] := hmove.2
    -- the only scan is the one that begins
    have honly : ∀ {r c}, l'.reserves.get? r = some c → r = r₀ := by
      intro r c hr
      by_contra hne
      obtain ⟨c₀, hr₀⟩ := hwf.of_reserves hm (by simpa using Ne.symm hne) hr
      rw [SortedMap.get?_of_entries_nil hnil] at hr₀
      cases hr₀
    rw [honly hr, honly hr']
  · have hnot : ∀ r, m ≠ .turn (.reserve r) := fun r heq => hnew ⟨r, heq⟩
    obtain ⟨c₀, hr₀⟩ := hwf.of_reserves hm (hnot r) hr
    obtain ⟨c₀', hr₀'⟩ := hwf.of_reserves hm (hnot r') hr'
    exact h.one r r' c₀ c₀' hr₀ hr₀'

/-- A scan goes past items that were handed out, and notices what is written behind it. -/
theorem Scanned.passed_moved (h : l.Scanned) (hcursor : l.Cursor) (hwf : l.Wf)
    (hm : Moved l m l') :
    ∀ r c, l'.reserves.get? r = some c → ∀ t v, l'.items.get? t = some v →
      t < c.pc.position → ¬HandedOut (thisSession l'.log) t → t ∈ c.behind := by
  intro r c hr t v ht hlt hnew
  have hnot : ¬HandedOut (thisSession l.log) t := fun hout => hnew (handedOut_mono hm hout)
  cases hm with
  | call | turnedAway | waits | claim | giveBack | close | record | release | returned | gaveUp =>
    exact h.passed r c hr t v ht hlt hnot
  | reserve =>
    rcases SortedMap.of_get?_insert hr with ⟨-, rfl⟩ | ⟨-, hr⟩
    · exact absurd hlt (hcursor.head_le ht).not_gt
    · exact h.passed r c hr t v ht hlt hnot
  | ended | handedOut => exact h.passed r c (SortedMap.of_get?_erase hr).2 t v ht hlt hnot
  | found hr₀ hseek hkey =>
    rcases SortedMap.of_get?_insert hr with ⟨-, rfl⟩ | ⟨-, hr⟩
    · -- the seek found the first item from the cursor on
      refine h.passed _ _ hr₀ t v ht (not_le.mp fun hle => ?_) hnot
      exact absurd hlt ((hwf.found hr₀ hseek hkey).2.2 t v ht hle).not_gt
    · exact h.passed r c hr t v ht hlt hnot
  | @skipped r₀ g seq value behind hr₀ hmem =>
    rcases SortedMap.of_get?_insert hr with ⟨-, rfl⟩ | ⟨-, hr⟩
    · have hseq := hwf.lt_u64Max (hwf.checking_lt _ _ _ _ hr₀)
      simp only [ReservePc.position, u64Succ_of_lt hseq] at hlt
      rcases eq_or_lt_of_le (Nat.lt_succ_iff.mp hlt) with rfl | hlt
      · exact absurd (h.reserved _ hmem) hnot
      · exact h.passed _ _ hr₀ t v ht hlt hnot
    · exact h.passed r c hr t v ht hlt hnot
  | @remove g gd hg hpc o =>
    rw [get?_items_remove (hwf.lt_u64Size (hwf.guard_lt g gd hg))] at ht
    split at ht
    · cases ht
    · exact h.passed r c hr t v ht hlt hnot
  | @put seq w hw hstage durable o =>
    obtain ⟨c₀, hr₀, rfl⟩ := get?_reserves_put hr
    rw [get?_items_put (hwf.lt_u64Size (hwf.write_lt seq w hw))] at ht
    split at ht
    · next hand =>
      obtain ⟨ho, rfl⟩ := hand
      rw [if_pos ho] at hlt ⊢
      rw [notice_pc] at hlt
      exact notice_behind.mpr (Or.inr ⟨rfl, hlt⟩)
    · split at hlt
      · next ho =>
        rw [if_pos ho]
        rw [notice_pc] at hlt
        exact notice_behind.mpr (Or.inl (h.passed r c₀ hr₀ t v ht hlt hnot))
      · next ho =>
        rw [if_neg ho]
        exact h.passed r c₀ hr₀ t v ht hlt hnot

/-- What is written behind a scan is new. -/
theorem Scanned.behind_moved (h : l.Scanned) (hkept : l.Kept) (hm : Moved l m l') :
    ∀ r c, l'.reserves.get? r = some c → ∀ t ∈ c.behind,
      ¬HandedOut (thisSession l'.log) t := by
  intro r c hr t ht hout
  -- a scan that hands an item out is over, and there is no other
  have hnot : (∃ c₀, l.reserves.get? r = some c₀ ∧ t ∈ c₀.behind) → False := by
    rintro ⟨c₀, hr₀, ht₀⟩
    rcases of_handedOut hm hout with hout | ⟨r', g, v, behind, rfl, hr', hmem⟩
    · exact h.behind r c₀ hr₀ t ht₀ hout
    · obtain rfl := h.one r r' c₀ _ hr₀ hr'
      cases hm with
      | skipped g hr'' hmem' =>
        obtain ⟨hpc, -⟩ := ReserveCall.mk.inj (Option.some.inj (hr'.symm.trans hr''))
        obtain ⟨rfl, -⟩ := ReservePc.checking.inj hpc
        exact hmem hmem'
      | handedOut => exact (SortedMap.of_get?_erase hr).1 rfl
  cases hm with
  | call | turnedAway | waits | claim | giveBack | close | remove | record | release | returned
  | gaveUp => exact hnot ⟨c, hr, ht⟩
  | reserve =>
    rcases SortedMap.of_get?_insert hr with ⟨-, rfl⟩ | ⟨-, hr⟩
    · cases ht
    · exact hnot ⟨c, hr, ht⟩
  | ended | handedOut => exact hnot ⟨c, (SortedMap.of_get?_erase hr).2, ht⟩
  | found hr₀ | skipped g hr₀ =>
    rcases SortedMap.of_get?_insert hr with ⟨rfl, rfl⟩ | ⟨-, hr⟩
    · exact hnot ⟨_, hr₀, ht⟩
    · exact hnot ⟨c, hr, ht⟩
  | @put seq w hw hstage durable o hdurable =>
    obtain ⟨c₀, hr₀, rfl⟩ := get?_reserves_put hr
    split at ht
    · rcases notice_behind.mp ht with ht | ⟨rfl, -⟩
      · exact hnot ⟨c₀, hr₀, ht⟩
      · have hunseen : l.Unseen t :=
          hkept.unseen t w hw (by rcases hstage with hs | hs <;> simp [hs])
        rcases of_handedOut (.put hw hstage durable o hdurable) hout with
          hout | ⟨_, _, _, _, hne, -⟩
        · exact hunseen.not_landed (h.landed t hout)
        · cases hne
    · exact hnot ⟨c₀, hr₀, ht⟩

theorem Scanned.moved (h : l.Scanned) (hcursor : l.Cursor) (hkept : l.Kept) (hwf : l.Wf)
    (hmove : oneReserve.move l m) (hm : Moved l m l') : l'.Scanned := by
  have hclean := oneReserve_clean hmove
  have hlanded : ∀ {t}, l.Landed t → l'.Landed t := hkept.landed_moved hwf hclean hm
  have hout : ∀ {t}, HandedOut (thisSession l.log) t → HandedOut (thisSession l'.log) t :=
    handedOut_mono hm
  refine ⟨fun t ht => ?_, fun r t v b hr => ?_, fun g gd hg => ?_, fun t ht => ?_, fun t ht => ?_,
    h.one_moved hwf hmove hm, h.passed_moved hcursor hwf hm, h.behind_moved hkept hm⟩
  · rcases of_handedOut hm ht with ht | ⟨r, g, v, behind, -, hr, -⟩
    · exact hlanded (h.landed t ht)
    · exact hlanded (h.found r t v behind hr)
  · rcases hwf.of_found hm hr with ⟨b₀, hold⟩ | ⟨-, hstored⟩
    · exact hlanded (h.found r t v b₀ hold)
    · exact hlanded (Or.inl ⟨v, hstored⟩)
  · rcases of_guards hm hg with ⟨gd₀, hold, hseq, -⟩ | ⟨r, behind, -, -, -, -, hnow⟩
    · exact hseq ▸ hout (h.guarded g gd₀ hold)
    · exact ⟨gd.value, hnow⟩
  · cases hm with
    | call | turnedAway | waits | giveBack | claim | close | reserve | ended | found | skipped
    | remove | put | returned | gaveUp => exact hout (h.reserved t ht)
    | @handedOut r g seq value behind hr₀ hmem hnone =>
      rw [Inner.reserve_reserved, Finset.mem_insert] at ht
      rcases ht with rfl | ht
      · exact ⟨value, by simp⟩
      · exact hout (h.reserved t ht)
    | record =>
      rw [Inner.recordAck_reserved] at ht
      exact hout (h.reserved t (Finset.mem_of_mem_erase ht))
    | release =>
      rw [Inner.release_reserved] at ht
      exact hout (h.reserved t (Finset.mem_of_mem_erase ht))
  · rcases (moved_deleted hm).mp ht with ht | ⟨g, gd, o, -, hg, -, -, rfl⟩
    · exact hout (h.deleted t ht)
    · exact hout (h.guarded g gd hg)

/-! ## When a scan keeps the order -/

/-- Everything the order rests on. -/
structure Tracked (l : Ledger) : Prop where
  cursor : l.Cursor
  kept : l.Kept
  timed : l.Timed
  scanned : l.Scanned

theorem tracked_opened {b : Builder} (h : FreshLedger b l) : l.Tracked where
  cursor := cursor_opened h
  kept := kept_opened h
  timed := by
    rw [h.opened]
    exact timed_opened
  scanned := scanned_opened h

theorem Tracked.moved (h : l.Tracked) (hwf : l.Wf) (hmove : oneReserve.move l m)
    (hm : Moved l m l') : l'.Tracked := by
  have hclean := oneReserve_clean hmove
  exact ⟨h.cursor.moved hwf (Discipline.move_below hmove) hm (h.kept.not_deleted hm),
    h.kept.moved h.cursor hwf hclean hm, h.timed.moved h.kept hm,
    h.scanned.moved h.cursor h.kept hwf hmove hm⟩

/-- What a scan has passed and not handed out is what was written behind it. -/
theorem Tracked.before_iff (h : l.Tracked) {r b : ℕ} {v : Bytes} {behind : Finset ℕ}
    (hr : l.reserves.get? r = some ⟨.checking b v, behind⟩) :
    (∀ a, Before (thisSession l.log) a b → HandedOut (thisSession l.log) a) ↔
      ∀ a ∈ behind, ¬Before (thisSession l.log) a b := by
  constructor
  · intro hout a ha hbefore
    exact h.scanned.behind r _ hr a ha (hout a hbefore)
  · intro hnone a hbefore
    by_contra hnot
    obtain ⟨ka, va, kb, vb, hlog, -⟩ := id hbefore
    rcases (h.kept.returned ka a va hlog.mem_left).2.2 with hstored | hd
    · exact hnone a (h.scanned.passed r _ hr a va hstored (h.timed.before_lt hbefore) hnot) hbefore
    · exact hnot (h.scanned.deleted a hd)

/-- No scan hands out an item while one that was pushed before it has been written behind the
scan. -/
def InOrder (l : Ledger) (m : Move) : Prop :=
  ∀ r g b v behind, m = .turn (.check r g) → l.reserves.get? r = some ⟨.checking b v, behind⟩ →
    b ∉ l.inner.reserved → ∀ a ∈ behind, ¬Before (thisSession l.log) a b

/-- A move keeps the order exactly if it is allowed to. -/
theorem Tracked.fifo_moved (h : l.Tracked) (hm : Moved l m l') :
    Fifo (thisSession l'.log) ↔ Fifo (thisSession l.log) ∧ l.InOrder m := by
  obtain ⟨es, heq, hes⟩ := moved_session hm
  by_cases hout : ∃ r g b v behind, m = .turn (.check r g) ∧
      l.reserves.get? r = some ⟨.checking b v, behind⟩ ∧ b ∉ l.inner.reserved
  · obtain ⟨r, g, b, v, behind, rfl, hr, hmem⟩ := hout
    cases hm with
    | skipped g hr' hmem' =>
      obtain ⟨hpc, -⟩ := ReserveCall.mk.inj (Option.some.inj (hr.symm.trans hr'))
      obtain ⟨rfl, -⟩ := ReservePc.checking.inj hpc
      exact absurd hmem' hmem
    | @handedOut _ _ seq value _ hr' hmem' hnone =>
      obtain ⟨hpc, rfl⟩ := ReserveCall.mk.inj (Option.some.inj (hr.symm.trans hr'))
      obtain ⟨rfl, rfl⟩ := ReservePc.checking.inj hpc
      simp only [thisSession_cons, ne_eq, reduceCtorEq, not_false_eq_true]
      constructor
      · rintro ⟨hnow, hold⟩
        refine ⟨hold, fun r₁ g₁ b₁ v₁ behind₁ hturn hr₁ _ => ?_⟩
        obtain ⟨rfl, -⟩ := Turn.check.inj (Move.turn.inj hturn)
        obtain ⟨hpc, rfl⟩ := ReserveCall.mk.inj (Option.some.inj (hr.symm.trans hr₁))
        obtain ⟨rfl, -⟩ := ReservePc.checking.inj hpc
        exact (h.before_iff hr).mp (hnow b v rfl)
      · rintro ⟨hold, hin⟩
        refine ⟨fun b₁ v₁ heq => ?_, hold⟩
        obtain ⟨rfl, -⟩ := Event.handedOut.inj heq
        exact (h.before_iff hr).mpr (hin r g b v behind rfl hr hmem)
  · -- a move that hands nothing out adds nothing that has to be justified
    have hfree : ∀ e ∈ es, ∀ pre b v, e = .handedOut b v →
        ∀ a, Before pre a b → HandedOut pre a := by
      rintro e he pre b v rfl
      obtain ⟨r, g, behind, hturn, hr, hmem⟩ := hes _ he
      exact absurd ⟨r, g, b, v, behind, hturn, hr, hmem⟩ hout
    rw [heq]
    refine ⟨fun hfifo => ⟨hfifo.suffix, ?_⟩, fun hfifo => hfifo.1.append hfree⟩
    intro r g b v behind hturn hr hmem
    exact absurd ⟨r, g, b, v, behind, hturn, hr, hmem⟩ hout

theorem inOrder_turn {a : Turn} : l.InOrder (.turn a) ↔ a.InOrder l := by
  cases a with
  | check r g =>
    refine ⟨fun h b v behind => h r g b v behind rfl, fun h r' g' b v behind hturn => ?_⟩
    obtain ⟨rfl, rfl⟩ := Turn.check.inj (Move.turn.inj hturn)
    exact h b v behind
  | call | attempt | giveBack | close | reserve | seek | ack | record | release =>
    exact ⟨fun _ => trivial, fun _ _ _ _ _ _ hturn => (by cases hturn)⟩

theorem Tracked.run (h : l.Tracked) (hwf : l.Wf) {ms : List Move}
    (hrun : Run Ledger.step oneReserve.move l ms l') : l'.Tracked := by
  refine (hrun.invariant (I := fun l => l.Wf ∧ l.Tracked) (fun l m l' hl hmove hstep => ?_)
    ⟨hwf, h⟩).2
  have hm := moved_of_step hstep
  exact ⟨hl.1.moved (Discipline.move_below hmove) hm, hl.2.moved hl.1 hmove hm⟩

/-- A run that ends in order was in order all along. -/
theorem fifo_of_run {ms : List Move} {ok : Ledger → Move → Prop}
    (hrun : Run Ledger.step ok l ms l') (hfifo : Fifo (thisSession l'.log)) :
    Fifo (thisSession l.log) := by
  induction hrun with
  | nil => exact hfifo
  | cons _ hstep _ ih =>
    obtain ⟨es, heq, -⟩ := moved_session (moved_of_step hstep)
    have hnext := ih hfifo
    rw [heq] at hnext
    exact hnext.suffix

end Ledger

/-- A run that ends in order took only steps that keep the order. -/
theorem Coupled.inOrder_of_fifo {s t : Session} {as : List Act} (h : Coupled s)
    (htracked : s.toLedger.Tracked) (hrun : Run Session.step oneReserve.act s as t)
    (hfifo : Fifo (thisSession t.log)) : Run Session.step inOrder.act s as t := by
  induction hrun with
  | nil => exact .nil _
  | @cons s s₁ t a as hok hstep hrest ih =>
    obtain ⟨hcoupled, ms, hms⟩ := h.step hok hstep
    obtain ⟨-, ms', hms'⟩ := hcoupled.run hrest
    refine .cons ?_ hstep (ih hcoupled (htracked.run h.wf hms) hfifo)
    cases a with
    | turn a =>
      obtain ⟨l, hl, rfl⟩ := Option.map_eq_some_iff.mp hstep
      have hm : Ledger.Moved s.toLedger (.turn a) l := Ledger.moved_of_step hl
      have hin := ((htracked.fifo_moved hm).mp (Ledger.fifo_of_run hms' hfifo)).2
      exact ⟨hok.1, hok.2, Ledger.inOrder_turn.mp hin⟩
    | commit | enter | flush | record | wake | retry => exact hok

/-- **Real-time order.** A run with one reserve call at a time and no failing commit hands
items out oldest first if and only if no scan hands out an item while one that was pushed
before it has been written behind the scan. -/
theorem fifo_iff {b : Builder} {st : Store} {s₀ s : Session} {as : List Act}
    (hopen : Opens b st s₀) (hrun : Run Session.step oneReserve.act s₀ as s) :
    Fifo (thisSession s.log) ↔ Run Session.step inOrder.act s₀ as s := by
  have htracked := Ledger.tracked_opened hopen.fresh.1
  constructor
  · exact hopen.coupled.inOrder_of_fifo htracked hrun
  · intro hin
    refine (hopen.invariant (I := fun l => l.Tracked ∧ Fifo (thisSession l.log)) hin
      (fun l hl => ⟨Ledger.tracked_opened hl, ?_⟩) fun l m l' hwf hl hmove hm =>
        ⟨hl.1.moved hwf (inOrder_oneReserve hmove) hm, ?_⟩).1.2
    · rw [hl.opened]
      exact Justified.nil
    · refine (hl.1.fifo_moved hm).mpr ⟨hl.2, ?_⟩
      cases m with
      | turn a => exact Ledger.inOrder_turn.mpr hmove.2.2
      | put | returned | gaveUp =>
        intro _ _ _ _ _ hturn
        cases hturn

/-- A producer is slow, and the scan that passes its seq finds no item it could jump ahead
with. -/
theorem fifo_iff_slow_producer :
    ∃ s, Run Session.step oneReserve.act (Session.fresh .default64)
      [.turn (.call [0] true), .turn (.call [1] true), .turn (.attempt 1), .turn (.attempt 2),
        .commit 1 .ok, .turn (.reserve 0), .turn (.seek 0 true), .turn (.check 0 0),
        .turn (.reserve 0), .turn (.seek 0 true), .turn (.check 0 1), .commit 0 .ok,
        .turn (.seek 0 true), .turn (.reserve 0), .turn (.seek 0 true), .turn (.check 0 1)] s ∧
    (Fifo (thisSession s.log) ↔ Run Session.step inOrder.act (Session.fresh .default64)
      [.turn (.call [0] true), .turn (.call [1] true), .turn (.attempt 1), .turn (.attempt 2),
        .commit 1 .ok, .turn (.reserve 0), .turn (.seek 0 true), .turn (.check 0 0),
        .turn (.reserve 0), .turn (.seek 0 true), .turn (.check 0 1), .commit 0 .ok,
        .turn (.seek 0 true), .turn (.reserve 0), .turn (.seek 0 true), .turn (.check 0 1)] s) := by
  refine Exists.imp (fun s hrun => ⟨hrun, fifo_iff (opens_fresh _) hrun⟩) ?_
  exact Run.exists_of_exec (by decide)

/-- A scan has gone past the held item 1 when the slow push of item 0 returns; then item 2 is
pushed, and the scan finds it. -/
def overtaking : List Act :=
  [.turn (.call [0] true), .turn (.call [1] true), .turn (.attempt 1), .turn (.attempt 2),
    .commit 1 .ok, .turn (.reserve 0), .turn (.seek 0 true), .turn (.check 0 0),
    .turn (.reserve 0), .turn (.seek 0 true), .turn (.check 0 1), .commit 0 .ok,
    .turn (.call [2] true), .turn (.attempt 10), .commit 2 .ok, .turn (.seek 0 true),
    .turn (.check 0 1)]

/-- Item 2 is handed out before item 0, which was pushed before it. -/
theorem overtaken :
    ∃ s, Run Session.step oneReserve.act (Session.fresh .default64) overtaking s ∧
      s.items.get? 0 = some [0] ∧ ¬Fifo (thisSession s.log) := by
  have hrun : ∃ s, Run Session.step oneReserve.act (Session.fresh .default64) overtaking s ∧
      s.items.get? 0 = some [0] ∧ thisSession s.log =
        [.handedOut 2 [2], .pushOk 10 2 [2], .put 2 [2] none true, .claimed 10 2 [2],
          .called 10 [2], .pushOk 1 0 [0], .put 0 [0] none true, .handedOut 1 [1],
          .pushOk 2 1 [1], .put 1 [1] none true, .claimed 2 1 [1], .claimed 1 0 [0],
          .called 2 [1], .called 1 [0]] := Run.exists_of_exec_any (by decide)
  obtain ⟨s, hrun, hstored, hlog⟩ := hrun
  refine ⟨s, hrun, hstored, fun hfifo => ?_⟩
  rw [hlog] at hfifo
  obtain ⟨v, hv⟩ := hfifo.1 2 [2] rfl 0 ⟨1, [0], 10, [2], by decide, by decide⟩
  simp at hv

end PersistentQueue
