import PersistentQueue.Attention
import PersistentQueue.Room

/-!
# Dropped futures

A future may be dropped at any of its await points, and the closure it started runs to its
end. A wake that was on its way to it is handed on, and what its closure still does counts
as an attempt, so much is safe. But the notification after the closure's end is sent by the
future: a dropped push whose closure lands the entry tells no reserve, and a dropped ack
whose closure frees the slot tells no push.

`Facade.Heard` and `Facade.Spared` name these steps. Without them nobody sleeps with work
to do, whatever is dropped.
-/

namespace PersistentQueue

/-- The store does not fail. -/
def Turn.NeverFails : Turn → Prop
  | .ack _ o => o = .ok
  | .seek _ ok => ok = true
  | _ => True

instance : DecidablePred Turn.NeverFails
  | .ack _ o => inferInstanceAs (Decidable (o = .ok))
  | .seek _ ok => inferInstanceAs (Decidable (ok = true))
  | .call _ _ | .attempt _ | .giveBack _ | .close | .reserve _ | .check _ _ | .record _
  | .release _ => isTrue trivial

/-- The runs over a store that never fails. -/
def neverFails : Discipline where
  turn _ a := a.NeverFails
  outcome o := o = .ok
  retry _ _ _ := True
  split _ h := Outcome.split_ok h

instance (s : Session) : DecidablePred (neverFails.act s) :=
  neverFails.decideAct (fun _ a => inferInstanceAs (Decidable a.NeverFails))
    (fun o => inferInstanceAs (Decidable (o = .ok))) (fun _ _ _ => instDecidableTrue) s

theorem neverFails_clean {s : Session} {a : Act} (h : neverFails.act s a) :
    cleanFailures.act s a := by
  refine (within_cleanFailures (D := neverFails) (fun l a ha => ?_)
    fun _ ho => Outcome.clean_of_ok ho).act h
  cases a with
  | ack g o => exact Outcome.clean_of_ok ha
  | call | attempt | giveBack | close | reserve | seek | check | record | release => trivial

namespace Facade

/-- The store never fails, one reserve is in progress at a time, and any future may be
dropped. -/
def MayDrop (f : Facade) (a : AsyncAct) : Prop := f.Keeps neverFails a ∧ f.OneReserve a

/-- And nothing happens unannounced that anyone waits for. -/
def KeepsWakes (f : Facade) (a : AsyncAct) : Prop := f.MayDrop a ∧ f.Heard a ∧ f.Spared a

instance (f : Facade) : DecidablePred f.MayDrop :=
  fun a => inferInstanceAs (Decidable (f.Keeps neverFails a ∧ f.OneReserve a))

instance (f : Facade) : DecidablePred f.KeepsWakes :=
  fun a => inferInstanceAs (Decidable (f.MayDrop a ∧ f.Heard a ∧ f.Spared a))

end Facade

/-- **Where a dropped future leaves nobody untold, nobody sleeps with work to do.** With
`max_bytes` unbounded, in every run over a store that never fails, with futures dropped
anywhere, in which nothing that anyone waits for happens unannounced: when all futures
sleep, no closure runs and no wake is on its way, a reserve sleeps only while every stored
item is reserved and the queue is not drained, and a push only on an open queue without a
free slot. -/
theorem dropped_futures_lose_no_wake {b : Builder} {st : Store} {s₀ : Session} {f : Facade}
    {as : List AsyncAct} (hopen : Opens b st s₀) (hbytes : b.maxBytes = Word.maxVal b.usizeBits)
    (hrun : Run Facade.step Facade.KeepsWakes (Facade.opened s₀) as f) (hstill : f.Still)
    (hroom : f.room.Idle) (hitems : f.items.Idle) :
    (∀ r task, f.reserves.get? r = some task →
      (∀ t v, f.queue.items.get? t = some v → t ∈ f.queue.inner.reserved) ∧
        ¬(f.queue.inner.closed = true ∧ f.queue.inner.len = 0)) ∧
    ∀ k task, f.pushes.get? k = some task →
      f.queue.inner.closed = false ∧ f.queue.cfg.capacity ≤ f.queue.inner.len := by
  obtain ⟨hfresh, -⟩ := hopen.fresh
  have hcfg : s₀.cfg = b := hfresh.cfg_eq
  have hkeeps : ∀ {f : Facade} {a}, f.KeepsWakes a → f.Keeps cleanFailures a :=
    fun h c hc => neverFails_clean (h.1.1 c hc)
  obtain ⟨-, -, hattended, hroomy⟩ := Facade.invariant (D := cleanFailures)
    (I := fun l => l.Sound ∧ l.Counted ∧ l.cfg = b) (J := fun f => f.Attended ∧ f.Roomy)
    hrun hopen.coupled ⟨Ledger.sound_opened hfresh, Ledger.counted_opened hfresh, hcfg⟩
    ⟨Facade.attended_opened hfresh, Facade.roomy_opened s₀⟩ (fun f a h => hkeeps h)
    (fun l m l' hwf ⟨hsound, hcounted, hcfg⟩ hclean hm =>
      ⟨hsound.moved hwf hclean hm, hcounted.moved hwf hm, (Ledger.cfg_moved hm).trans hcfg⟩)
    (fun f a f' hcoupled ⟨hsound, hcounted, hcfg⟩ ⟨hattended, hroomy⟩ hok hstep _ =>
      ⟨hattended.stepped hcoupled hsound (hkeeps hok) hok.1.2 hok.2.1 hstep,
        hstep.roomy hroomy hattended.pushes hcoupled hsound.own hcounted.len_lt (hcfg ▸ hbytes)
          (hkeeps hok) hok.2.2⟩)
  exact ⟨fun r task hr => hattended.attentive.of_still hattended.reserves hstill hitems hr,
    fun k task hk => hroomy.of_still hattended.pushes hstill hroom hk⟩

/-- A push is dropped and lands before any reserve is called. Later two pushes sleep; the
ack of the item wakes the first, which is dropped and hands the wake on, and the second
takes the slot. In the end a reserve and a push sleep. -/
def handedOn : List AsyncAct :=
  [.push [1] true, .queue (.turn (.attempt 1)), .dropPush 1, .queue (.commit 0 .ok),
    .reserve, .queue (.turn (.reserve 0)), .queue (.turn (.seek 0 true)),
    .queue (.turn (.check 0 0)), .reserved 0,
    .push [2] true, .queue (.turn (.attempt 6)), .pushed 6,
    .push [3] true, .queue (.turn (.attempt 7)), .pushed 7,
    .ack 0, .queue (.turn (.ack 0 .ok)), .queue (.turn (.record 0)), .acked 0, .notifyItems,
    .dropPush 6, .retry 7, .queue (.turn (.attempt 11)), .queue (.commit 1 .ok), .pushed 11,
    .reserve, .queue (.turn (.reserve 1)), .queue (.turn (.seek 1 true)),
    .queue (.turn (.check 1 1)), .reserved 1,
    .reserve, .queue (.turn (.reserve 2)), .queue (.turn (.seek 2 true)),
    .queue (.turn (.check 2 2)), .queue (.turn (.seek 2 true)), .reserved 2,
    .push [4] true, .queue (.turn (.attempt 16)), .pushed 16]

theorem dropped_futures_lose_no_wake_handed_on :
    ∃ f, Run Facade.step Facade.KeepsWakes (Facade.opened (Session.fresh oneSlot64)) handedOn f ∧
      f.Still ∧ f.room.Idle ∧ f.items.Idle ∧ f.reserves.get? 2 = some ⟨true, .asleep⟩ ∧
      f.pushes.get? 16 = some ⟨true, [4], .asleep⟩ ∧
      (∀ r task, f.reserves.get? r = some task →
        (∀ t v, f.queue.items.get? t = some v → t ∈ f.queue.inner.reserved) ∧
          ¬(f.queue.inner.closed = true ∧ f.queue.inner.len = 0)) ∧
      ∀ k task, f.pushes.get? k = some task →
        f.queue.inner.closed = false ∧ f.queue.cfg.capacity ≤ f.queue.inner.len := by
  have hrun : ∃ f, Run Facade.step Facade.KeepsWakes (Facade.opened (Session.fresh oneSlot64))
      handedOn f ∧ f.Still ∧ f.room.Idle ∧ f.items.Idle ∧
      f.reserves.get? 2 = some ⟨true, .asleep⟩ ∧
      f.pushes.get? 16 = some ⟨true, [4], .asleep⟩ := by decide
  obtain ⟨f, hrun, hstill, hroom, hitems, hr, hk⟩ := hrun
  exact ⟨f, hrun, hstill, hroom, hitems, hr, hk,
    dropped_futures_lose_no_wake (opens_fresh _) rfl hrun hstill hroom hitems⟩

/-- A reserve sleeps. A push claims its seq and is dropped; its closure stores the entry,
and nobody wakes the reserve. -/
theorem dropped_push_wakes_nobody :
    ∃ f, Run Facade.step Facade.MayDrop (Facade.opened (Session.fresh .default64))
      [.reserve, .queue (.turn (.reserve 0)), .queue (.turn (.seek 0 true)), .reserved 0,
        .push [1] true, .queue (.turn (.attempt 1)), .dropPush 1, .queue (.commit 0 .ok)] f ∧
      f.Still ∧ f.room.Idle ∧ f.items.Idle ∧ f.reserves.get? 0 = some ⟨true, .asleep⟩ ∧
      f.queue.items.get? 0 = some [1] ∧ 0 ∉ f.queue.inner.reserved := by decide

/-- A push sleeps while the only item is in hand. Its ack is dropped; the closure frees the
slot, and nobody wakes the push. -/
example :
    ∃ f, Run Facade.step Facade.MayDrop (Facade.opened (Session.fresh oneSlot64))
      [.push [1] true, .queue (.turn (.attempt 1)), .queue (.commit 0 .ok), .pushed 1,
        .reserve, .queue (.turn (.reserve 0)), .queue (.turn (.seek 0 true)),
        .queue (.turn (.check 0 0)), .reserved 0,
        .push [2] true, .queue (.turn (.attempt 6)), .pushed 6,
        .ack 0, .queue (.turn (.ack 0 .ok)), .dropAck 0, .queue (.turn (.record 0))] f ∧
      f.Still ∧ f.room.Idle ∧ f.items.Idle ∧ f.pushes.get? 6 = some ⟨true, [2], .asleep⟩ ∧
      f.queue.inner.len = 0 := by decide

/-- Two reserves at a time, and no dropped future: both sleep on a closed queue while the
last item is in hand. Its ack notifies `items` once, so one returns `None` and the other
sleeps on. (The push at the end takes the permit that the ack left in `room`.) -/
example :
    ∃ f, Run Facade.step (Facade.Keeps neverFails) (Facade.opened (Session.fresh .default64))
      [.push [1] true, .queue (.turn (.attempt 1)), .queue (.commit 0 .ok), .pushed 1,
        .reserve, .queue (.turn (.reserve 0)), .queue (.turn (.seek 0 true)),
        .queue (.turn (.check 0 0)), .reserved 0, .close, .closeRoom, .closeItems,
        .reserve, .queue (.turn (.reserve 1)), .queue (.turn (.seek 1 true)),
        .queue (.turn (.check 1 1)), .queue (.turn (.seek 1 true)), .reserved 1,
        .reserve, .queue (.turn (.reserve 2)), .queue (.turn (.seek 2 true)),
        .queue (.turn (.check 2 1)), .queue (.turn (.seek 2 true)), .reserved 2,
        .ack 0, .queue (.turn (.ack 0 .ok)), .queue (.turn (.record 0)), .acked 0, .notifyItems,
        .rescan 1, .queue (.turn (.reserve 3)), .queue (.turn (.seek 3 true)), .reserved 3,
        .push [2] true, .queue (.turn (.attempt 9)), .pushed 9] f ∧
      f.Still ∧ f.room.Idle ∧ f.items.Idle ∧ f.reserves.get? 2 = some ⟨true, .asleep⟩ ∧
      f.queue.inner.isDrained = true := by decide

end PersistentQueue
