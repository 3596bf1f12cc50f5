import PersistentQueue.Lib.SortedMap

/-!
# Maps that survive crashes

A map on disk, as its user sees it and as a crash may leave it. `live` is what reads
return. `synced` holds, for every key, the effect of the last durable write to it, and
`later` lists the writes since then that are not durable, oldest first. A crash keeps
`synced` with any selection of the later writes applied: each key ends with its last
durable content or with that of some later write.

A write list that fails half-way is a non-durable write of the part that took effect
(`select`). Proofs use two notions. `Pinned` is a key whose content no crash can change:
a durable write pins the keys it touches, and a pinned key stays pinned as long as nobody
writes anything else to it. `All` is a property of everything the map holds or can come to
hold by a crash.
-/

universe u v

variable {κ : Type u} {ν : Type v} [LinearOrder κ]

/-- One write: a key and its new content, `none` to remove it. -/
abbrev Update (κ : Type u) (ν : Type v) : Type (max u v) := κ × Option ν

namespace SortedMap

/-- Apply one write. -/
def apply (m : SortedMap κ ν) : Update κ ν → SortedMap κ ν
  | (k, some v) => m.insert k v
  | (k, none) => m.erase k

/-- Apply writes in order. -/
def applyAll (m : SortedMap κ ν) (us : List (Update κ ν)) : SortedMap κ ν :=
  us.foldl apply m

theorem get?_apply (m : SortedMap κ ν) (u : Update κ ν) (a : κ) :
    (m.apply u).get? a = if a = u.1 then u.2 else m.get? a := by
  obtain ⟨k, _ | v⟩ := u
  · exact get?_erase m k a
  · exact get?_insert m k a v

@[simp] theorem applyAll_nil (m : SortedMap κ ν) : m.applyAll [] = m := rfl

@[simp] theorem applyAll_cons (m : SortedMap κ ν) (u : Update κ ν) (us : List (Update κ ν)) :
    m.applyAll (u :: us) = (m.apply u).applyAll us := rfl

theorem applyAll_append (m : SortedMap κ ν) (us vs : List (Update κ ν)) :
    m.applyAll (us ++ vs) = (m.applyAll us).applyAll vs := List.foldl_append

/-- A key no write names keeps its content. -/
theorem get?_applyAll_of_ne {us : List (Update κ ν)} {a : κ} :
    ∀ {m : SortedMap κ ν}, (∀ u ∈ us, u.1 ≠ a) → (m.applyAll us).get? a = m.get? a := by
  induction us with
  | nil => intro m _; rfl
  | cons u us ih =>
    intro m hne
    rw [applyAll_cons, ih fun u' hu' => hne u' (List.mem_cons_of_mem _ hu'), get?_apply,
      if_neg (Ne.symm (hne u List.mem_cons_self))]

/-- A key that every write leaves with the content it has keeps it. -/
theorem get?_applyAll_of_same {us : List (Update κ ν)} {a : κ} {c : Option ν} :
    ∀ {m : SortedMap κ ν}, (∀ u ∈ us, u.1 = a → u.2 = c) → m.get? a = c →
      (m.applyAll us).get? a = c := by
  induction us with
  | nil => intro m _ hm; exact hm
  | cons u us ih =>
    intro m hsame hm
    rw [applyAll_cons]
    refine ih (fun u' hu' => hsame u' (List.mem_cons_of_mem _ hu')) ?_
    rw [get?_apply]
    split
    · next heq => exact hsame u List.mem_cons_self heq.symm
    · exact hm

/-- Among writes to distinct keys, each one decides its key. -/
theorem get?_applyAll_of_mem {us : List (Update κ ν)} {u : Update κ ν} :
    ∀ {m : SortedMap κ ν}, (us.map Prod.fst).Nodup → u ∈ us → (m.applyAll us).get? u.1 = u.2 := by
  induction us with
  | nil => intro m _ hu; cases hu
  | cons x us ih =>
    intro m hnodup hu
    obtain ⟨hx, hnodup⟩ := List.nodup_cons.mp hnodup
    rw [applyAll_cons]
    rcases List.mem_cons.mp hu with rfl | hu
    · have hne : ∀ u' ∈ us, u'.1 ≠ u.1 := fun u' hu' heq =>
        hx (heq ▸ List.mem_map_of_mem hu')
      rw [get?_applyAll_of_ne hne, get?_apply, if_pos rfl]
    · exact ih hnodup hu

/-- Writes to distinct keys can be done in any order. -/
theorem applyAll_perm {us vs : List (Update κ ν)} (hperm : us.Perm vs)
    (hnodup : (us.map Prod.fst).Nodup) (m : SortedMap κ ν) : m.applyAll us = m.applyAll vs := by
  refine ext_get? fun a => ?_
  by_cases ha : ∃ u ∈ us, u.1 = a
  · obtain ⟨u, hu, rfl⟩ := ha
    rw [get?_applyAll_of_mem hnodup hu,
      get?_applyAll_of_mem ((hperm.map _).nodup_iff.mp hnodup) (hperm.mem_iff.mp hu)]
  · have hne : ∀ u ∈ us, u.1 ≠ a := fun u hu heq => ha ⟨u, hu, heq⟩
    rw [get?_applyAll_of_ne hne, get?_applyAll_of_ne fun v hv => hne v (hperm.mem_iff.mpr hv)]

/-- What is in the map after some writes was there before or was written. -/
theorem of_get?_applyAll {us : List (Update κ ν)} {p : κ → ν → Prop} :
    ∀ {m : SortedMap κ ν}, (∀ k v, m.get? k = some v → p k v) →
      (∀ k v, (k, some v) ∈ us → p k v) → ∀ k v, (m.applyAll us).get? k = some v → p k v := by
  induction us with
  | nil => intro m hm _; exact hm
  | cons u us ih =>
    intro m hm hus
    refine ih (fun k v hk => ?_) fun k v hmem => hus k v (List.mem_cons_of_mem _ hmem)
    rw [get?_apply] at hk
    split at hk
    · next heq =>
      obtain rfl : u = (k, some v) := Prod.ext heq.symm hk
      exact hus k v List.mem_cons_self
    · exact hm k v hk

end SortedMap

/-- The part of a list that a mask selects; positions beyond the mask are left out. -/
def List.select {α : Type u} : List α → List Bool → List α
  | a :: as, true :: mask => a :: as.select mask
  | _ :: as, false :: mask => as.select mask
  | _, _ => []

theorem List.select_sublist {α : Type u} (as : List α) (mask : List Bool) :
    (as.select mask).Sublist as := by
  induction as generalizing mask with
  | nil => exact List.nil_sublist _
  | cons a as ih =>
    rcases mask with _ | ⟨_ | _, mask⟩
    · exact List.nil_sublist _
    · exact (ih mask).cons a
    · exact (ih mask).cons_cons a

@[simp] theorem List.select_nil {α : Type u} (as : List α) : as.select [] = [] := by
  cases as <;> rfl

/-- A mask can select any sublist. -/
theorem List.exists_select {α : Type u} {as bs : List α} (h : bs.Sublist as) :
    ∃ mask, as.select mask = bs := by
  induction h with
  | slnil => exact ⟨[], rfl⟩
  | cons a _ ih =>
    obtain ⟨mask, rfl⟩ := ih
    exact ⟨false :: mask, rfl⟩
  | cons_cons a _ ih =>
    obtain ⟨mask, rfl⟩ := ih
    exact ⟨true :: mask, rfl⟩

theorem List.select_all {α : Type u} (as : List α) : as.select (as.map fun _ => true) = as := by
  induction as with
  | nil => rfl
  | cons a as ih => exact congrArg (a :: ·) ih

theorem List.select_map {α : Type u} {β : Type v} (f : α → β) (as : List α) (mask : List Bool) :
    (as.map f).select mask = (as.select mask).map f := by
  induction as generalizing mask with
  | nil => rfl
  | cons a as ih =>
    rcases mask with _ | ⟨_ | _, mask⟩
    · rfl
    · exact ih mask
    · exact congrArg (f a :: ·) (ih mask)

/-- A map, what of it is durable, and what is still on its way to disk. -/
structure Journaled (κ : Type u) (ν : Type v) [LinearOrder κ] where
  /-- what a reader sees -/
  live : SortedMap κ ν
  /-- the effect of the last durable write to each key -/
  synced : SortedMap κ ν
  /-- the writes after the last durable one to their key, oldest first -/
  later : List (Update κ ν)

namespace Journaled

variable {d : Journaled κ ν} {us : List (Update κ ν)} {k : κ} {c : Option ν}

/-- A map whose whole content is durable. -/
def ofMap (m : SortedMap κ ν) : Journaled κ ν := ⟨m, m, []⟩

/-- A write list that took effect as a whole. -/
def write (d : Journaled κ ν) (us : List (Update κ ν)) (durable : Bool) : Journaled κ ν where
  live := d.live.applyAll us
  synced := if durable then d.synced.applyAll us else d.synced
  later :=
    if durable then d.later.filter fun u => u.1 ∉ us.map Prod.fst else d.later ++ us

/-- A crash: the durable content, with the selected later writes applied. -/
def crash (d : Journaled κ ν) (kept : List Bool) : Journaled κ ν :=
  { d with live := d.synced.applyAll (d.later.select kept) }

@[simp] theorem write_live (d : Journaled κ ν) (us : List (Update κ ν)) (durable : Bool) :
    (d.write us durable).live = d.live.applyAll us := rfl

@[simp] theorem write_nil (d : Journaled κ ν) (durable : Bool) : d.write [] durable = d := by
  cases durable <;> simp [write]

/-- Writing two lists is writing one after the other. -/
theorem write_append (d : Journaled κ ν) (us vs : List (Update κ ν)) (durable : Bool) :
    d.write (us ++ vs) durable = (d.write us durable).write vs durable := by
  cases durable
  · simp [write, SortedMap.applyAll]
  · simp only [write, SortedMap.applyAll, if_true, List.foldl_append, List.filter_filter]
    congr 1
    refine List.filter_congr fun u _ => ?_
    rw [List.map_append, ← Bool.decide_and, decide_eq_decide, List.mem_append, not_or, and_comm]

/-- The content of the key is `c`, and no crash can change that. -/
structure Pinned (d : Journaled κ ν) (k : κ) (c : Option ν) : Prop where
  live : d.live.get? k = c
  synced : d.synced.get? k = c
  later : ∀ u ∈ d.later, u.1 = k → u.2 = c

/-- A durable write pins every key it touches. -/
theorem pinned_write (hnodup : (us.map Prod.fst).Nodup) (hmem : (k, c) ∈ us) :
    (d.write us true).Pinned k c where
  live := SortedMap.get?_applyAll_of_mem hnodup hmem
  synced := SortedMap.get?_applyAll_of_mem hnodup hmem
  later := by
    intro u hu heq
    have hnot := (List.mem_filter.mp hu).2
    rw [decide_eq_true_eq] at hnot
    exact absurd (heq ▸ List.mem_map_of_mem (f := Prod.fst) hmem) hnot

/-- A pinned key stays pinned while nobody writes anything else to it. -/
theorem Pinned.write (h : d.Pinned k c) (hsame : ∀ u ∈ us, u.1 = k → u.2 = c) (durable : Bool) :
    (d.write us durable).Pinned k c where
  live := SortedMap.get?_applyAll_of_same hsame h.live
  synced := by
    cases durable
    · exact h.synced
    · exact SortedMap.get?_applyAll_of_same hsame h.synced
  later := by
    intro u hu
    cases durable
    · rcases List.mem_append.mp hu with hu | hu
      · exact h.later u hu
      · exact hsame u hu
    · exact h.later u (List.mem_of_mem_filter hu)

/-- A pinned key stays pinned through a crash. -/
theorem Pinned.crash (h : d.Pinned k c) (kept : List Bool) : (d.crash kept).Pinned k c where
  live := SortedMap.get?_applyAll_of_same
    (fun u hu => h.later u ((List.select_sublist _ _).subset hu)) h.synced
  synced := h.synced
  later := h.later

/-- No reader can tell the maps apart, whether or not there is a crash. -/
structure Alike (d e : Journaled κ ν) : Prop where
  live : d.live = e.live
  crash : ∀ m, (∃ kept, (d.crash kept).live = m) ↔ ∃ kept, (e.crash kept).live = m

/-- What a crash leaves: the durable content and some of the later writes. -/
theorem crash_iff {d : Journaled κ ν} {m : SortedMap κ ν} :
    (∃ kept, (d.crash kept).live = m) ↔ ∃ us, us.Sublist d.later ∧ d.synced.applyAll us = m := by
  constructor
  · rintro ⟨kept, rfl⟩
    exact ⟨_, List.select_sublist _ _, rfl⟩
  · rintro ⟨us, hsub, rfl⟩
    obtain ⟨kept, rfl⟩ := List.exists_select hsub
    exact ⟨kept, rfl⟩

/-- Some of the writes of a list, done after others, can be done in any order. -/
theorem crash_perm {vs ws : List (Update κ ν)} {m n : SortedMap κ ν} (hperm : us.Perm vs)
    (hnodup : (us.map Prod.fst).Nodup) (h : ∃ xs, xs.Sublist (ws ++ us) ∧ n.applyAll xs = m) :
    ∃ xs, xs.Sublist (ws ++ vs) ∧ n.applyAll xs = m := by
  obtain ⟨xs, hsub, rfl⟩ := h
  obtain ⟨ws', us', rfl, hws, hus⟩ := List.sublist_append_iff.mp hsub
  obtain ⟨vs', hperm', hvs⟩ := hperm.subperm_left.mp hus.subperm
  refine ⟨ws' ++ vs', hws.append hvs, ?_⟩
  rw [SortedMap.applyAll_append, SortedMap.applyAll_append]
  exact (SortedMap.applyAll_perm hperm'.symm (hnodup.sublist (hus.map _)) _).symm

/-- Writes to distinct keys can be done in any order, and no crash tells. -/
theorem write_perm {vs : List (Update κ ν)} (hperm : us.Perm vs)
    (hnodup : (us.map Prod.fst).Nodup) (durable : Bool) :
    (d.write us durable).Alike (d.write vs durable) := by
  refine ⟨SortedMap.applyAll_perm hperm hnodup _, fun m => ?_⟩
  rw [crash_iff, crash_iff]
  cases durable
  · exact ⟨crash_perm hperm hnodup,
      crash_perm hperm.symm ((hperm.map _).nodup_iff.mp hnodup)⟩
  · simp only [write, if_true, SortedMap.applyAll_perm hperm hnodup, (hperm.map Prod.fst).mem_iff]

/-- Everything that is there, and everything a crash can leave, has the property. -/
structure All (p : κ → ν → Prop) (d : Journaled κ ν) : Prop where
  live : ∀ k v, d.live.get? k = some v → p k v
  synced : ∀ k v, d.synced.get? k = some v → p k v
  later : ∀ k v, (k, some v) ∈ d.later → p k v

variable {p q : κ → ν → Prop}

theorem All.mono (h : d.All p) (hpq : ∀ k v, p k v → q k v) : d.All q where
  live := fun k v hk => hpq k v (h.live k v hk)
  synced := fun k v hk => hpq k v (h.synced k v hk)
  later := fun k v hk => hpq k v (h.later k v hk)

/-- Writes of content with the property keep it. -/
theorem All.write (h : d.All p) (hus : ∀ k v, (k, some v) ∈ us → p k v) (durable : Bool) :
    (d.write us durable).All p where
  live := SortedMap.of_get?_applyAll h.live hus
  synced := by
    cases durable
    · exact h.synced
    · exact SortedMap.of_get?_applyAll h.synced hus
  later := by
    intro k v hmem
    cases durable
    · exact (List.mem_append.mp hmem).elim (h.later k v) (hus k v)
    · exact h.later k v (List.mem_of_mem_filter hmem)

theorem All.crash (h : d.All p) (kept : List Bool) : (d.crash kept).All p where
  live := SortedMap.of_get?_applyAll h.synced fun k v hmem =>
    h.later k v ((List.select_sublist _ _).subset hmem)
  synced := h.synced
  later := h.later

end Journaled
