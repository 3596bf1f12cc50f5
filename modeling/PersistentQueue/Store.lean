import PersistentQueue.Lib.Journaled
import PersistentQueue.Key

/-!
# The store

The durable substrate under the queue: an ordered byte map with `get`, `seek`,
`seek_back` and `commit`. Reads see `live`. A commit either returns `Ok` with every op
applied, or returns an error with any selection of its ops applied: the batch need not
be all-or-nothing, and a backend may fail after applying (a flush that fails after the
batch went in). What a crash may undo is in the journal of the map.

The queue's own view of a store is `items`: the entries by sequence number. Under
`WellKeyed` (every key that starts with the entry prefix is a whole entry key, the key
space the queue writes) the nearest-key searches of the byte map are the nearest-seq
searches of `items`.
-/

namespace PersistentQueue

/-- A single write in a commit batch. -/
inductive Op : Type where
  /-- insert or overwrite `key` with `value` -/
  | put (key : Key) (value : Bytes)
  /-- remove `key` -/
  | delete (key : Key)
  deriving DecidableEq

/-- An op as a write to one key. -/
def Op.update : Op → Update Key Bytes
  | .put key value => (key, some value)
  | .delete key => (key, none)

/-- What the environment makes of a commit: it returns `Ok` with all ops applied, or an
error after applying the ops marked `true`. -/
inductive Outcome : Type where
  /-- `Ok(())` -/
  | ok
  /-- `Err(_)`, with the marked ops applied -/
  | err (applied : List Bool)
  deriving DecidableEq

/-- Whether the commit returned `Ok`. -/
def Outcome.isOk : Outcome → Bool
  | .ok => true
  | .err _ => false

/-- A failed commit that left the store alone. -/
def Outcome.errClean : Outcome := .err []

/-- The commit did not fail half-way: an error applied nothing. -/
def Outcome.Clean : Outcome → Prop
  | .ok => True
  | .err applied => applied = []

instance : DecidablePred Outcome.Clean
  | .ok => isTrue trivial
  | .err applied => inferInstanceAs (Decidable (applied = []))

/-- The part of a commit's ops that took effect. -/
def Outcome.part {α : Type} : Outcome → List α → List α
  | .ok, ops => ops
  | .err applied, ops => ops.select applied

/-- What a commit's outcome is for its first op. -/
def Outcome.head : Outcome → Outcome
  | .ok => .ok
  | .err applied => .err (applied.take 1)

/-- What a commit's outcome is for the ops after the first. -/
def Outcome.tail : Outcome → Outcome
  | .ok => .ok
  | .err applied => .err (applied.drop 1)

/-- Whether a commit with a single op took effect. -/
def Outcome.applies : Outcome → Bool
  | .ok => true
  | .err applied => applied.head? == some true

theorem Outcome.applies_of_isOk {o : Outcome} (h : o.isOk = true) : o.applies = true := by
  cases o with
  | ok => rfl
  | err => cases h

/-- An error that applied nothing is no effect. -/
theorem Outcome.Clean.isOk_of_applies {o : Outcome} (h : o.Clean) (ho : o.applies = true) :
    o.isOk = true := by
  cases o with
  | ok => rfl
  | err applied =>
    obtain rfl : applied = [] := h
    cases ho

theorem Outcome.clean_of_ok {o : Outcome} (h : o = .ok) : o.Clean := by
  subst h
  exact trivial

theorem Outcome.Clean.split {o : Outcome} (h : o.Clean) : o.head.Clean ∧ o.tail.Clean := by
  cases o with
  | ok => exact ⟨trivial, trivial⟩
  | err applied =>
    obtain rfl : applied = [] := h
    exact ⟨rfl, rfl⟩

theorem Outcome.split_ok {o : Outcome} (h : o = .ok) : o.head = .ok ∧ o.tail = .ok := by
  subst h
  exact ⟨rfl, rfl⟩

/-- A store: an ordered byte map that may lose what is not durable. -/
abbrev Store : Type := Journaled Key Bytes

namespace Store

/-- A store with nothing in it. -/
def empty : Store := Journaled.ofMap SortedMap.empty

/-- Value for an exact key. -/
def get (st : Store) (key : Key) : Option Bytes := st.live.get? key

/-- Smallest entry whose key is `>= from`. -/
def seek (st : Store) (start : Key) : Option (Key × Bytes) := st.live.seek start

/-- Greatest entry whose key is `<= upto`. -/
def seekBack (st : Store) (upto : Key) : Option (Key × Bytes) := st.live.seekBack upto

/-- Apply `ops`; an error may have applied some of them, never durably. -/
def commit (st : Store) (ops : List Op) (durable : Bool) : Outcome → Store
  | .ok => st.write (ops.map Op.update) durable
  | .err applied => st.write ((ops.map Op.update).select applied) false

@[simp] theorem commit_ok_live (st : Store) (ops : List Op) (durable : Bool) :
    (st.commit ops durable .ok).live = st.live.applyAll (ops.map Op.update) := rfl

/-- What readers see after a commit. -/
theorem commit_live (st : Store) (ops : List Op) (durable : Bool) (o : Outcome) :
    (st.commit ops durable o).live = st.live.applyAll ((o.part ops).map Op.update) := by
  cases o with
  | ok => rfl
  | err applied => exact congrArg st.live.applyAll (List.select_map Op.update ops applied)

/-- A failed commit that applied nothing leaves the store alone. -/
@[simp] theorem commit_err_nil (st : Store) (ops : List Op) (durable : Bool) :
    st.commit ops durable (.err []) = st := by
  simp [commit, Journaled.write]

/-- A batch is committed op by op. -/
theorem commit_cons (st : Store) (op : Op) (ops : List Op) (durable : Bool) (o : Outcome) :
    st.commit (op :: ops) durable o =
      (st.commit [op] durable o.head).commit ops durable o.tail := by
  rcases o with _ | _ | ⟨_ | _, applied⟩
  · exact Journaled.write_append st [op.update] (ops.map Op.update) durable
  · simp [commit, Outcome.head, Outcome.tail]
  · simp [commit, Outcome.head, Outcome.tail, List.select]
  · exact Journaled.write_append st [op.update] ((ops.map Op.update).select applied) false

/-- What readers see after a commit of one op. -/
theorem commit_one_live (st : Store) (op : Op) (durable : Bool) (o : Outcome) :
    (st.commit [op] durable o).live =
      if o.applies then st.live.apply op.update else st.live := by
  rw [commit_live]
  rcases o with _ | _ | ⟨_ | _, applied⟩ <;>
    simp [Outcome.part, Outcome.applies, List.select]

/-- A durable commit of one op that returned `Ok` pins its key. -/
theorem pinned_commit_ok (st : Store) (op : Op) :
    (st.commit [op] true .ok).Pinned op.update.1 op.update.2 :=
  Journaled.pinned_write (List.nodup_singleton _) (List.mem_singleton_self _)

/-- A pinned key survives a commit that does not write anything else to it. -/
theorem pinned_commit {st : Store} {op : Op} {durable : Bool} {o : Outcome} {k : Key}
    {c : Option Bytes} (h : st.Pinned k c)
    (hsame : o.applies = true → op.update.1 = k → op.update.2 = c) :
    (st.commit [op] durable o).Pinned k c := by
  rcases o with _ | _ | ⟨_ | _, applied⟩
  · refine h.write (fun u hu hk => ?_) durable
    obtain rfl := List.mem_singleton.mp hu
    exact hsame rfl hk
  · rw [commit_err_nil]
    exact h
  · simp only [commit, List.map_cons, List.map_nil, List.select]
    exact h.write (by simp) false
  · simp only [commit, List.map_cons, List.map_nil, List.select]
    refine h.write (fun u hu hk => ?_) false
    obtain rfl : u = op.update := by simpa using hu
    exact hsame rfl hk

/-- A property of the whole content is kept by a commit of content that has it. -/
theorem all_commit {st : Store} {p : Key → Bytes → Prop} (h : st.All p) {ops : List Op}
    (hops : ∀ key value, .put key value ∈ ops → p key value) (durable : Bool) (o : Outcome) :
    (st.commit ops durable o).All p := by
  have hus : ∀ k v, (k, some v) ∈ ops.map Op.update → p k v := by
    intro k v hmem
    obtain ⟨op, hop, hupdate⟩ := List.mem_map.mp hmem
    cases op with
    | put key value =>
      obtain ⟨rfl, hv⟩ := Prod.mk.inj hupdate
      obtain rfl := Option.some.inj hv
      exact hops _ _ hop
    | delete key => cases (Prod.mk.inj hupdate).2
  cases o with
  | ok => exact h.write hus durable
  | err applied =>
    exact h.write (fun k v hmem => hus k v ((List.select_sublist _ _).subset hmem)) false

end Store

/-! ## The entries by sequence number -/

/-- The entries of a byte map, under their sequence numbers. -/
def items (m : SortedMap Key Bytes) : SortedMap ℕ Bytes where
  entries := m.entries.filterMap fun e => if isEntry e.1 then some (seqOf e.1, e.2) else none
  sorted := by
    refine List.pairwise_filterMap.mpr (m.sorted.imp ?_)
    intro a b hab x hx y hy
    by_cases ha : isEntry a.1 = true
    · by_cases hb : isEntry b.1 = true
      · rw [if_pos ha] at hx
        rw [if_pos hb] at hy
        obtain rfl := Option.some.inj hx
        obtain rfl := Option.some.inj hy
        rw [← entryKey_seqOf ha, ← entryKey_seqOf hb,
          entryKey_lt_entryKey (seqOf_lt ha) (seqOf_lt hb)] at hab
        exact hab
      · rw [if_neg hb] at hy
        cases hy
    · rw [if_neg ha] at hx
      cases hx

theorem mem_items {m : SortedMap Key Bytes} {s : ℕ} {v : Bytes} :
    (items m).get? s = some v ↔ s < u64Size ∧ m.get? (entryKey s) = some v := by
  rw [SortedMap.get?_eq_some, SortedMap.get?_eq_some, items, List.mem_filterMap]
  constructor
  · rintro ⟨⟨k, w⟩, hmem, he⟩
    by_cases hk : isEntry k = true
    · rw [if_pos hk] at he
      obtain ⟨rfl, rfl⟩ := Prod.mk.inj (Option.some.inj he)
      exact ⟨seqOf_lt hk, by rwa [entryKey_seqOf hk]⟩
    · rw [if_neg hk] at he
      cases he
  · rintro ⟨hs, hmem⟩
    exact ⟨(entryKey s, v), hmem, by rw [if_pos (isEntry_entryKey s), seqOf_entryKey hs]⟩

theorem items_lt {m : SortedMap Key Bytes} {s : ℕ} {v : Bytes}
    (h : (items m).get? s = some v) : s < u64Size := (mem_items.mp h).1

/-- An item is the entry under its key. -/
theorem get?_items {m : SortedMap Key Bytes} {s : ℕ} (hs : s < u64Size) :
    (items m).get? s = m.get? (entryKey s) := by
  rcases hg : m.get? (entryKey s) with _ | v
  · rcases hi : (items m).get? s with _ | w
    · rfl
    · rw [(mem_items.mp hi).2] at hg
      cases hg
  · exact mem_items.mpr ⟨hs, hg⟩

theorem get?_items_of_ge {m : SortedMap Key Bytes} {s : ℕ} (hs : u64Size ≤ s) :
    (items m).get? s = none := by
  rcases hi : (items m).get? s with _ | w
  · rfl
  · exact absurd (items_lt hi) hs.not_gt

theorem get?_of_isEntry {m : SortedMap Key Bytes} {k : Key} (hk : isEntry k = true) :
    (items m).get? (seqOf k) = m.get? k := by
  rw [get?_items (seqOf_lt hk), entryKey_seqOf hk]

/-- A write to an entry key is a write to its item. -/
theorem items_apply {m : SortedMap Key Bytes} {s : ℕ} (hs : s < u64Size) (c : Option Bytes) :
    items (m.apply (entryKey s, c)) = (items m).apply (s, c) := by
  refine SortedMap.ext_get? fun t => ?_
  by_cases ht : t < u64Size
  · rw [get?_items ht, SortedMap.get?_apply, SortedMap.get?_apply, get?_items ht]
    simp only [entryKey_inj ht hs]
  · rw [get?_items_of_ge (not_lt.mp ht), SortedMap.get?_apply, if_neg (by rintro rfl; exact ht hs),
      get?_items_of_ge (not_lt.mp ht)]

/-- A write to another key is not seen. -/
theorem items_apply_of_not_isEntry {m : SortedMap Key Bytes} {k : Key} (hk : isEntry k = false)
    (c : Option Bytes) : items (m.apply (k, c)) = items m := by
  refine SortedMap.ext_get? fun t => ?_
  by_cases ht : t < u64Size
  · rw [get?_items ht, SortedMap.get?_apply, get?_items ht, if_neg]
    rintro rfl
    simp at hk
  · rw [get?_items_of_ge (not_lt.mp ht), get?_items_of_ge (not_lt.mp ht)]

/-! ## The key space the queue writes -/

/-- Every key that starts with the entry prefix is a whole entry key. -/
def WellKeyed (m : SortedMap Key Bytes) : Prop :=
  ∀ k v, m.get? k = some v → k.head? = some entryPrefix → isEntry k = true

theorem wellKeyed_iff {m : SortedMap Key Bytes} :
    WellKeyed m ↔ ∀ e ∈ m.entries, e.1.head? = some entryPrefix → isEntry e.1 = true :=
  ⟨fun h e he => h e.1 e.2 (SortedMap.get?_eq_some.mpr he),
    fun h k v hv => h (k, v) (SortedMap.get?_eq_some.mp hv)⟩

instance : DecidablePred WellKeyed := fun _ => decidable_of_iff' _ wellKeyed_iff

theorem WellKeyed.apply {m : SortedMap Key Bytes} (h : WellKeyed m) {k : Key}
    (hk : k.head? = some entryPrefix → isEntry k = true) (c : Option Bytes) :
    WellKeyed (m.apply (k, c)) := by
  intro a v hv ha
  rw [SortedMap.get?_apply] at hv
  split at hv
  · next heq =>
    obtain rfl : a = k := heq
    exact hk ha
  · exact h a v hv ha

/-- A key between two entry keys starts with the entry prefix. -/
theorem head?_of_between {k : Key} {s : ℕ} (hlow : entryLow ≤ k) (hhigh : k ≤ entryKey s) :
    k.head? = some entryPrefix := by
  cases k with
  | nil => exact absurd hlow (by decide)
  | cons d ds =>
    rw [← not_lt, entryLow, List.cons_lt_cons_iff] at hlow
    rw [← not_lt, entryKey, List.cons_lt_cons_iff] at hhigh
    have hle : entryPrefix ≤ d := not_lt.mp fun h => hlow (Or.inl h)
    have hge : d ≤ entryPrefix := not_lt.mp fun h => hhigh (Or.inl h)
    rw [List.head?_cons, le_antisymm hge hle]

/-- On a well-keyed map, seeking from a bound at or below the entry key of `c`, with no
entry in between, finds the next item when there is one. -/
theorem WellKeyed.seek_eq_some {m : SortedMap Key Bytes} (hm : WellKeyed m) {c : ℕ} {bound : Key}
    (hlow : entryLow ≤ bound) (hbound : ∀ t, t < u64Size → (bound ≤ entryKey t ↔ c ≤ t))
    {s : ℕ} {v : Bytes} (h : (items m).seek c = some (s, v)) :
    m.seek bound = some (entryKey s, v) := by
  obtain ⟨hget, hcs, hleast⟩ := SortedMap.seek_eq_some.mp h
  obtain ⟨hs, hget⟩ := mem_items.mp hget
  refine SortedMap.seek_eq_some.mpr ⟨hget, (hbound s hs).mpr hcs, fun k w hk hbk => ?_⟩
  by_contra hlt
  have hks : k ≤ entryKey s := (not_le.mp hlt).le
  have hentry := hm k w hk (head?_of_between (hlow.trans hbk) hks)
  rw [← entryKey_seqOf hentry] at hbk hlt
  have hct := (hbound _ (seqOf_lt hentry)).mp hbk
  have hle := hleast (seqOf k) w (by rw [get?_of_isEntry hentry]; exact hk) hct
  exact hlt ((entryKey_le_entryKey hs (seqOf_lt hentry)).mpr hle)

/-- With no item left, the same search ends on another key or on nothing. -/
theorem seek_eq_none {m : SortedMap Key Bytes} {c : ℕ} {bound : Key}
    (hbound : ∀ t, t < u64Size → (bound ≤ entryKey t ↔ c ≤ t))
    (h : (items m).seek c = none) {k : Key} {v : Bytes} (hk : m.seek bound = some (k, v)) :
    isEntry k = false := by
  obtain ⟨hget, hbk, -⟩ := SortedMap.seek_eq_some.mp hk
  by_contra hentry
  rw [Bool.not_eq_false] at hentry
  have hlt := SortedMap.seek_eq_none.mp h (seqOf k) v (by rw [get?_of_isEntry hentry]; exact hget)
  rw [← entryKey_seqOf hentry] at hbk
  exact absurd ((hbound _ (seqOf_lt hentry)).mp hbk) hlt.not_ge

/-- On a well-keyed map that holds an item, seeking back from the greatest entry key finds
the last item. -/
theorem WellKeyed.seekBack_of_item {m : SortedMap Key Bytes} (hm : WellKeyed m) {t : ℕ} {w : Bytes}
    (ht : (items m).get? t = some w) :
    ∃ k v, m.seekBack entryHigh = some (k, v) ∧ isEntry k = true ∧
      (items m).get? (seqOf k) = some v ∧ ∀ t w, (items m).get? t = some w → t ≤ seqOf k := by
  obtain ⟨htlt, ht⟩ := mem_items.mp ht
  rcases hb : m.seekBack entryHigh with _ | ⟨k, v⟩
  · exact absurd (entryKey_le_entryHigh htlt) (SortedMap.seekBack_eq_none.mp hb _ w ht).not_ge
  · obtain ⟨hget, hk, hgreatest⟩ := SortedMap.seekBack_eq_some hb
    have htk : entryKey t ≤ k := hgreatest _ w ht (entryKey_le_entryHigh htlt)
    have hentry : isEntry k = true := by
      rw [entryHigh_eq] at hk
      exact hm k v hget (head?_of_between ((entryLow_le_entryKey t).trans htk) hk)
    refine ⟨k, v, rfl, hentry, by rwa [get?_of_isEntry hentry], fun u x hu => ?_⟩
    obtain ⟨hult, hu⟩ := mem_items.mp hu
    have hle := hgreatest _ x hu (entryKey_le_entryHigh hult)
    rwa [← entryKey_seqOf hentry, entryKey_le_entryKey hult (seqOf_lt hentry)] at hle

/-- The bounds the queue seeks from. -/
theorem entryKey_bound {c : ℕ} (hc : c < u64Size) :
    ∀ t, t < u64Size → (entryKey c ≤ entryKey t ↔ c ≤ t) :=
  fun _ ht => entryKey_le_entryKey hc ht

theorem entryLow_bound : ∀ t, t < u64Size → (entryLow ≤ entryKey t ↔ 0 ≤ t) :=
  fun t _ => ⟨fun _ => Nat.zero_le t, fun _ => entryLow_le_entryKey t⟩

/-- A seek that ends on an entry found the next item, whatever other keys there are. -/
theorem seek_isEntry {m : SortedMap Key Bytes} {c : ℕ} {bound k : Key} {v : Bytes}
    (hbound : ∀ t, t < u64Size → (bound ≤ entryKey t ↔ c ≤ t))
    (h : m.seek bound = some (k, v)) (hk : isEntry k = true) :
    (items m).seek c = some (seqOf k, v) := by
  obtain ⟨hget, hbk, hleast⟩ := SortedMap.seek_eq_some.mp h
  refine SortedMap.seek_eq_some.mpr ⟨by rwa [get?_of_isEntry hk], ?_, ?_⟩
  · rw [← entryKey_seqOf hk] at hbk
    exact (hbound _ (seqOf_lt hk)).mp hbk
  · intro t w ht hct
    obtain ⟨htlt, ht⟩ := mem_items.mp ht
    have hle := hleast (entryKey t) w ht ((hbound t htlt).mpr hct)
    rwa [← entryKey_seqOf hk, entryKey_le_entryKey (seqOf_lt hk) htlt] at hle

/-! ## The keys are a copy of the seqs, and so are the searches -/

/-- The seqs with an entry. -/
def seqs (m : SortedMap Key Bytes) : Set ℕ := {t | ∃ v, (items m).get? t = some v}

/-- Seeking from the key after that of a seq finds the least seq above it that has an entry. -/
theorem WellKeyed.seek_next {m : SortedMap Key Bytes} (hm : WellKeyed m) {s : ℕ} (hs : s < u64Max)
    (hsome : (seqs m ∩ Set.Ioi s).Nonempty) :
    ∃ t v, IsLeast (seqs m ∩ Set.Ioi s) t ∧ m.get? (entryKey t) = some v ∧
      m.seek (entryKey (u64Succ s)) = some (entryKey t, v) := by
  have hbound := entryKey_bound (u64Succ_lt s)
  rw [u64Succ_of_lt hs] at hbound ⊢
  rcases hseek : (items m).seek (s + 1) with _ | ⟨t, v⟩
  · obtain ⟨t, ⟨v, ht⟩, hst⟩ := hsome
    exact absurd (SortedMap.seek_eq_none.mp hseek t v ht) (Nat.succ_le_of_lt hst).not_gt
  · obtain ⟨hget, hst, hleast⟩ := SortedMap.seek_eq_some.mp hseek
    refine ⟨t, v, ⟨⟨⟨v, hget⟩, hst⟩, ?_⟩, (mem_items.mp hget).2,
      hm.seek_eq_some (entryLow_le_entryKey _) hbound hseek⟩
    rintro u ⟨⟨w, hu⟩, hsu⟩
    exact hleast u w hu hsu

/-- With no entry above the seq the search ends on another key or on nothing. -/
theorem seek_next_none {m : SortedMap Key Bytes} {s : ℕ} (hs : s < u64Max)
    (hnone : seqs m ∩ Set.Ioi s = ∅) {k : Key} {v : Bytes}
    (hk : m.seek (entryKey (u64Succ s)) = some (k, v)) : isEntry k = false := by
  have hbound := entryKey_bound (u64Succ_lt s)
  rw [u64Succ_of_lt hs] at hbound hk
  refine seek_eq_none hbound (SortedMap.seek_eq_none.mpr fun t w ht => ?_) hk
  by_contra hle
  have hmem : t ∈ seqs m ∩ Set.Ioi s := ⟨⟨w, ht⟩, not_lt.mp hle⟩
  rw [hnone] at hmem
  exact hmem

/-- Seeking back from the greatest entry key finds the greatest seq that has an entry. -/
theorem WellKeyed.seekBack_last {m : SortedMap Key Bytes} (hm : WellKeyed m)
    (hsome : (seqs m).Nonempty) :
    ∃ t v, IsGreatest (seqs m) t ∧ m.get? (entryKey t) = some v ∧
      m.seekBack entryHigh = some (entryKey t, v) := by
  obtain ⟨t, w, ht⟩ := hsome
  obtain ⟨k, v, hback, hentry, hget, hlast⟩ := hm.seekBack_of_item ht
  refine ⟨seqOf k, v, ⟨⟨v, hget⟩, ?_⟩, (mem_items.mp hget).2, ?_⟩
  · rintro u ⟨x, hu⟩
    exact hlast u x hu
  · rw [entryKey_seqOf hentry]
    exact hback

/-- **The entry keys are a copy of the `u64`s**: in their order, which is that of the byte
strings, between the meta key and the end of the prefix, and in what the searches find. -/
theorem entry_keys_copy_seqs :
    (∀ s t, s < u64Size → t < u64Size → (s < t ↔ entryKey s < entryKey t)) ∧
    (∀ s, s < u64Size → seqOf (entryKey s) = s) ∧
    (∀ k, isEntry k = true ↔ ∃ s, s < u64Size ∧ k = entryKey s ∧ seqOf k = s) ∧
    (metaKey < entryLow ∧ ∀ s, s < u64Size → entryLow < entryKey s ∧ entryKey s ≤ entryHigh) ∧
    ∀ m, WellKeyed m →
      (∀ s, s < u64Max →
        ((seqs m ∩ Set.Ioi s).Nonempty → ∃ t v, IsLeast (seqs m ∩ Set.Ioi s) t ∧
          m.get? (entryKey t) = some v ∧ m.seek (entryKey (u64Succ s)) = some (entryKey t, v)) ∧
        (seqs m ∩ Set.Ioi s = ∅ → ∀ k v, m.seek (entryKey (u64Succ s)) = some (k, v) →
          isEntry k = false)) ∧
      ((seqs m).Nonempty → ∃ t v, IsGreatest (seqs m) t ∧ m.get? (entryKey t) = some v ∧
        m.seekBack entryHigh = some (entryKey t, v)) := by
  refine ⟨fun s t hs ht => (entryKey_lt_entryKey hs ht).symm, fun s hs => seqOf_entryKey hs,
    fun k => ⟨fun hk => ?_, ?_⟩, ⟨metaKey_lt_entryLow, fun s hs => ⟨?_, entryKey_le_entryHigh hs⟩⟩,
    fun m hm => ⟨fun s hs => ⟨fun hsome => hm.seek_next hs hsome,
      fun hnone k v hk => seek_next_none hs hnone hk⟩, fun hsome => hm.seekBack_last hsome⟩⟩
  · exact ⟨seqOf k, seqOf_lt hk, (entryKey_seqOf hk).symm, rfl⟩
  · rintro ⟨s, -, rfl, -⟩
    exact isEntry_entryKey s
  · refine lt_of_le_of_ne (entryLow_le_entryKey s) fun heq => ?_
    have hlen := congrArg List.length heq
    simp [entryLow, entryKey] at hlen

/-- A map with the meta key, two entries, and a key past the prefix. -/
def mixedKeys : SortedMap Key Bytes :=
  SortedMap.empty.applyAll
    [(metaKey, some []), (entryKey 5, some [7]), (entryKey 300, some [8]), ([2], some [9])]

theorem entry_keys_copy_seqs_mixed :
    WellKeyed mixedKeys ∧ entryKey 5 < entryKey 300 ∧
      ∃ t v, IsLeast (seqs mixedKeys ∩ Set.Ioi 5) t ∧
        mixedKeys.seek (entryKey 6) = some (entryKey t, v) := by
  have hkeyed : WellKeyed mixedKeys := by decide
  obtain ⟨horder, -, -, -, hsearch⟩ := entry_keys_copy_seqs
  have hnext : (seqs mixedKeys ∩ Set.Ioi 5).Nonempty :=
    ⟨300, ⟨[8], mem_items.mpr ⟨by decide, by decide⟩⟩, show 5 < 300 by decide⟩
  obtain ⟨t, v, hleast, -, hseek⟩ := ((hsearch mixedKeys hkeyed).1 5 (by decide)).1 hnext
  exact ⟨hkeyed, (horder 5 300 (by decide) (by decide)).mp (by decide), t, v, hleast, hseek⟩

end PersistentQueue
