import Mathlib.Algebra.BigOperators.Ring.Finset
import Mathlib.Algebra.Order.BigOperators.Group.Finset
import Mathlib.Data.List.Sort
import Mathlib.Data.Finset.Dedup
import Mathlib.Data.Fintype.EquivFin
import Mathlib.Algebra.GroupWithZero.Nat

/-!
# Sorted maps

Finite maps over a linearly ordered key type, as strictly increasing association
lists. The order is a field, so an ill-sorted map cannot be built, and a map is
determined by its lookups (`ext_get?`).

Besides point access (`get?`, `insert`, `erase`) there are the two nearest-key
searches of an ordered tree: `seek`, the least entry at or above a key, and
`seekBack`, the greatest entry at or below one. `sum` totals a weight over the
entries; its lemmas say what an insertion and a removal add and take away.

Everything is computable, so maps over small keys can be evaluated.
-/

universe u v w

/-- A finite map kept as a strictly increasing association list. -/
structure SortedMap (κ : Type u) (ν : Type v) [LinearOrder κ] where
  /-- the entries, least key first -/
  entries : List (κ × ν)
  /-- keys strictly increase along the list -/
  sorted : entries.Pairwise fun a b => a.1 < b.1

namespace SortedMap

variable {κ : Type u} {ν : Type v} {μ : Type w} [LinearOrder κ]

/-! ## Operations -/

/-- The map with no entries. -/
def empty : SortedMap κ ν := ⟨[], List.Pairwise.nil⟩

instance : Inhabited (SortedMap κ ν) := ⟨empty⟩

instance [DecidableEq ν] : DecidableEq (SortedMap κ ν) := fun m n =>
  decidable_of_iff (m.entries = n.entries) <| by
    cases m; cases n
    simp only [mk.injEq]

/-- The value stored under a key. -/
def get? (m : SortedMap κ ν) (k : κ) : Option ν :=
  (m.entries.find? fun e => e.1 = k).map Prod.snd

/-- Store a value under a key, replacing what was there. -/
def insert (m : SortedMap κ ν) (k : κ) (v : ν) : SortedMap κ ν where
  entries := (m.entries.filter fun e => e.1 < k) ++ (k, v) :: m.entries.filter fun e => k < e.1
  sorted := by
    refine List.pairwise_append.mpr
      ⟨m.sorted.filter _, List.pairwise_cons.mpr ⟨?_, m.sorted.filter _⟩, ?_⟩
    · intro e he
      simpa using (List.mem_filter.mp he).2
    · intro e he f hf
      have hek : e.1 < k := by simpa using (List.mem_filter.mp he).2
      rcases List.mem_cons.mp hf with rfl | hf
      · exact hek
      · exact hek.trans (by simpa using (List.mem_filter.mp hf).2)

/-- Remove a key; no effect if it is absent. -/
def erase (m : SortedMap κ ν) (k : κ) : SortedMap κ ν :=
  ⟨m.entries.filter fun e => e.1 ≠ k, m.sorted.filter _⟩

/-- Rewrite every value, with its key in view. -/
def mapVal (f : κ → ν → μ) (m : SortedMap κ ν) : SortedMap κ μ where
  entries := m.entries.map fun e => (e.1, f e.1 e.2)
  sorted := List.pairwise_map.mpr m.sorted

/-- The entry with the least key at or above `k`. -/
def seek (m : SortedMap κ ν) (k : κ) : Option (κ × ν) :=
  m.entries.find? fun e => k ≤ e.1

/-- The entry with the greatest key at or below `k`. -/
def seekBack (m : SortedMap κ ν) (k : κ) : Option (κ × ν) :=
  (m.entries.filter fun e => e.1 ≤ k).getLast?

/-- The keys that have a value. -/
def keys (m : SortedMap κ ν) : Finset κ := (m.entries.map Prod.fst).toFinset

/-- The number of entries. -/
def size (m : SortedMap κ ν) : ℕ := m.entries.length

/-- The total weight of the entries. -/
def sum (f : κ → ν → ℕ) (m : SortedMap κ ν) : ℕ := (m.entries.map fun e => f e.1 e.2).sum

/-! ## Lookups -/

theorem nodup (m : SortedMap κ ν) : m.entries.Nodup :=
  m.sorted.imp fun h heq => absurd (congrArg Prod.fst heq) h.ne

/-- Two entries under one key are the same entry. -/
theorem eq_of_mem {m : SortedMap κ ν} {k : κ} {v w : ν}
    (hv : (k, v) ∈ m.entries) (hw : (k, w) ∈ m.entries) : v = w := by
  by_contra hne
  have hpair : m.entries.Pairwise fun a b => a.1 ≠ b.1 := m.sorted.imp fun h => h.ne
  have : Std.Symm fun a b : κ × ν => a.1 ≠ b.1 := ⟨fun _ _ h => h.symm⟩
  exact hpair.forall hv hw (by simpa using hne) rfl

/-- Lookup is membership. -/
theorem get?_eq_some {m : SortedMap κ ν} {k : κ} {v : ν} :
    m.get? k = some v ↔ (k, v) ∈ m.entries := by
  rw [get?]
  constructor
  · intro h
    obtain ⟨⟨k', v'⟩, hf, hv⟩ := Option.map_eq_some_iff.mp h
    obtain rfl : k' = k := by simpa using List.find?_some hf
    obtain rfl : v' = v := hv
    exact List.mem_of_find?_eq_some hf
  · intro h
    rcases hf : m.entries.find? fun e => e.1 = k with _ | ⟨k', v'⟩
    · have := List.find?_eq_none.mp hf _ h
      simp at this
    · obtain rfl : k' = k := by simpa using List.find?_some hf
      rw [hf, eq_of_mem (List.mem_of_find?_eq_some hf) h]
      rfl

theorem get?_eq_none {m : SortedMap κ ν} {k : κ} :
    m.get? k = none ↔ ∀ v, (k, v) ∉ m.entries := by
  constructor
  · intro h v hv
    rw [get?_eq_some.mpr hv] at h
    cases h
  · intro h
    rcases hg : m.get? k with _ | v
    · rfl
    · exact absurd (get?_eq_some.mp hg) (h v)

/-- A map is determined by its lookups. -/
theorem ext_get? {m n : SortedMap κ ν} (h : ∀ k, m.get? k = n.get? k) : m = n := by
  have hmem : ∀ e, e ∈ m.entries ↔ e ∈ n.entries := by
    rintro ⟨k, v⟩
    rw [← get?_eq_some, ← get?_eq_some, h]
  have hent : m.entries = n.entries := by
    have : Std.Antisymm (fun a b : κ × ν => a.1 < b.1) := ⟨fun _ _ h h' => absurd h' h.not_gt⟩
    have : Std.Irrefl (fun a b : κ × ν => a.1 < b.1) := ⟨fun _ => lt_irrefl _⟩
    exact List.Pairwise.eq_of_mem_iff m.sorted n.sorted hmem
  cases m; cases n
  simpa using hent

@[simp] theorem get?_empty (k : κ) : (empty : SortedMap κ ν).get? k = none := rfl

theorem mem_insert {m : SortedMap κ ν} {k a : κ} {v b : ν} :
    (a, b) ∈ (m.insert k v).entries ↔ a = k ∧ b = v ∨ a ≠ k ∧ (a, b) ∈ m.entries := by
  simp only [insert, List.mem_append, List.mem_cons, List.mem_filter, Prod.mk.injEq,
    decide_eq_true_eq]
  constructor
  · rintro (⟨h, hlt⟩ | h | ⟨h, hlt⟩)
    · exact Or.inr ⟨hlt.ne, h⟩
    · exact Or.inl h
    · exact Or.inr ⟨hlt.ne', h⟩
  · rintro (h | ⟨hne, h⟩)
    · exact Or.inr (Or.inl h)
    · rcases lt_or_gt_of_ne hne with hlt | hlt
      · exact Or.inl ⟨h, hlt⟩
      · exact Or.inr (Or.inr ⟨h, hlt⟩)

theorem mem_erase {m : SortedMap κ ν} {k a : κ} {b : ν} :
    (a, b) ∈ (m.erase k).entries ↔ a ≠ k ∧ (a, b) ∈ m.entries := by
  simp [erase, and_comm]

theorem get?_insert (m : SortedMap κ ν) (k a : κ) (v : ν) :
    (m.insert k v).get? a = if a = k then some v else m.get? a := by
  split
  · next h => exact get?_eq_some.mpr (mem_insert.mpr (Or.inl ⟨h, rfl⟩))
  · next h =>
    rcases hg : m.get? a with _ | b
    · refine get?_eq_none.mpr fun b hb => ?_
      rcases mem_insert.mp hb with ⟨h', -⟩ | ⟨-, hb⟩
      · exact h h'
      · exact get?_eq_none.mp hg b hb
    · exact get?_eq_some.mpr (mem_insert.mpr (Or.inr ⟨h, get?_eq_some.mp hg⟩))

@[simp] theorem get?_insert_self (m : SortedMap κ ν) (k : κ) (v : ν) :
    (m.insert k v).get? k = some v := by
  rw [get?_insert, if_pos rfl]

theorem get?_insert_ne (m : SortedMap κ ν) {k a : κ} (v : ν) (h : a ≠ k) :
    (m.insert k v).get? a = m.get? a := by
  rw [get?_insert, if_neg h]

theorem get?_erase (m : SortedMap κ ν) (k a : κ) :
    (m.erase k).get? a = if a = k then none else m.get? a := by
  split
  · next h => exact get?_eq_none.mpr fun b hb => (mem_erase.mp hb).1 h
  · next h =>
    rcases hg : m.get? a with _ | b
    · exact get?_eq_none.mpr fun b hb => get?_eq_none.mp hg b (mem_erase.mp hb).2
    · exact get?_eq_some.mpr (mem_erase.mpr ⟨h, get?_eq_some.mp hg⟩)

@[simp] theorem get?_erase_self (m : SortedMap κ ν) (k : κ) : (m.erase k).get? k = none := by
  rw [get?_erase, if_pos rfl]

theorem get?_erase_ne (m : SortedMap κ ν) {k a : κ} (h : a ≠ k) :
    (m.erase k).get? a = m.get? a := by
  rw [get?_erase, if_neg h]

theorem get?_erase_of_none {m : SortedMap κ ν} {k a : κ} (h : m.get? a = none) :
    (m.erase k).get? a = none := by
  rw [get?_erase, h]
  split <;> rfl

/-- A map under whose keys there is nothing has no entries. -/
theorem entries_nil_of_get? {m : SortedMap κ ν} (h : ∀ k, m.get? k = none) : m.entries = [] := by
  obtain rfl : m = empty := ext_get? h
  rfl

theorem get?_of_entries_nil {m : SortedMap κ ν} (h : m.entries = []) (k : κ) : m.get? k = none := by
  rcases hg : m.get? k with _ | v
  · rfl
  · have hmem := get?_eq_some.mp hg
    rw [h] at hmem
    cases hmem

/-- What is found after an insert. -/
theorem of_get?_insert {m : SortedMap κ ν} {k a : κ} {v w : ν}
    (h : (m.insert k v).get? a = some w) : a = k ∧ w = v ∨ a ≠ k ∧ m.get? a = some w := by
  rw [get?_insert] at h
  split at h
  · next heq => exact Or.inl ⟨heq, (Option.some.inj h).symm⟩
  · next hne => exact Or.inr ⟨hne, h⟩

/-- What is found after an erase. -/
theorem of_get?_erase {m : SortedMap κ ν} {k a : κ} {w : ν}
    (h : (m.erase k).get? a = some w) : a ≠ k ∧ m.get? a = some w := by
  rw [get?_erase] at h
  split at h
  · cases h
  · next hne => exact ⟨hne, h⟩

@[simp] theorem get?_mapVal (f : κ → ν → μ) (m : SortedMap κ ν) (k : κ) :
    (m.mapVal f).get? k = (m.get? k).map (f k) := by
  rcases hg : m.get? k with _ | v
  · refine get?_eq_none.mpr fun b hb => ?_
    obtain ⟨⟨a, v⟩, hm, he⟩ := List.mem_map.mp hb
    obtain ⟨rfl, -⟩ := Prod.mk.inj he
    exact get?_eq_none.mp hg v hm
  · exact get?_eq_some.mpr (List.mem_map.mpr ⟨(k, v), get?_eq_some.mp hg, rfl⟩)

theorem mem_keys {m : SortedMap κ ν} {k : κ} : k ∈ m.keys ↔ ∃ v, m.get? k = some v := by
  simp only [keys, List.mem_toFinset, List.mem_map, Prod.exists, get?_eq_some]
  constructor
  · rintro ⟨a, v, h, rfl⟩
    exact ⟨v, h⟩
  · rintro ⟨v, h⟩
    exact ⟨k, v, h, rfl⟩

/-- There is always a name to spare. -/
theorem exists_get?_eq_none [Infinite κ] (m : SortedMap κ ν) : ∃ k, m.get? k = none := by
  obtain ⟨k, hk⟩ := Infinite.exists_notMem_finset m.keys
  refine ⟨k, Option.eq_none_iff_forall_ne_some.mpr fun v hv => hk ?_⟩
  exact mem_keys.mpr ⟨v, hv⟩

/-! ## Nearest keys -/

/-- `seek` finds the least key at or above the bound. -/
theorem seek_eq_some {m : SortedMap κ ν} {k a : κ} {v : ν} :
    m.seek k = some (a, v) ↔
      m.get? a = some v ∧ k ≤ a ∧ ∀ b w, m.get? b = some w → k ≤ b → a ≤ b := by
  simp only [get?_eq_some]
  rw [seek]
  constructor
  · intro h
    obtain ⟨hka, l₁, l₂, hsplit, hskip⟩ := List.find?_eq_some_iff_append.mp h
    refine ⟨List.mem_of_find?_eq_some h, by simpa using hka, fun b w hb hkb => ?_⟩
    have hsorted := m.sorted
    rw [hsplit] at hsorted hb
    rcases List.mem_append.mp hb with hb | hb
    · have := hskip _ hb
      simp [hkb] at this
    · rcases List.mem_cons.mp hb with hb | hb
      · exact (congrArg Prod.fst hb).ge
      · exact (List.rel_of_pairwise_cons (List.pairwise_append.mp hsorted).2.1 hb).le
  · rintro ⟨hmem, hka, hleast⟩
    rcases hf : m.entries.find? fun e => k ≤ e.1 with _ | ⟨a', v'⟩
    · have := List.find?_eq_none.mp hf _ hmem
      simp [hka] at this
    · obtain ⟨hka', l₁, l₂, hsplit, hskip⟩ := List.find?_eq_some_iff_append.mp hf
      have hle : a ≤ a' := hleast a' v' (List.mem_of_find?_eq_some hf) (by simpa using hka')
      have hge : a' ≤ a := by
        have hsorted := m.sorted
        rw [hsplit] at hsorted hmem
        rcases List.mem_append.mp hmem with hmem | hmem
        · have := hskip _ hmem
          simp [hka] at this
        · rcases List.mem_cons.mp hmem with hmem | hmem
          · exact (congrArg Prod.fst hmem).ge
          · exact (List.rel_of_pairwise_cons (List.pairwise_append.mp hsorted).2.1 hmem).le
      obtain rfl : a' = a := le_antisymm hge hle
      rw [hf, eq_of_mem (List.mem_of_find?_eq_some hf) hmem]

theorem seek_eq_none {m : SortedMap κ ν} {k : κ} :
    m.seek k = none ↔ ∀ b w, m.get? b = some w → b < k := by
  simp only [get?_eq_some, seek, List.find?_eq_none, Prod.forall, decide_eq_true_eq, not_le]

/-- `seekBack` finds the greatest key at or below the bound. -/
theorem seekBack_eq_some {m : SortedMap κ ν} {k a : κ} {v : ν}
    (h : m.seekBack k = some (a, v)) :
    m.get? a = some v ∧ a ≤ k ∧ ∀ b w, m.get? b = some w → b ≤ k → b ≤ a := by
  simp only [get?_eq_some]
  rw [seekBack] at h
  obtain ⟨l, hl⟩ := List.getLast?_eq_some_iff.mp h
  have hmem : (a, v) ∈ m.entries.filter fun e => e.1 ≤ k := by
    rw [hl]
    exact List.mem_append_right _ (List.mem_singleton.mpr rfl)
  refine ⟨(List.mem_filter.mp hmem).1, by simpa using (List.mem_filter.mp hmem).2, ?_⟩
  intro b w hb hbk
  have hb' : (b, w) ∈ m.entries.filter fun e => e.1 ≤ k :=
    List.mem_filter.mpr ⟨hb, by simpa using hbk⟩
  have hsorted := m.sorted.filter fun e => e.1 ≤ k
  rw [hl] at hb' hsorted
  rcases List.mem_append.mp hb' with hb' | hb'
  · exact ((List.pairwise_append.mp hsorted).2.2 _ hb' _ (List.mem_singleton.mpr rfl)).le
  · exact (congrArg Prod.fst (List.mem_singleton.mp hb')).le

theorem seekBack_eq_none {m : SortedMap κ ν} {k : κ} :
    m.seekBack k = none ↔ ∀ b w, m.get? b = some w → k < b := by
  simp only [get?_eq_some, seekBack, List.getLast?_eq_none_iff, List.filter_eq_nil_iff,
    Prod.forall, decide_eq_true_eq, not_le]

theorem seekBack_of_greatest {m : SortedMap κ ν} {k a : κ} {v : ν} (hget : m.get? a = some v)
    (ha : a ≤ k) (hgreatest : ∀ b w, m.get? b = some w → b ≤ k → b ≤ a) :
    m.seekBack k = some (a, v) := by
  rcases hback : m.seekBack k with _ | ⟨a', v'⟩
  · exact absurd ha (not_le.mpr (seekBack_eq_none.mp hback a v hget))
  · obtain ⟨hget', ha', hgreatest'⟩ := seekBack_eq_some hback
    obtain rfl : a' = a := le_antisymm (hgreatest a' v' hget' ha') (hgreatest' a v hget ha)
    rw [Option.some.inj (hget.symm.trans hget')]

/-- The entries at or above a key, least first: what a forward scan still has to visit. -/
def above (m : SortedMap κ ν) (k : κ) : List (κ × ν) := m.entries.filter fun e => k ≤ e.1

theorem seek_eq_head? (m : SortedMap κ ν) (k : κ) : m.seek k = (m.above k).head? := by
  rw [seek, above, List.head?_filter]

theorem above_eq_nil {m : SortedMap κ ν} {k : κ} (h : m.seek k = none) : m.above k = [] := by
  rw [seek_eq_head?] at h
  exact List.head?_eq_none_iff.mp h

/-- The keys at or above one are in order. -/
theorem above_sorted (m : SortedMap κ ν) (k : κ) :
    ((m.above k).map Prod.fst).Pairwise (· < ·) := List.pairwise_map.mpr (m.sorted.filter _)

theorem above_eq_entries {m : SortedMap κ ν} {k : κ} (h : ∀ a v, m.get? a = some v → k ≤ a) :
    m.above k = m.entries := by
  refine List.filter_eq_self.mpr fun e he => ?_
  simpa using h e.1 e.2 (get?_eq_some.mpr he)

/-- A scan over natural keys that visits `s` goes on from `s + 1`. -/
theorem above_eq_cons {m : SortedMap ℕ ν} {c s : ℕ} {v : ν} (h : m.seek c = some (s, v)) :
    m.above c = (s, v) :: m.above (s + 1) := by
  obtain ⟨hmem, hcs, hleast⟩ := seek_eq_some.mp h
  rw [seek_eq_head?] at h
  obtain ⟨rest, hrest⟩ := List.head?_eq_some_iff.mp h
  have hsorted : (m.above c).Pairwise fun a b => a.1 < b.1 := m.sorted.filter _
  have hirrefl : Std.Irrefl fun a b : ℕ × ν => a.1 < b.1 := ⟨fun _ => lt_irrefl _⟩
  have hantisymm : Std.Antisymm fun a b : ℕ × ν => a.1 < b.1 :=
    ⟨fun _ _ h h' => absurd h' h.not_gt⟩
  refine List.Pairwise.eq_of_mem_iff hsorted ?_ fun e => ?_
  · refine List.pairwise_cons.mpr ⟨fun e he => ?_, m.sorted.filter _⟩
    have := (List.mem_filter.mp he).2
    rw [decide_eq_true_eq] at this
    exact this
  · obtain ⟨a, w⟩ := e
    simp only [above, List.mem_cons, List.mem_filter, decide_eq_true_eq, Prod.mk.injEq]
    constructor
    · rintro ⟨ha, hca⟩
      rcases eq_or_lt_of_le (hleast a w (get?_eq_some.mpr ha) hca) with rfl | hlt
      · exact Or.inl ⟨rfl, eq_of_mem ha (get?_eq_some.mp hmem)⟩
      · exact Or.inr ⟨ha, hlt⟩
    · rintro (⟨rfl, rfl⟩ | ⟨ha, hsa⟩)
      · exact ⟨get?_eq_some.mp hmem, hcs⟩
      · exact ⟨ha, by omega⟩

/-- An insertion above all keys appends. -/
theorem entries_insert_of_lt {m : SortedMap κ ν} {k : κ} {v : ν}
    (h : ∀ a b, m.get? a = some b → a < k) : (m.insert k v).entries = m.entries ++ [(k, v)] := by
  have hlt : ∀ e ∈ m.entries, e.1 < k := fun e he => h e.1 e.2 (get?_eq_some.mpr he)
  have hbelow : (m.entries.filter fun e => e.1 < k) = m.entries :=
    List.filter_eq_self.mpr fun e he => by simpa using hlt e he
  have habove : (m.entries.filter fun e => k < e.1) = [] :=
    List.filter_eq_nil_iff.mpr fun e he => by simpa using (hlt e he).le
  simp only [insert, hbelow, habove]

/-- The last entry has the greatest key. -/
theorem getLast?_eq_some {m : SortedMap κ ν} {k : κ} {v : ν} (hk : m.get? k = some v)
    (hlast : ∀ a b, m.get? a = some b → a ≤ k) : m.entries.getLast? = some (k, v) := by
  rcases hl : m.entries.getLast? with _ | ⟨a, b⟩
  · have hmem := get?_eq_some.mp hk
    rw [List.getLast?_eq_none_iff.mp hl] at hmem
    cases hmem
  · obtain ⟨l, hsplit⟩ := List.getLast?_eq_some_iff.mp hl
    have hmem := get?_eq_some.mp hk
    have hsorted := m.sorted
    rw [hsplit] at hmem hsorted
    have ha : a ≤ k := hlast a b (get?_eq_some.mpr (hsplit ▸ List.mem_append_right _ (by simp)))
    rcases List.mem_append.mp hmem with hmem | hmem
    · have hlt := (List.pairwise_append.mp hsorted).2.2 _ hmem _ (List.mem_singleton_self _)
      exact absurd (hlt.trans_le ha) (lt_irrefl _)
    · rw [List.mem_singleton.mp hmem]

/-! ## Totals -/

/-- Splitting off the entry under a key. -/
theorem perm_cons_erase {m : SortedMap κ ν} {k : κ} {v : ν} (h : m.get? k = some v) :
    m.entries.Perm ((k, v) :: (m.erase k).entries) := by
  refine (List.perm_ext_iff_of_nodup m.nodup ?_).mpr ?_
  · refine List.nodup_cons.mpr ⟨?_, (m.erase k).nodup⟩
    exact fun hmem => (mem_erase.mp hmem).1 rfl
  · rintro ⟨a, b⟩
    rw [List.mem_cons, mem_erase, Prod.mk.injEq]
    constructor
    · intro hab
      by_cases hak : a = k
      · subst hak
        exact Or.inl ⟨rfl, eq_of_mem hab (get?_eq_some.mp h)⟩
      · exact Or.inr ⟨hak, hab⟩
    · rintro (⟨rfl, rfl⟩ | ⟨-, hab⟩)
      · exact get?_eq_some.mp h
      · exact hab

theorem perm_insert (m : SortedMap κ ν) (k : κ) (v : ν) :
    (m.insert k v).entries.Perm ((k, v) :: (m.erase k).entries) := by
  have h := perm_cons_erase (get?_insert_self m k v)
  have herase : (m.insert k v).erase k = m.erase k := by
    refine ext_get? fun a => ?_
    by_cases ha : a = k
    · rw [ha, get?_erase_self, get?_erase_self]
    · rw [get?_erase_ne _ ha, get?_erase_ne _ ha, get?_insert_ne _ _ ha]
  rwa [herase] at h

/-- Keys below a bound are no more than the bound. -/
theorem size_le_of_lt {m : SortedMap ℕ ν} {n : ℕ} (h : ∀ k v, m.get? k = some v → k < n) :
    m.size ≤ n := by
  have hnodup : (m.entries.map Prod.fst).Nodup := by
    rw [List.nodup_iff_pairwise_ne, List.pairwise_map]
    exact m.sorted.imp fun hlt => hlt.ne
  have hsub : m.entries.map Prod.fst ⊆ List.range n := by
    intro k hk
    obtain ⟨e, he, rfl⟩ := List.mem_map.mp hk
    exact List.mem_range.mpr (h e.1 e.2 (get?_eq_some.mpr he))
  have hlen := (List.subperm_of_subset hnodup hsub).length_le
  rw [List.length_map, List.length_range] at hlen
  exact hlen

theorem size_eq_sum (m : SortedMap κ ν) : m.size = m.sum fun _ _ => 1 := by
  simp [size, sum]

@[simp] theorem sum_empty (f : κ → ν → ℕ) : (empty : SortedMap κ ν).sum f = 0 := rfl

/-- Removing an entry takes its weight away. -/
theorem sum_erase_add {m : SortedMap κ ν} {k : κ} {v : ν} (f : κ → ν → ℕ)
    (h : m.get? k = some v) : (m.erase k).sum f + f k v = m.sum f := by
  have hperm := ((perm_cons_erase h).map fun e => f e.1 e.2).sum_eq
  simp only [List.map_cons, List.sum_cons] at hperm
  simp only [sum]
  omega

theorem erase_of_get?_none {m : SortedMap κ ν} {k : κ} (h : m.get? k = none) : m.erase k = m := by
  refine ext_get? fun a => ?_
  rw [get?_erase]
  split
  · next ha => rw [ha, h]
  · rfl

/-- Taking out what was put in. -/
theorem erase_insert_of_none {m : SortedMap κ ν} {k : κ} (v : ν) (h : m.get? k = none) :
    (m.insert k v).erase k = m := by
  refine ext_get? fun a => ?_
  by_cases ha : a = k
  · rw [ha, get?_erase_self, h]
  · rw [get?_erase_ne _ ha, get?_insert_ne _ _ ha]

/-- An insertion under a fresh key adds its weight. -/
theorem sum_insert_of_none {m : SortedMap κ ν} {k : κ} (f : κ → ν → ℕ) (v : ν)
    (h : m.get? k = none) : (m.insert k v).sum f = m.sum f + f k v := by
  have hperm := ((perm_insert m k v).map fun e => f e.1 e.2).sum_eq
  simp only [List.map_cons, List.sum_cons, erase_of_get?_none h] at hperm
  simp only [sum]
  omega

/-- An insertion over an entry swaps the two weights. -/
theorem sum_insert_of_some {m : SortedMap κ ν} {k : κ} {w : ν} (f : κ → ν → ℕ) (v : ν)
    (h : m.get? k = some w) : (m.insert k v).sum f + f k w = m.sum f + f k v := by
  have hperm := ((perm_insert m k v).map fun e => f e.1 e.2).sum_eq
  simp only [List.map_cons, List.sum_cons] at hperm
  have herase := sum_erase_add f h
  simp only [sum] at *
  omega

/-- An insertion exchanges what was under the key for the new value. -/
theorem sum_insert_add (m : SortedMap κ ν) (k : κ) (f : κ → ν → ℕ) (v : ν) :
    (m.insert k v).sum f + (m.get? k).elim 0 (f k) = m.sum f + f k v := by
  rcases h : m.get? k with _ | w
  · exact sum_insert_of_none f v h
  · exact sum_insert_of_some f v h

/-- A removal takes away what was under the key. -/
theorem sum_erase_elim (m : SortedMap κ ν) (k : κ) (f : κ → ν → ℕ) :
    (m.erase k).sum f + (m.get? k).elim 0 (f k) = m.sum f := by
  rcases h : m.get? k with _ | w
  · rw [erase_of_get?_none h]
    rfl
  · exact sum_erase_add f h

theorem size_erase_add {m : SortedMap κ ν} {k : κ} {v : ν} (h : m.get? k = some v) :
    (m.erase k).size + 1 = m.size := by
  rw [size_eq_sum, size_eq_sum]
  exact sum_erase_add (fun _ _ => 1) h

theorem size_insert_of_none {m : SortedMap κ ν} {k : κ} (v : ν) (h : m.get? k = none) :
    (m.insert k v).size = m.size + 1 := by
  rw [size_eq_sum, size_eq_sum]
  exact sum_insert_of_none (fun _ _ => 1) v h

theorem size_insert_of_some {m : SortedMap κ ν} {k : κ} {w : ν} (v : ν) (h : m.get? k = some w) :
    (m.insert k v).size = m.size := by
  have hsum := sum_insert_of_some (fun _ _ => 1) v h
  rw [size_eq_sum, size_eq_sum]
  omega

/-- Totals only see the weights of the entries. -/
theorem sum_congr {m : SortedMap κ ν} {f g : κ → ν → ℕ}
    (h : ∀ k v, m.get? k = some v → f k v = g k v) : m.sum f = m.sum g := by
  rw [sum]
  refine congrArg List.sum (List.map_congr_left ?_)
  rintro ⟨k, v⟩ hmem
  exact h k v (get?_eq_some.mpr hmem)

/-- A total as a sum over the keys. -/
theorem sum_eq_keys (m : SortedMap κ ν) (f : κ → ν → ℕ) :
    m.sum f = ∑ k ∈ m.keys, (m.get? k).elim 0 (f k) := by
  have hnodup : (m.entries.map Prod.fst).Nodup :=
    (List.pairwise_map.mpr m.sorted).imp fun h => h.ne
  rw [keys, List.sum_toFinset _ hnodup, sum, List.map_map]
  refine congrArg List.sum (List.map_congr_left fun e he => ?_)
  rw [Function.comp_apply, get?_eq_some.mpr he, Option.elim_some]

/-- A map whose entries weigh no more than those of another under the same keys. -/
theorem sum_le_sum {m : SortedMap κ ν} {n : SortedMap κ μ} {f : κ → ν → ℕ} {g : κ → μ → ℕ}
    (h : ∀ k w, n.get? k = some w → ∃ v, m.get? k = some v ∧ g k w ≤ f k v) :
    n.sum g ≤ m.sum f := by
  rw [sum_eq_keys, sum_eq_keys]
  refine (Finset.sum_le_sum fun k hk => ?_).trans
    (Finset.sum_le_sum_of_subset fun k hk => ?_)
  · obtain ⟨w, hw⟩ := mem_keys.mp hk
    obtain ⟨v, hv, hle⟩ := h k w hw
    rw [hw, hv]
    exact hle
  · obtain ⟨w, hw⟩ := mem_keys.mp hk
    obtain ⟨v, hv, -⟩ := h k w hw
    exact mem_keys.mpr ⟨v, hv⟩

/-- It weighs less if one entry weighs less, or is gone. -/
theorem sum_lt_sum {m : SortedMap κ ν} {n : SortedMap κ μ} {f : κ → ν → ℕ} {g : κ → μ → ℕ}
    (h : ∀ k w, n.get? k = some w → ∃ v, m.get? k = some v ∧ g k w ≤ f k v) {k : κ} {v : ν}
    (hk : m.get? k = some v) (hlt : (n.get? k).elim 0 (g k) < f k v) : n.sum g < m.sum f := by
  have herase : (n.erase k).sum g ≤ (m.erase k).sum f := by
    refine sum_le_sum fun a w hw => ?_
    obtain ⟨hne, hw⟩ := of_get?_erase hw
    obtain ⟨v, hv, hle⟩ := h a w hw
    exact ⟨v, (get?_erase_ne m hne).trans hv, hle⟩
  have hm := sum_erase_add f hk
  have hn := sum_erase_elim n k g
  omega

/-- A total of terms that are at most `c` times others. -/
theorem sum_le_mul {m : SortedMap κ ν} {f g : κ → ν → ℕ} {c : ℕ}
    (h : ∀ k v, m.get? k = some v → f k v ≤ c * g k v) : m.sum f ≤ c * m.sum g := by
  rw [sum_eq_keys, sum_eq_keys, Finset.mul_sum]
  refine Finset.sum_le_sum fun k hk => ?_
  obtain ⟨v, hv⟩ := mem_keys.mp hk
  rw [hv]
  exact h k v hv

theorem sum_eq_zero_iff {m : SortedMap κ ν} {f : κ → ν → ℕ} :
    m.sum f = 0 ↔ ∀ k v, m.get? k = some v → f k v = 0 := by
  rw [sum]
  rw [List.sum_eq_zero_iff_forall_eq_nat]
  constructor
  · intro h k v hk
    exact h _ (List.mem_map_of_mem (get?_eq_some.mp hk))
  · intro h n hn
    obtain ⟨⟨k, v⟩, hmem, rfl⟩ := List.mem_map.mp hn
    exact h k v (get?_eq_some.mpr hmem)

end SortedMap

/-! ## Scans that stop early -/

namespace List

variable {α : Type u} {p q : α → Bool} {as : List α}

/-- The elements up to the first one that fails the test, and that one: what a scan looks at
that goes on past those that pass. -/
def through (p : α → Bool) : List α → List α
  | [] => []
  | a :: as => a :: if p a then through p as else []

theorem through_initial (p : α → Bool) (as : List α) : as.through p <+: as := by
  induction as with
  | nil => exact List.prefix_refl []
  | cons a as ih =>
    rw [through]
    split
    · exact List.cons_prefix_cons.mpr ⟨rfl, ih⟩
    · exact List.cons_prefix_cons.mpr ⟨rfl, List.nil_prefix⟩

/-- A scan that passes everything looks at everything. -/
theorem through_true (as : List α) : as.through (fun _ => true) = as := by
  induction as with
  | nil => rfl
  | cons a as ih => exact congrArg (a :: ·) ih

theorem takeWhile_through : (as.through p).takeWhile p = as.takeWhile p := by
  induction as with
  | nil => rfl
  | cons a as ih =>
    rw [through]
    by_cases ha : p a = true
    · rw [if_pos ha, takeWhile_cons_of_pos ha, takeWhile_cons_of_pos ha, ih]
    · rw [if_neg ha, takeWhile_cons_of_neg ha, takeWhile_cons_of_neg ha]

/-- The first element that fails is the last one looked at. -/
theorem find?_through (hq : ∀ a, q a = true ↔ ¬p a = true) :
    (as.through p).find? q = as.find? q := by
  induction as with
  | nil => rfl
  | cons a as ih =>
    rw [through]
    by_cases ha : p a = true
    · have hnot : ¬q a = true := fun h => (hq a).mp h ha
      rw [if_pos ha, find?_cons_of_neg hnot, find?_cons_of_neg hnot, ih]
    · rw [if_neg ha, find?_cons_of_pos ((hq a).mpr ha), find?_cons_of_pos ((hq a).mpr ha)]

end List
