import Mathlib.Data.List.Basic

/-!
# Histories

A history is the list of the events of a run, newest first, so that a step conses its
event on and the events before it are the tail.

`Justified P` says that every event `e` of the history stands in the relation `P` to the
events before it. It is kept by consing, one event at a time, and read off at any place
of the history (`Justified.of_append`). `Earlier a b` says that some `a` comes before some `b`.
-/

universe u v

variable {ε : Type u} {P : ε → List ε → Prop} {a b e : ε} {log pre post : List ε}

/-- Every event is justified by the events before it. -/
def Justified (P : ε → List ε → Prop) : List ε → Prop
  | [] => True
  | e :: log => P e log ∧ Justified P log

namespace Justified

theorem nil : Justified P ([] : List ε) := trivial

theorem cons (h : Justified P log) (he : P e log) : Justified P (e :: log) := ⟨he, h⟩

/-- An event at any place is justified by what lies before it. -/
theorem of_append (h : Justified P (post ++ e :: pre)) : P e pre := by
  induction post with
  | nil => exact h.1
  | cons x post ih => exact ih h.2

/-- An event of the history is justified by some part of it. -/
theorem of_mem (h : Justified P log) (he : e ∈ log) : ∃ pre, P e pre ∧ ∀ a ∈ pre, a ∈ log := by
  obtain ⟨post, pre, rfl⟩ := List.append_of_mem he
  exact ⟨pre, h.of_append, fun a ha => List.mem_append_right _ (List.mem_cons_of_mem _ ha)⟩

theorem suffix (h : Justified P (post ++ log)) : Justified P log := by
  induction post with
  | nil => exact h
  | cons x post ih => exact ih h.2

/-- Events that need no justification of their own can be prepended. -/
theorem append (h : Justified P log) (hpost : ∀ e ∈ post, ∀ pre, P e pre) :
    Justified P (post ++ log) := by
  induction post with
  | nil => exact h
  | cons x post ih =>
    exact ⟨hpost x List.mem_cons_self _,
      ih fun e he => hpost e (List.mem_cons_of_mem _ he)⟩

end Justified

/-- Some `a` comes before some `b`. -/
def Earlier (a b : ε) (log : List ε) : Prop := ∃ post pre, log = post ++ b :: pre ∧ a ∈ pre

namespace Earlier

theorem cons (h : Earlier a b log) : Earlier a b (e :: log) := by
  obtain ⟨post, pre, rfl, ha⟩ := h
  exact ⟨e :: post, pre, rfl, ha⟩

theorem append (h : Earlier a b log) : Earlier a b (post ++ log) := by
  induction post with
  | nil => exact h
  | cons x post ih => exact ih.cons

/-- A new event is after everything there is. -/
theorem of_mem (ha : a ∈ log) : Earlier a b (b :: log) := ⟨[], log, rfl, ha⟩

theorem iff_cons : Earlier a b (e :: log) ↔ (e = b ∧ a ∈ log) ∨ Earlier a b log := by
  constructor
  · rintro ⟨post, pre, heq, ha⟩
    rcases post with _ | ⟨x, post⟩
    · obtain ⟨rfl, rfl⟩ := List.cons.inj heq
      exact Or.inl ⟨rfl, ha⟩
    · exact Or.inr ⟨post, pre, (List.cons.inj heq).2, ha⟩
  · rintro (⟨rfl, ha⟩ | h)
    · exact of_mem ha
    · exact h.cons

instance instDecidableEarlier [DecidableEq ε] : ∀ log : List ε, Decidable (Earlier a b log)
  | [] => isFalse fun ⟨post, pre, heq, _⟩ => by cases post <;> cases heq
  | e :: log =>
    have := instDecidableEarlier log
    decidable_of_iff _ iff_cons.symm

theorem mem_left (h : Earlier a b log) : a ∈ log := by
  obtain ⟨post, pre, rfl, ha⟩ := h
  exact List.mem_append_right _ (List.mem_cons_of_mem _ ha)

theorem mem_right (h : Earlier a b log) : b ∈ log := by
  obtain ⟨post, pre, rfl, -⟩ := h
  exact List.mem_append_right _ List.mem_cons_self

/-- An event that comes before itself is there twice. -/
theorem not_nodup (h : Earlier a a log) : ¬log.Nodup := by
  obtain ⟨post, pre, rfl, ha⟩ := h
  intro hnodup
  exact (List.nodup_cons.mp (List.nodup_append.mp hnodup).2.1).1 ha

/-- What comes earlier once some events are added. -/
theorem of_append (h : Earlier a b (post ++ log)) :
    Earlier a b log ∨ b ∈ post ∧ (a ∈ post ∨ a ∈ log) := by
  induction post with
  | nil => exact Or.inl h
  | cons x post ih =>
    rcases iff_cons.mp h with ⟨rfl, ha⟩ | h
    · exact Or.inr ⟨List.mem_cons_self,
        (List.mem_append.mp ha).imp (List.mem_cons_of_mem _) id⟩
    · refine (ih h).imp id fun hand => ⟨List.mem_cons_of_mem _ hand.1, ?_⟩
      exact hand.2.imp (List.mem_cons_of_mem _) id

/-- What is read off a history keeps its order. -/
theorem of_filterMap {β : Type v} {f : ε → Option β} {x y : β}
    (h : Earlier x y (log.filterMap f)) : ∃ a b, f a = some x ∧ f b = some y ∧ Earlier a b log := by
  induction log with
  | nil => cases h.mem_left
  | cons e log ih =>
    have hcons : Earlier x y (log.filterMap f) →
        ∃ a b, f a = some x ∧ f b = some y ∧ Earlier a b (e :: log) :=
      fun h => (ih h).imp fun a => Exists.imp fun b hab => ⟨hab.1, hab.2.1, hab.2.2.cons⟩
    rcases he : f e with _ | z
    · rw [List.filterMap_cons_none he] at h
      exact hcons h
    · rw [List.filterMap_cons_some he] at h
      rcases iff_cons.mp h with ⟨rfl, hx⟩ | h
      · obtain ⟨a, ha, hax⟩ := List.mem_filterMap.mp hx
        exact ⟨a, e, hax, he, of_mem ha⟩
      · exact hcons h

end Earlier
