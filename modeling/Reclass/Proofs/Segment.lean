import Mathlib.Data.List.Forall2
import Mathlib.Data.List.TakeDrop

/-!
# Segments of a list

What stands in a list from one index up to another, and what is left from an index on; and lists
that are related element by element.
-/

namespace List

variable {α : Type} {l rest : List α} {x : α} {i : Nat}

/-- From the index of an element on, a list is that element and what is behind it. -/
theorem drop_eq_cons (h : l[i]? = some x) : l.drop i = x :: l.drop (i + 1) := by
  obtain ⟨hi, rfl⟩ := List.getElem?_eq_some_iff.mp h
  exact List.drop_eq_getElem_cons hi

/-- A segment and what is behind it are what was left at its first index. -/
theorem extract_append_drop {a b : Nat} (h : a ≤ b) : l.extract a b ++ l.drop b = l.drop a := by
  have hsplit := List.drop_take_append_drop l a (b - a)
  rwa [Nat.add_sub_cancel' h] at hsplit

/-- The first element from an index on is the one at this index. -/
theorem getElem?_of_drop_eq_cons (h : l.drop i = x :: rest) : l[i]? = some x := by
  rw [← List.head?_drop, h, List.head?_cons]

/-- The first element from an index on is one of the list. -/
theorem mem_of_drop_eq_cons (h : l.drop i = x :: rest) : x ∈ l :=
  mem_of_getElem? (getElem?_of_drop_eq_cons h)

/-- Behind that element, the list goes on from the next index. -/
theorem drop_succ_of_drop_eq_cons (h : l.drop i = x :: rest) : l.drop (i + 1) = rest := by
  rw [← List.drop_drop, h, List.drop_one, List.tail_cons]

/-- What a list goes on with from an index on is a segment of it. -/
theorem extract_of_drop_eq_append {run : List α} (h : l.drop i = run ++ rest) :
    l.extract i (i + run.length) = run := by
  rw [List.extract_eq_take_drop, Nat.add_sub_cancel_left, h, List.take_left]

/-- The elements of a list can be put into a relation one by one exactly when each of them can. -/
theorem exists_forall₂_iff {β : Type} {R : α → β → Prop} {l : List α} :
    (∃ l', Forall₂ R l l') ↔ ∀ a ∈ l, ∃ b, R a b := by
  induction l with
  | nil => simp
  | cons a l ih =>
    rw [forall_mem_cons, ← ih]
    constructor
    · rintro ⟨_, hall⟩
      cases hall with
      | cons hfirst hrest => exact ⟨⟨_, hfirst⟩, _, hrest⟩
    · rintro ⟨⟨b, hfirst⟩, l', hrest⟩
      exact ⟨b :: l', .cons hfirst hrest⟩

end List
