import Reclass.Path.Relative
import Reclass.Proofs.Path.Spelling

/-!
# Normal forms of paths

A normal form is the root or a climb out of some directories, and then names. Bringing components
into normal form goes through them once and keeps such a form, so behind a normal form it goes on
from there: a path seen from another one has the normal form of what follows the normal form of the
other one.
-/

namespace Reclass

namespace Component

/-- A normal form, back to front: names, and behind them the root or a climb. -/
inductive Reduced : List Component → Prop
  | climb (n : Nat) : Reduced (List.replicate n .parent)
  | root : Reduced [.root]
  | name (s : String) {path : List Component} (h : Reduced path) : Reduced (.normal s :: path)

variable {path components : List Component} {c : Component}

/-- A component that is no root keeps a normal form. -/
theorem Reduced.push_of_ne_root (h : Reduced path) (hc : c ≠ .root) : Reduced (push path c) := by
  cases c with
  | root => exact absurd rfl hc
  | current => exact h
  | normal s => exact .name s h
  | parent =>
    cases h with
    | climb n =>
      have hclimb : push (List.replicate n .parent) .parent = List.replicate (n + 1) .parent := by
        cases n <;> rfl
      exact hclimb ▸ .climb (n + 1)
    | root => exact .root
    | name s hpath => exact hpath

/-- Going on from a normal form, along components other than the root, leads to one. -/
theorem Reduced.foldl_push (h : Reduced path) (hcomponents : ∀ c ∈ components, c ≠ .root) :
    Reduced (components.foldl push path) := by
  induction components generalizing path with
  | nil => exact h
  | cons c components ih =>
    obtain ⟨hc, hrest⟩ := List.forall_mem_cons.mp hcomponents
    exact ih (h.push_of_ne_root hc) hrest

/-- What is in normal form stays as it is. -/
theorem Reduced.foldl_push_reverse (h : Reduced path) : path.reverse.foldl push [] = path := by
  induction h with
  | climb n =>
    rw [List.reverse_replicate]
    induction n with
    | zero => rfl
    | succ n ih =>
      rw [List.replicate_succ', List.foldl_append, ih, ← List.replicate_succ']
      cases n <;> rfl
  | root => rfl
  | name s _ ih =>
    rw [List.reverse_cons, List.foldl_append, ih]
    rfl

/-- A normal form, back to front, is names and then a climb or the root. -/
theorem Reduced.exists_names (h : Reduced path) : ∃ names : List String,
    (∃ n, path = names.map normal ++ List.replicate n parent) ∨
      path = names.map normal ++ [.root] := by
  induction h with
  | climb n => exact ⟨[], .inl ⟨n, rfl⟩⟩
  | root => exact ⟨[], .inr rfl⟩
  | name s _ ih =>
    obtain ⟨names, ⟨n, rfl⟩ | rfl⟩ := ih
    · exact ⟨s :: names, .inl ⟨n, rfl⟩⟩
    · exact ⟨s :: names, .inr rfl⟩

/-- Only components of a path are in its normal form. -/
theorem mem_of_mem_foldl_push (h : c ∈ components.foldl push path) : c ∈ components ∨ c ∈ path := by
  induction components generalizing path with
  | nil => exact .inr h
  | cons d components ih =>
    obtain hlater | hpush := ih h
    · exact .inl (List.mem_cons_of_mem _ hlater)
    · have hcases : c = d ∨ c ∈ path := by
        unfold push at hpush
        split at hpush
        · exact .inr hpush
        · split at hpush
          · exact .inr (List.mem_cons_of_mem _ hpush)
          · exact .inr hpush
          · exact List.mem_cons.mp hpush
        · exact List.mem_cons.mp hpush
      exact hcases.imp_left fun heq => by simp [heq]

/-- Names are put behind what is there. -/
theorem foldl_push_names (names : List String) (path : List Component) :
    (names.map normal).foldl push path = (names.map normal).reverse ++ path := by
  induction names generalizing path with
  | nil => rfl
  | cons name names ih => simp [ih, push]

/-- A climb takes names away. -/
theorem foldl_push_climb (names : List String) (path : List Component) :
    (List.replicate names.length parent).foldl push (names.map normal ++ path) = path := by
  induction names with
  | nil => rfl
  | cons name names ih => exact ih

end Component

open Component

namespace Path

variable (path : Path)

/-- A name in a path is one of its parts. -/
theorem isPart_of_normal_mem {path : Path} {name : String} (h : normal name ∈ path.components) :
    (normal name).IsPart := by
  rw [components_eq] at h
  obtain hstart | hinner := List.mem_append.mp h
  · unfold start at hstart
    split_ifs at hstart <;> simp at hstart
  · exact isPart_of_mem_inner hinner

/-- Apart from the root, what stands before the parts of a path does not count. -/
theorem foldl_push_components (stack : List Component) (h : path.isAbsolute = false) :
    path.components.foldl push stack = (inner path.text.toList).foldl push stack := by
  rw [components_eq, start, h]
  simp only [Bool.false_eq_true, if_false]
  split <;> rfl

/-- An absolute path goes on from the root. -/
theorem foldl_push_components_of_isAbsolute (h : path.isAbsolute = true) :
    path.components.foldl push [] = (inner path.text.toList).foldl push [.root] := by
  rw [components_eq, start, if_pos h]
  rfl

/-- Going through the components of a path gives a normal form. -/
theorem reduced_components : Reduced (path.components.foldl push []) := by
  have hinner : ∀ c ∈ inner path.text.toList, c ≠ .root := fun c hc =>
    (isPart_of_mem_inner hc).ne_root
  cases h : path.isAbsolute with
  | false => exact foldl_push_components path [] h ▸ (Reduced.climb 0).foldl_push hinner
  | true => exact foldl_push_components_of_isAbsolute path h ▸ Reduced.root.foldl_push hinner

/-- A normalized path is a normal form. -/
theorem reduced_normalize : Reduced (normalize path.components).reverse := by
  rw [Component.normalize, List.reverse_reverse]
  exact path.reduced_components

/-- A name in a normal form is a part of the path. -/
theorem isPart_of_normal_mem_normalize {path : Path} {name : String}
    (h : normal name ∈ normalize path.components) : (normal name).IsPart := by
  obtain hmem | hnil := mem_of_mem_foldl_push (List.mem_reverse.mp h)
  · exact isPart_of_normal_mem hmem
  · exact absurd hnil List.not_mem_nil

/-- A normal form is the root or a climb, and then names, which are parts of the path. -/
theorem exists_names : ∃ names : List String, (∀ name ∈ names, (normal name).IsPart) ∧
    (normalize path.components = .root :: names.map normal ∨
      ∃ n, normalize path.components = List.replicate n parent ++ names.map normal) := by
  obtain ⟨names, hnames⟩ := path.reduced_components.exists_names
  have hform : normalize path.components = .root :: names.reverse.map normal ∨
      ∃ n, normalize path.components = List.replicate n parent ++ names.reverse.map normal := by
    rw [Component.normalize]
    obtain ⟨n, h⟩ | h := hnames
    · exact .inr ⟨n, by simp [h]⟩
    · exact .inl (by simp [h])
  refine ⟨names.reverse, fun name hname => ?_, hform⟩
  have hname : normal name ∈ names.reverse.map normal := List.mem_map_of_mem hname
  have hmem : normal name ∈ normalize path.components := by
    obtain h | ⟨n, h⟩ := hform
    · rw [h]
      exact List.mem_cons_of_mem _ hname
    · rw [h]
      exact List.mem_append_right _ hname
  exact isPart_of_normal_mem_normalize hmem

/-- Behind a normal form, going through components goes on from there. -/
theorem normalize_append (components : List Component) :
    normalize (normalize path.components ++ components) =
      (components.foldl push (path.components.foldl push [])).reverse := by
  have hreduced := path.reduced_normalize.foldl_push_reverse
  rw [List.reverse_reverse] at hreduced
  rw [Component.normalize, List.foldl_append, hreduced, Component.normalize, List.reverse_reverse]

/-- A normal form is its own normal form. -/
theorem normalize_normalize :
    normalize (normalize path.components) = normalize path.components := by
  have happend := path.normalize_append []
  rwa [List.append_nil] at happend

end Path

end Reclass
