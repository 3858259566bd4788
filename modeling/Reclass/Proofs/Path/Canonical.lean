import Reclass.Proofs.Path.Reach
import Mathlib.Data.List.Induction
import Mathlib.Logic.Relation

/-!
# Normal forms are canonical

A component that stands for nothing can be left out: a single point, a name and the two points that
leave it again, and two points behind the root. The normal form is what these rules lead to in the
end, in whatever order they are applied, so it is a function of the place that a path leads to and
not of its spelling: what follows a path can follow its normal form instead.
-/

namespace Reclass

namespace Component

/-- That one component, or two, are left out because they lead nowhere. -/
inductive Folds : List Component → List Component → Prop
  | current (before after : List Component) : Folds (before ++ .current :: after) (before ++ after)
  | name (before after : List Component) (s : String) :
      Folds (before ++ .normal s :: .parent :: after) (before ++ after)
  | root (before after : List Component) :
      Folds (before ++ .root :: .parent :: after) (before ++ .root :: after)

/-- That the rules lead from some components to others. -/
def FoldsTo : List Component → List Component → Prop := Relation.ReflTransGen Folds

/-- That no rule applies. -/
def IsFolded (components : List Component) : Prop := ∀ components', ¬Folds components components'

variable {components components' : List Component}

/-- Leaving out components makes a path shorter. -/
theorem Folds.length_lt (h : Folds components components') :
    components'.length < components.length := by
  cases h <;> simp only [List.length_append, List.length_cons] <;> omega

/-- What is left out does not change the normal form. -/
theorem Folds.normalize_eq (h : Folds components components') :
    normalize components = normalize components' := by
  cases h <;> simp [normalize, push]

/-- What can be left out makes no difference to the normal form. -/
theorem FoldsTo.normalize_eq (h : FoldsTo components components') :
    normalize components = normalize components' := by
  induction h with
  | refl => rfl
  | tail _ hstep ih => exact ih.trans hstep.normalize_eq

/-- The rules make no path longer. -/
theorem FoldsTo.length_le (h : FoldsTo components components') :
    components'.length ≤ components.length := by
  induction h with
  | refl => exact Nat.le_refl _
  | tail _ hstep ih => exact Nat.le_trans (Nat.le_of_lt hstep.length_lt) ih

/-- What can be left out can be left out before one more component. -/
theorem Folds.concat (h : Folds components components') (c : Component) :
    Folds (components ++ [c]) (components' ++ [c]) := by
  cases h with
  | current before after => simpa using Folds.current before (after ++ [c])
  | name before after s => simpa using Folds.name before (after ++ [c]) s
  | root before after => simpa using Folds.root before (after ++ [c])

/-- The rules lead from some components to others also before one more. -/
theorem FoldsTo.concat (h : FoldsTo components components') (c : Component) :
    FoldsTo (components ++ [c]) (components' ++ [c]) := by
  induction h with
  | refl => exact .refl
  | tail _ hstep ih => exact ih.tail (hstep.concat c)

/-- One more component behind those of a stack: the rules lead to what the push of it gives. -/
theorem foldsTo_push (path : List Component) (c : Component) :
    FoldsTo (path.reverse ++ [c]) (push path c).reverse := by
  have hkept (c : Component) (h : push path c = c :: path) :
      FoldsTo (path.reverse ++ [c]) (push path c).reverse := by
    rw [h, List.reverse_cons]
    exact .refl
  cases c with
  | root => exact hkept .root rfl
  | normal s => exact hkept (.normal s) rfl
  | current =>
    have hstep := Folds.current path.reverse []
    rw [List.append_nil] at hstep
    exact .single hstep
  | parent =>
    match path with
    | [] => exact hkept .parent rfl
    | .parent :: _ => exact hkept .parent rfl
    | .current :: _ => exact hkept .parent rfl
    | .root :: rest =>
      have hstep := Folds.root rest.reverse []
      rw [push, List.reverse_cons, List.append_assoc]
      exact .single hstep
    | .normal s :: rest =>
      have hstep := Folds.name rest.reverse [] s
      rw [List.append_nil] at hstep
      rw [push, List.reverse_cons, List.append_assoc]
      exact .single hstep

/-- The rules lead to the normal form. -/
theorem foldsTo_normalize (components : List Component) :
    FoldsTo components (normalize components) := by
  induction components using List.reverseRecOn with
  | nil => exact .refl
  | append_singleton components c ih =>
    have hlast := foldsTo_push (components.foldl push []) c
    rw [normalize, List.foldl_append]
    exact (ih.concat c).trans hlast

/-- A normal form has no more components than the path. -/
theorem length_normalize_le (components : List Component) :
    (normalize components).length ≤ components.length :=
  (foldsTo_normalize components).length_le

/-- No rule applies exactly when the components are their own normal form. -/
theorem isFolded_iff : IsFolded components ↔ normalize components = components := by
  constructor
  · intro h
    cases (foldsTo_normalize components).cases_head with
    | inl heq => exact heq.symm
    | inr hstep =>
      obtain ⟨next, hnext, -⟩ := hstep
      exact absurd hnext (h next)
  · intro h components' hstep
    have hlength := length_normalize_le components'
    rw [← hstep.normalize_eq, h] at hlength
    exact absurd hstep.length_lt (Nat.not_lt.mpr hlength)

/-- The root is never taken away. -/
theorem root_mem_foldl_push {path : List Component} (h : root ∈ path ∨ root ∈ components) :
    root ∈ components.foldl push path := by
  induction components generalizing path with
  | nil => simpa using h
  | cons c components ih =>
    refine ih ?_
    rw [List.mem_cons] at h
    unfold push
    rcases h with h | rfl | h
    · left
      split
      · exact h
      · split
        · simpa using h
        · exact h
        · exact List.mem_cons_of_mem _ h
      · exact List.mem_cons_of_mem _ h
    · exact .inl List.mem_cons_self
    · exact .inr h

end Component

open Component

namespace Path

variable (path : Path)

/-- The root is a component of the absolute paths only. -/
theorem root_mem_components_iff : root ∈ path.components ↔ path.isAbsolute = true := by
  have hinner : root ∉ inner path.text.toList := fun h => (isPart_of_mem_inner h).ne_root rfl
  rw [components_eq, List.mem_append, or_iff_left hinner, start]
  split_ifs with habsolute <;> simp [habsolute]

/-- A path in normal form is absolute exactly when it was so before. -/
theorem root_mem_normalize_iff : root ∈ normalize path.components ↔ path.isAbsolute = true := by
  rw [← root_mem_components_iff, Component.normalize, List.mem_reverse]
  constructor
  · intro h
    exact (mem_of_mem_foldl_push h).resolve_right List.not_mem_nil
  · intro h
    exact root_mem_foldl_push (.inr h)

/-- A normal form is the root and names, or a climb and names, as the path is absolute or not. -/
theorem normalize_cases : ∃ names : List String,
    (path.isAbsolute = true ∧ normalize path.components = .root :: names.map normal) ∨
      (path.isAbsolute = false ∧
        ∃ n, normalize path.components = List.replicate n parent ++ names.map normal) := by
  have habsolute := path.root_mem_normalize_iff
  obtain ⟨names, -, hroot | ⟨n, hclimb⟩⟩ := path.exists_names
  · refine ⟨names, .inl ⟨habsolute.mp ?_, hroot⟩⟩
    rw [hroot]
    exact List.mem_cons_self
  · refine ⟨names, .inr ⟨?_, n, hclimb⟩⟩
    rw [← Bool.not_eq_true, ← habsolute, hclimb]
    simp

/-- The normal form of a path is canonical. It has no single point in it, and two points only at the
start of a relative path; it is its own normal form; and behind it a relative path leads where it
leads behind the path itself. It is what is left of the components when all that lead nowhere are
left out, in whatever order. -/
theorem normalized_is_canonical :
    (current ∉ path.normalized.components ∧ ∃ names : List String,
      (path.isAbsolute = true ∧ path.normalized.components = .root :: names.map normal) ∨
        (path.isAbsolute = false ∧
          ∃ n, path.normalized.components = List.replicate n parent ++ names.map normal)) ∧
    path.normalized.normalized = path.normalized ∧
    (∀ other : Path, other.isAbsolute = false →
      (path.join other).normalized = (path.normalized.join other).normalized) ∧
    ∀ form, FoldsTo path.components form ∧ IsFolded form ↔ form = path.normalized.components := by
  have hfixed : normalize (normalize path.components) = normalize path.components :=
    path.normalize_normalize
  obtain ⟨names, hnames⟩ := path.normalize_cases
  rw [components_normalized]
  refine ⟨⟨?_, names, hnames⟩, ?_, fun other hother => ?_, fun form => ?_⟩
  · obtain ⟨-, hroot⟩ | ⟨-, n, hclimb⟩ := hnames
    · simp [hroot]
    · simp [hclimb]
  · rw [normalized, components_normalized, hfixed, normalized]
  · rw [normalized, normalized, normalize_join hother, normalize_join hother,
      components_normalized, hfixed]
  · constructor
    · rintro ⟨hsteps, hfolded⟩
      rw [hsteps.normalize_eq, isFolded_iff.mp hfolded]
    · rintro rfl
      exact ⟨foldsTo_normalize _, isFolded_iff.mpr hfixed⟩

/-- Two climbs stay at the start of a relative path, and are left out behind the root. -/
theorem normalized_is_canonical_of_climb :
    (normalized ⟨"a/.././../b"⟩).text = "../b" ∧ (normalized ⟨"/a/../../b/"⟩).text = "/b" ∧
      isAbsolute ⟨"../c/."⟩ = false ∧
      (join ⟨"a/.././../b"⟩ ⟨"../c/."⟩).normalized = (join ⟨"../b"⟩ ⟨"../c/."⟩).normalized ∧
      (join ⟨"../b"⟩ ⟨"../c/."⟩).normalized.text = "../c" := by
  have hrelative : isAbsolute ⟨"../c/."⟩ = false := by decide
  have hform : normalized ⟨"a/.././../b"⟩ = ⟨"../b"⟩ := by decide +kernel
  have hjoin := (normalized_is_canonical ⟨"a/.././../b"⟩).2.2.1 ⟨"../c/."⟩ hrelative
  rw [hform] at hjoin
  exact ⟨congrArg Path.text hform, by decide +kernel, hrelative, hjoin, by decide +kernel⟩

end Path

end Reclass
