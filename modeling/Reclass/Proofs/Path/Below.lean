import Reclass.Proofs.Path.NormalForm

/-!
# Paths below a root

A file is below a root when its normal form is that of the root and then names, of which the last
one is its own. How many directories are between the two can be read off the normal forms alone. It
is also read off for the root itself, and for paths that are outside of a root that has no names: a
climb that is left by a longer one, and the empty root, behind which an absolute path may stand.
-/

namespace Reclass

namespace Component

/-- What is left of a path behind its start is the rest of it. -/
theorem stripStart?_eq_some_iff {start path rest : List Component} :
    stripStart? start path = some rest ↔ path = start ++ rest := by
  fun_induction stripStart? start path with
  | case1 path => simp [eq_comm]
  | case2 => simp
  | case3 start b path ih => simpa using ih
  | case4 a start b path hne => simp [Ne.symm hne]

/-- A depth is read off when the normal form of the root is where that of the file starts. -/
theorem depthBelow?_eq_some_iff {source root : List Component} {d : Nat} :
    depthBelow? source root = some d ↔
      ∃ rest, normalize source = normalize root ++ rest ∧ rest.countP isNormal - 1 = d := by
  simp only [depthBelow?, Option.map_eq_some_iff, stripStart?_eq_some_iff]

/-- All components that are names count. -/
theorem countP_isNormal_names (names : List String) :
    (names.map normal).countP isNormal = names.length := by
  induction names with
  | nil => rfl
  | cons name names ih => rw [List.map_cons, List.countP_cons_of_pos rfl, ih, List.length_cons]

/-- Of the steps of a climb none counts. -/
theorem countP_isNormal_climb (n : Nat) : (List.replicate n parent).countP isNormal = 0 := by
  rw [List.countP_replicate]
  rfl

end Component

open Component

namespace Path

/-- That a path in normal form is a root in normal form and then some names. -/
def IsBelow (source root : Path) (names : List String) : Prop :=
  normalize source.components = normalize root.components ++ names.map normal

/-- That a path is outside of a root and passes for one below it, with some names behind the two: it
is the root itself, it climbs further than a root that is a climb, or it is absolute where the
root is empty. -/
inductive PassesForBelow (source root : Path) : List String → Prop
  | same (h : normalize source.components = normalize root.components) :
      PassesForBelow source root []
  | climb {n m : Nat} {names : List String}
      (hroot : normalize root.components = List.replicate n parent)
      (hsource : normalize source.components =
        List.replicate (n + (m + 1)) parent ++ names.map normal) :
      PassesForBelow source root names
  | absolute {names : List String} (hroot : normalize root.components = [])
      (hsource : normalize source.components = .root :: names.map normal) :
      PassesForBelow source root names

variable {source root : Path} {names : List String}

/-- A path that passes for one below a root has its names behind the normal form of the root, but
not them alone. -/
theorem PassesForBelow.exists_rest (h : source.PassesForBelow root names) :
    ∃ rest, normalize source.components = normalize root.components ++ rest ∧
      rest.countP isNormal = names.length ∧ ∀ others, others ≠ [] → rest ≠ others.map normal := by
  cases h with
  | same h => exact ⟨[], by simpa using h, rfl, fun others hne heq => hne (by simpa using heq)⟩
  | @climb n m _ hroot hsource =>
    refine ⟨List.replicate (m + 1) parent ++ names.map normal, ?_, ?_, fun others hne heq => ?_⟩
    · rw [hsource, hroot, List.replicate_add, List.append_assoc]
    · rw [List.countP_append, countP_isNormal_climb, countP_isNormal_names, Nat.zero_add]
    · obtain ⟨first, rest, rfl⟩ := List.exists_cons_of_ne_nil hne
      simp [List.replicate_succ] at heq
  | absolute hroot hsource =>
    refine ⟨.root :: names.map normal, by rw [hsource, hroot, List.nil_append], ?_,
      fun others hne heq => ?_⟩
    · rw [List.countP_cons_of_neg (by decide), countP_isNormal_names]
    · obtain ⟨first, rest, rfl⟩ := List.exists_cons_of_ne_nil hne
      simp at heq

/-- What passes for a path below a root is none. -/
theorem PassesForBelow.not_isBelow (h : source.PassesForBelow root names) {others : List String}
    (hne : others ≠ []) : ¬source.IsBelow root others := by
  obtain ⟨rest, hrest, -, hnot⟩ := h.exists_rest
  exact fun hbelow => hnot others hne (List.append_cancel_left (hrest.symm.trans hbelow))

/-- Behind the normal form of a root there are names, or else the path only passes for one below
it. -/
theorem rest_cases {rest : List Component}
    (h : normalize source.components = normalize root.components ++ rest) :
    (∃ names, names ≠ [] ∧ rest = names.map normal) ∨
      ∃ names, source.PassesForBelow root names ∧ rest.countP isNormal = names.length := by
  by_cases hnil : rest = []
  · subst hnil
    exact .inr ⟨[], .same (by simpa using h), rfl⟩
  obtain ⟨names, -, hsource⟩ := source.exists_names
  -- The root ends inside of the names of the path, or before them.
  have hinside {more : List Component} (hnames : names.map normal = more ++ rest) :
      ∃ names, names ≠ [] ∧ rest = names.map normal := by
    obtain ⟨_, behind, _, _, hbehind⟩ := List.map_eq_append_iff.mp hnames
    exact ⟨behind, by rintro rfl; exact hnil hbehind.symm, hbehind.symm⟩
  obtain hroot | ⟨n, hclimb⟩ := hsource
  · rw [hroot] at h
    cases hstart : normalize root.components with
    | nil =>
      rw [hstart, List.nil_append] at h
      refine .inr ⟨names, .absolute hstart hroot, ?_⟩
      rw [← h, List.countP_cons_of_neg (by decide), countP_isNormal_names]
    | cons first others =>
      rw [hstart, List.cons_append] at h
      exact .inl (hinside (List.cons.inj h).2)
  · rw [hclimb] at h
    obtain ⟨more, hmore, hnames⟩ | ⟨more, hmore, hrest⟩ := List.append_eq_append_iff.mp h
    · exact .inl (hinside hnames)
    · obtain ⟨hlength, hstart, hclimbed⟩ := List.replicate_eq_append_iff.mp hmore
      cases hsize : more.length with
      | zero =>
        obtain rfl := List.length_eq_zero_iff.mp hsize
        have hnames : names.map normal = [] ++ rest := hrest.symm
        exact .inl (hinside hnames)
      | succ size =>
        refine .inr ⟨names, .climb (m := size) hstart ?_, ?_⟩
        · rw [hclimb, ← hsize, hlength]
        · rw [hrest, List.countP_append, hclimbed, countP_isNormal_climb, countP_isNormal_names,
            Nat.zero_add]

/-- A depth is read off for a path below a root, where it is the number of directories between the
two, and for a path that passes for one. So it tells the paths below a root from all others, and
counts what is between, exactly when the path does not pass for one. -/
theorem depthBelow?_counts_names_iff (source root : Path) :
    (∀ d, depthBelow? source.components root.components = some d ↔
      ∃ names, (source.IsBelow root names ∧ names.length = d + 1) ∨
        (source.PassesForBelow root names ∧ names.length - 1 = d)) ∧
    ((∀ d, depthBelow? source.components root.components = some d ↔
        ∃ names, source.IsBelow root names ∧ names.length = d + 1) ↔
      ∀ names, ¬source.PassesForBelow root names) := by
  have hdepth (d : Nat) : depthBelow? source.components root.components = some d ↔
      ∃ names, (source.IsBelow root names ∧ names.length = d + 1) ∨
        (source.PassesForBelow root names ∧ names.length - 1 = d) := by
    rw [depthBelow?_eq_some_iff]
    constructor
    · rintro ⟨rest, hrest, hd⟩
      obtain ⟨names, hne, rfl⟩ | ⟨names, hpasses, hcount⟩ := rest_cases hrest
      · have hpos := List.length_pos_iff.mpr hne
        rw [countP_isNormal_names] at hd
        exact ⟨names, .inl ⟨hrest, by omega⟩⟩
      · exact ⟨names, .inr ⟨hpasses, hcount ▸ hd⟩⟩
    · rintro ⟨names, ⟨hbelow, hlength⟩ | ⟨hpasses, hd⟩⟩
      · exact ⟨names.map normal, hbelow, by rw [countP_isNormal_names]; omega⟩
      · obtain ⟨rest, hrest, hcount, -⟩ := hpasses.exists_rest
        exact ⟨rest, hrest, hcount ▸ hd⟩
  refine ⟨hdepth, fun hclaim names hpasses => ?_, fun hnone d => ?_⟩
  · obtain ⟨others, hbelow, hlength⟩ := (hclaim _).mp ((hdepth _).mpr ⟨names, .inr ⟨hpasses, rfl⟩⟩)
    exact hpasses.not_isBelow (List.length_pos_iff.mp (by omega)) hbelow
  · rw [hdepth]
    refine exists_congr fun names => or_iff_left ?_
    exact fun h => hnone names h.1

/-- A root passes for a file in itself, a file above the current directory and one with an absolute
path pass for files below the current directory. None of them is below its root. -/
theorem root_and_outside_pass_for_below :
    (depthBelow? (components ⟨"web/js"⟩) (components ⟨"./web/js/"⟩) = some 0 ∧
      ∀ names, names ≠ [] → ¬IsBelow ⟨"web/js"⟩ ⟨"./web/js/"⟩ names) ∧
    (depthBelow? (components ⟨"../a/x.js"⟩) (components ⟨"."⟩) = some 1 ∧
      ∀ names, names ≠ [] → ¬IsBelow ⟨"../a/x.js"⟩ ⟨"."⟩ names) ∧
    (depthBelow? (components ⟨"/a/x.js"⟩) (components ⟨"."⟩) = some 1 ∧
      ∀ names, names ≠ [] → ¬IsBelow ⟨"/a/x.js"⟩ ⟨"."⟩ names) := by
  have hsame : PassesForBelow ⟨"web/js"⟩ ⟨"./web/js/"⟩ [] := .same (by decide +kernel)
  have hclimb : PassesForBelow ⟨"../a/x.js"⟩ ⟨"."⟩ ["a", "x.js"] :=
    .climb (n := 0) (m := 0) (by decide +kernel) (by decide +kernel)
  have habsolute : PassesForBelow ⟨"/a/x.js"⟩ ⟨"."⟩ ["a", "x.js"] :=
    .absolute (by decide +kernel) (by decide +kernel)
  exact ⟨⟨by decide +kernel, fun _ hne => hsame.not_isBelow hne⟩,
    ⟨by decide +kernel, fun _ hne => hclimb.not_isBelow hne⟩,
    by decide +kernel, fun _ hne => habsolute.not_isBelow hne⟩

end Path

end Reclass
