import Reclass.Path
import Mathlib.Data.List.Basic
import Mathlib.Data.List.TakeWhile

/-!
# How paths are spelled

Between its slashes a path has parts, and each part stands for a component or for none. A path that
is put together from two others has the components of the first one and then those of the second
one, and the components of a path can be written down as a path again.
-/

namespace Reclass

namespace Component

/-- A component as it is written between slashes; the root is what stands before the first one. -/
def text : Component → List Char
  | .root => []
  | .current => ['.']
  | .parent => ['.', '.']
  | .normal name => name.toList

/-- That a component is what some part between slashes stands for. -/
def IsPart (c : Component) : Prop := '/' ∉ c.text ∧ Path.componentOf? c.text = some c

/-- Two points between slashes stand for the place above. -/
theorem isPart_parent : parent.IsPart := ⟨by decide, by decide⟩

/-- No part between slashes stands for the root. -/
theorem IsPart.ne_root {c : Component} (h : c.IsPart) : c ≠ .root := by
  rintro rfl
  exact absurd h.2 (by decide)

/-- The text of a part has a first character, and is not a single point. -/
theorem IsPart.text_ne {c : Component} (h : c.IsPart) : c.text ≠ [] ∧ c.text ≠ ['.'] := by
  obtain ⟨-, hpart⟩ := h
  constructor
  all_goals
    intro htext
    rw [htext] at hpart
    exact absurd hpart (by simp [Path.componentOf?])

end Component

namespace Path

/-- The part that stands for a component is the text of this component. -/
theorem text_of_componentOf? {part : List Char} {c : Component} (h : componentOf? part = some c) :
    c.text = part := by
  unfold componentOf? at h
  split at h
  · exact absurd h (by simp)
  · split at h
    · next hparent =>
      cases h
      exact hparent.symm
    · cases h
      exact String.toList_ofList

/-- The components that the parts of a text stand for. -/
def inner (s : List Char) : List Component := (Text.fields '/' s).filterMap componentOf?

/-- What the parts of a text stand for can be spelled as parts. -/
theorem isPart_of_mem_inner {s : List Char} {c : Component} (h : c ∈ inner s) : c.IsPart := by
  obtain ⟨part, hpart, hc⟩ := List.mem_filterMap.mp h
  have htext := text_of_componentOf? hc
  exact ⟨htext ▸ Text.notMem_of_mem_fields hpart, htext ▸ hc⟩

/-- An empty text has no components. -/
theorem inner_nil : inner [] = [] := rfl

/-- At a slash the parts of a text are those before it and those behind it. -/
theorem inner_append (s t : List Char) : inner (s ++ '/' :: t) = inner s ++ inner t := by
  rw [inner, Text.fields_append, List.filterMap_append]
  rfl

/-- Components that are written with slashes between them are read again. -/
theorem inner_join {components : List Component} (h : ∀ c ∈ components, c.IsPart) :
    inner (Text.join '/' (components.map Component.text)) = components := by
  by_cases hne : components = []
  · subst hne
    rfl
  have hslash : ∀ part ∈ components.map Component.text, '/' ∉ part := by
    rintro part hpart
    obtain ⟨c, hc, rfl⟩ := List.mem_map.mp hpart
    exact (h c hc).1
  rw [inner, Text.fields_join (by simpa using hne) hslash, List.filterMap_map]
  exact (List.filterMap_congr fun c hc => (h c hc).2).trans List.filterMap_some

/-- A component that is written alone is read again. -/
theorem inner_text {c : Component} (h : c.IsPart) : inner c.text = [c] :=
  inner_join (List.forall_mem_singleton.mpr h)

/-- What stands before the parts of a path. -/
def start (path : Path) : List Component :=
  if path.isAbsolute then [.root]
  else if (Text.fields '/' path.text.toList).head? = some ['.'] then [.current]
  else []

/-- The components of a path are its start, and then what its parts stand for. -/
theorem components_eq (path : Path) :
    path.components = path.start ++ inner path.text.toList := rfl

/-! ### Joined paths -/

variable {path : Path}

/-- A path is absolute when it starts with a slash. -/
theorem isAbsolute_iff : path.isAbsolute = true ↔ ∃ s, path.text.toList = '/' :: s := by
  rw [isAbsolute, beq_iff_eq, List.head?_eq_some_iff]

/-- A relative path seen from another one: it is itself where nothing stands before it, and
otherwise stands behind the other one with a slash between the two. -/
theorem join_cases (base : Path) (h : path.isAbsolute = false) :
    (base.text.toList = [] ∧ base.join path = path) ∨
      (base.text.toList ≠ [] ∧ (base.join path).isAbsolute = base.isAbsolute ∧
        inner (base.join path).text.toList = inner base.text.toList ++ inner path.text.toList) := by
  by_cases hbase : base.text.toList = []
  · left
    have hempty : base.text.isEmpty = true := by simpa [String.toList_eq_nil_iff] using hbase
    simp [join, hbase, hempty]
  · right
    have hnonempty : base.text.isEmpty = false := by
      simpa [String.toList_eq_nil_iff] using hbase
    obtain ⟨c, s, hs⟩ := List.exists_cons_of_ne_nil hbase
    refine ⟨hbase, ?_⟩
    by_cases hslash : base.text.toList.getLast? = some '/'
    · -- The slash at the end of the first path is the one between the two.
      obtain ⟨before, hbefore⟩ := List.getLast?_eq_some_iff.mp hslash
      have hjoin : base.join path = ⟨base.text ++ path.text⟩ := by
        simp [join, h, hnonempty, hslash]
      constructor
      · simp [hjoin, isAbsolute, hs]
      · rw [hjoin, String.toList_append, hbefore, List.append_assoc, List.singleton_append,
          inner_append, inner_append, inner_nil, List.append_nil]
    · have hjoin : base.join path = ⟨base.text ++ "/" ++ path.text⟩ := by
        simp [join, h, hnonempty, hslash]
      constructor
      · simp [hjoin, isAbsolute, hs]
      · have hbetween : (base.text ++ "/" ++ path.text).toList =
            base.text.toList ++ '/' :: path.text.toList := by
          simp
        rw [hjoin, hbetween, inner_append]

/-! ### Writing components -/

/-- The path with some components. -/
def ofComponents : List Component → Path
  | .root :: below => ⟨"/" ++ String.ofList (Text.join '/' (below.map Component.text))⟩
  | components => ⟨String.ofList (Text.join '/' (components.map Component.text))⟩

/-- A path from the root is spelled with a slash in front. -/
theorem ofComponents_root (below : List Component) : (ofComponents (.root :: below)).text.toList =
    '/' :: Text.join '/' (below.map Component.text) := by
  simp [ofComponents]

/-- Other components are spelled with slashes between them. -/
theorem ofComponents_relative {components : List Component} (h : ∀ c ∈ components, c.IsPart) :
    (ofComponents components).text.toList = Text.join '/' (components.map Component.text) := by
  cases components with
  | nil => rfl
  | cons c rest =>
    have hroot := (h c List.mem_cons_self).ne_root
    cases c <;> simp [ofComponents] at hroot ⊢

/-- Parts behind the root are read again. -/
theorem components_ofComponents_root {below : List Component} (h : ∀ c ∈ below, c.IsPart) :
    (ofComponents (.root :: below)).components = .root :: below := by
  have habsolute : (ofComponents (.root :: below)).isAbsolute = true :=
    isAbsolute_iff.mpr ⟨_, ofComponents_root below⟩
  have hinner : inner ('/' :: Text.join '/' (below.map Component.text)) = below := by
    rw [← List.nil_append ('/' :: _), inner_append, inner_nil, inner_join h, List.nil_append]
  rw [components_eq, start, habsolute, if_pos rfl, ofComponents_root, hinner,
    List.singleton_append]

/-- Parts without the root are read again. -/
theorem components_ofComponents_relative {components : List Component}
    (h : ∀ c ∈ components, c.IsPart) : (ofComponents components).components = components := by
  have htext := ofComponents_relative h
  have hstart : (ofComponents components).start = [] := by
    unfold start isAbsolute
    rw [htext]
    cases components with
    | nil => decide
    | cons c rest =>
      obtain ⟨hne, hpoint⟩ := (h c List.mem_cons_self).text_ne
      obtain ⟨first, others, hfirst⟩ := List.exists_cons_of_ne_nil hne
      have hslash : first ≠ '/' := fun heq =>
        (h c List.mem_cons_self).1 (by rw [hfirst, heq]; exact List.mem_cons_self)
      have hparts : ∀ part ∈ (c :: rest).map Component.text, '/' ∉ part := by
        rintro part hpart
        obtain ⟨c, hc, rfl⟩ := List.mem_map.mp hpart
        exact (h c hc).1
      have hhead : (Text.join '/' ((c :: rest).map Component.text)).head? = some first := by
        cases rest <;> simp [Text.join, hfirst]
      rw [hhead, Text.fields_join (by simp) hparts]
      simp [hslash, hpoint]
  rw [components_eq, hstart, htext, inner_join h, List.nil_append]

/-! ### The directory of a written path -/

/-- A name at the end of a path has no slash and no single point behind it. -/
private theorem dropTrailing_reverse {name : List Char} (hname : name ≠ [] ∧ name ≠ ['.'])
    (hslash : '/' ∉ name) (before : List Char) :
    dropTrailing (name.reverse ++ before) = name.reverse ++ before := by
  obtain ⟨hne, hpoint⟩ := hname
  cases hreverse : name.reverse with
  | nil => exact absurd (List.reverse_eq_nil_iff.mp hreverse) hne
  | cons c rest =>
    have hmem : ∀ d ∈ c :: rest, d ≠ '/' := fun d hd heq =>
      hslash (List.mem_reverse.mp (hreverse ▸ heq ▸ hd))
    rw [List.cons_append, dropTrailing]
    · exact fun _ h => hmem c List.mem_cons_self (List.cons.inj h).1
    · intro s h
      obtain ⟨rfl, hrest⟩ := List.cons.inj h
      cases rest with
      | nil => exact hpoint (by simpa using congrArg List.reverse hreverse)
      | cons d rest => exact hmem d (by simp) (List.cons.inj hrest).1

/-- The directory of a file is what stands before its name. -/
theorem directory_behind_slash {before name : List Char} (hname : name ≠ [] ∧ name ≠ ['.'])
    (hslash : '/' ∉ name) (htext : path.text.toList = before ++ '/' :: name) :
    path.directory.text.toList = before ++ ['/'] := by
  have hreverse : path.text.toList.reverse = name.reverse ++ '/' :: before.reverse := by
    simp [htext]
  have hdrop : (name.reverse ++ '/' :: before.reverse).dropWhile (· != '/') =
      '/' :: before.reverse := by
    rw [List.dropWhile_append_of_pos]
    · simp
    · intro c hc
      have hne : c ≠ '/' := fun heq => hslash (List.mem_reverse.mp (heq ▸ hc))
      simpa using hne
  rw [directory, hreverse, dropTrailing_reverse hname hslash, hdrop]
  simp

/-- A single name is in the current directory. -/
theorem directory_of_name {name : List Char} (hname : name ≠ [] ∧ name ≠ ['.'])
    (hslash : '/' ∉ name) (htext : path.text.toList = name) : path.directory = ⟨"."⟩ := by
  have hdrop : name.reverse.dropWhile (· != '/') = [] := by
    rw [List.dropWhile_eq_nil_iff]
    intro c hc
    have hne : c ≠ '/' := fun heq => hslash (List.mem_reverse.mp (heq ▸ hc))
    simpa using hne
  have hkept := dropTrailing_reverse hname hslash []
  rw [List.append_nil] at hkept
  rw [directory, htext, hkept, hdrop]

end Path

end Reclass
