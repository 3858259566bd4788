import Reclass.Proofs.Path.Below

/-!
# Imports reach their module

From the directory of a file below a root, the import of a module climbs as many directories as
there are between the root and the file, and goes down to the module from there. So, whatever way
the two paths and the path of the module are spelled, it leads to the module below the root.
-/

namespace Reclass

open Component

namespace Path

/-- A path in normal form. -/
def normalized (path : Path) : Path := ofComponents (normalize path.components)

/-- The components of a path in normal form. -/
theorem components_normalized (path : Path) :
    path.normalized.components = normalize path.components := by
  obtain ⟨names, hparts, hcases⟩ := path.exists_names
  have hnames : ∀ c ∈ names.map normal, c.IsPart := by
    rintro c hc
    obtain ⟨name, hname, rfl⟩ := List.mem_map.mp hc
    exact hparts name hname
  unfold normalized
  obtain hroot | ⟨n, hclimb⟩ := hcases
  · rw [hroot, components_ofComponents_root hnames]
  · rw [hclimb]
    refine components_ofComponents_relative fun c hc => ?_
    obtain hc | hc := List.mem_append.mp hc
    · exact List.eq_of_mem_replicate hc ▸ isPart_parent
    · exact hnames c hc

variable {base path : Path}

/-- A relative path seen from another one, in normal form, is what follows the normal form of the
other one. -/
theorem normalize_join (h : path.isAbsolute = false) :
    normalize (base.join path).components =
      normalize (normalize base.components ++ path.components) := by
  rw [normalize_append, Component.normalize, foldl_push_components path _ h, List.reverse_inj]
  obtain ⟨hbase, hjoin⟩ | ⟨-, habsolute, hinner⟩ := join_cases base h
  · have hnone : base.isAbsolute = false := by simp [isAbsolute, hbase]
    rw [hjoin, foldl_push_components path _ h, foldl_push_components base _ hnone, hbase]
    rfl
  · cases hroot : base.isAbsolute with
    | false =>
      rw [foldl_push_components _ _ (habsolute.trans hroot), foldl_push_components _ _ hroot,
        hinner, List.foldl_append]
    | true =>
      rw [foldl_push_components_of_isAbsolute _ (habsolute.trans hroot),
        foldl_push_components_of_isAbsolute _ hroot, hinner, List.foldl_append]

/-- The directory of a file, in normal form, is the file without its name. -/
theorem normalize_directory {name : String} (hname : (normal name).IsPart)
    (htext : path.text.toList = name.toList ∨
      ∃ before, path.text.toList = before ++ '/' :: name.toList) :
    normalize path.components = normalize path.directory.components ++ [normal name] := by
  have hinner : inner name.toList = [normal name] := inner_text hname
  obtain htext | ⟨before, htext⟩ := htext
  · have hrelative : path.isAbsolute = false := by
      have hfirst : path.text.toList.head? ≠ some '/' := by
        rw [htext]
        exact fun h => hname.1 (List.mem_of_head? h)
      simpa [isAbsolute] using hfirst
    have hnone : normalize (components ⟨"."⟩) = [] := by decide
    rw [directory_of_name hname.text_ne hname.1 htext, hnone, Component.normalize,
      foldl_push_components path _ hrelative, htext, hinner]
    rfl
  · have hdirectory := directory_behind_slash hname.text_ne hname.1 htext
    have habsolute : path.directory.isAbsolute = path.isAbsolute := by
      rw [isAbsolute, isAbsolute, hdirectory, htext]
      cases before <;> rfl
    have hparts : inner path.text.toList = inner path.directory.text.toList ++ [normal name] := by
      rw [htext, hdirectory, inner_append, inner_append, hinner, inner_nil, List.append_nil]
    rw [Component.normalize, Component.normalize]
    cases hroot : path.isAbsolute with
    | false =>
      rw [foldl_push_components _ _ hroot, foldl_push_components _ _ (habsolute.trans hroot),
        hparts, List.foldl_append, ← List.reverse_cons]
      rfl
    | true =>
      rw [foldl_push_components_of_isAbsolute _ hroot,
        foldl_push_components_of_isAbsolute _ (habsolute.trans hroot), hparts,
        List.foldl_append, ← List.reverse_cons]
      rfl

/-- A path that is written from its components ends with its name. -/
theorem ofComponents_concat (components : List Component) (name : String) :
    (ofComponents (components ++ [normal name])).text.toList = name.toList ∨
      ∃ before, (ofComponents (components ++ [normal name])).text.toList =
        before ++ '/' :: name.toList := by
  have hjoin (cs : List Component) (hne : cs ≠ []) :
      Text.join '/' ((cs ++ [normal name]).map Component.text) =
        Text.join '/' (cs.map Component.text) ++ '/' :: name.toList := by
    rw [List.map_append, List.map_singleton, Text.join_concat (by simpa using hne)]
    rfl
  cases components with
  | nil => exact .inl String.toList_ofList
  | cons c rest =>
    right
    have hcons := hjoin (c :: rest) (by simp)
    cases c with
    | root =>
      by_cases hne : rest = []
      · exact ⟨[], by simp [hne, ofComponents, Text.join, Component.text]⟩
      · refine ⟨'/' :: Text.join '/' (rest.map Component.text), ?_⟩
        rw [List.cons_append, ofComponents_root, hjoin rest hne, List.cons_append]
    | _ => exact ⟨_, String.toList_ofList.trans hcons⟩

/-- The directory of a file in normal form is the file without its name. -/
theorem normalize_directory_normalized {directory : List Component} {name : String}
    (h : normalize path.components = directory ++ [normal name]) :
    normalize path.normalized.directory.components = directory := by
  have hmem : normal name ∈ normalize path.components := by
    rw [h]
    exact List.mem_append_right _ List.mem_cons_self
  have htext : path.normalized.text.toList = name.toList ∨
      ∃ before, path.normalized.text.toList = before ++ '/' :: name.toList := by
    rw [normalized, h]
    exact ofComponents_concat directory name
  have hsplit := normalize_directory (isPart_of_normal_mem_normalize hmem) htext
  rw [components_normalized, normalize_normalize, h] at hsplit
  exact (List.append_cancel_right hsplit).symm

/-! ### The import -/

/-- An import as it is written: the directory of the file, or a climb out of it, and then the path
of the module. -/
theorem toList_importSpecifier (depth : Nat) (target : String) :
    (importSpecifier depth target).toList =
      (if depth = 0 then ['.', '/'] else (List.replicate depth ['.', '.', '/']).flatten) ++
        target.toList.dropWhile (· == '/') := by
  unfold importSpecifier
  split
  · simp only [String.toList_append, String.toList_ofList]
    rfl
  · simp only [String.toList_append, String.toList_ofList, String.toList_join,
      List.flatMap_replicate]
    rfl

/-- An import starts with a point, and goes on from the directory of the file or from the one
above it. -/
theorem importSpecifier_startsWith (depth : Nat) (target : String) :
    ['.', '/'] <+: (importSpecifier depth target).toList ∨
      ['.', '.', '/'] <+: (importSpecifier depth target).toList := by
  rw [toList_importSpecifier]
  cases depth with
  | zero => exact .inl (List.prefix_append _ _)
  | succ depth =>
    refine .inr ?_
    rw [if_neg (Nat.succ_ne_zero depth), List.replicate_succ, List.flatten_cons, List.append_assoc]
    exact List.prefix_append _ _

/-- The parts of an import are a climb and the parts of the path of the module. -/
theorem inner_importSpecifier (depth : Nat) (target : String) :
    inner (importSpecifier depth target).toList =
      List.replicate depth parent ++ inner (target.toList.dropWhile (· == '/')) := by
  have hclimb (depth : Nat) (down : List Char) :
      inner ((List.replicate depth ['.', '.', '/']).flatten ++ down) =
        List.replicate depth parent ++ inner down := by
    induction depth with
    | zero => rfl
    | succ depth ih =>
      have hup := inner_append ['.', '.'] ((List.replicate depth ['.', '.', '/']).flatten ++ down)
      rw [List.replicate_succ, List.replicate_succ, List.cons_append, ← ih]
      exact hup
  rw [toList_importSpecifier]
  split
  · next hzero =>
    rw [hzero]
    exact inner_append ['.'] (target.toList.dropWhile (· == '/'))
  · exact hclimb depth _

/-- The import of a module, seen from the directory of a file below a root, leads to the module
below the root. -/
theorem specifier_reaches_target {source root : Path} {names : List String}
    (hbelow : source.IsBelow root names) (hne : names ≠ []) (target : String) :
    ∃ specifier, specifierFrom? source.components root.components target = some specifier ∧
      (['.', '/'] <+: specifier.toList ∨ ['.', '.', '/'] <+: specifier.toList) ∧
      (source.normalized.directory / specifier).normalized =
        (root / String.ofList (target.toList.dropWhile (· == '/'))).normalized := by
  obtain ⟨between, name, rfl⟩ := (List.eq_nil_or_concat names).resolve_left hne
  -- One climb for each directory between the two.
  have hdepth : depthBelow? source.components root.components = some between.length :=
    depthBelow?_eq_some_iff.mpr ⟨_, hbelow, by
      rw [countP_isNormal_names, List.length_concat, Nat.add_sub_cancel]⟩
  have hstarts := importSpecifier_startsWith between.length target
  refine ⟨importSpecifier between.length target, by rw [specifierFrom?, hdepth]; rfl, hstarts, ?_⟩
  have hrelative : isAbsolute ⟨importSpecifier between.length target⟩ = false := by
    obtain ⟨rest, hrest⟩ | ⟨rest, hrest⟩ := hstarts <;> simp [isAbsolute, ← hrest]
  have hdown : isAbsolute ⟨String.ofList (target.toList.dropWhile (· == '/'))⟩ = false := by
    have hhead := List.head?_dropWhile_not (· == '/') target.toList
    rw [isAbsolute, String.toList_ofList]
    cases hdropped : (target.toList.dropWhile (· == '/')).head? with
    | none => rfl
    | some c =>
      rw [hdropped] at hhead
      simpa using hhead
  have hdirectory : normalize source.normalized.directory.components =
      normalize root.components ++ between.map normal := by
    have hsource : normalize source.components =
        normalize root.components ++ between.map normal ++ [normal name] := by
      rw [hbelow, List.concat_eq_append, List.map_append, List.append_assoc]
      rfl
    exact normalize_directory_normalized hsource
  have hclimb := foldl_push_climb between.reverse (root.components.foldl push [])
  rw [List.length_reverse, List.map_reverse] at hclimb
  refine congrArg ofComponents ?_
  change normalize (join _ ⟨_⟩).components = normalize (join _ ⟨_⟩).components
  rw [normalize_join hrelative, normalize_join hdown, hdirectory, List.append_assoc,
    normalize_append, normalize_append, List.foldl_append, foldl_push_names,
    foldl_push_components _ _ hrelative, foldl_push_components _ _ hdown, inner_importSpecifier,
    List.foldl_append, hclimb, String.toList_ofList]

/-- A file that is spelled with a directory that is left again, a root with a point and a slash, and
a module with two slashes in front. -/
theorem specifier_reaches_target_of_nested_file :
    ∃ specifier, IsBelow ⟨"/site/web/css/../js/loads/a/b.js"⟩ ⟨"/site/./web/js/"⟩
        ["loads", "a", "b.js"] ∧ ["loads", "a", "b.js"] ≠ [] ∧
      specifierFrom? (components ⟨"/site/web/css/../js/loads/a/b.js"⟩)
        (components ⟨"/site/./web/js/"⟩) "//orders/View" = some specifier ∧
      specifier = "../../orders/View" ∧
      (normalized ⟨"/site/web/css/../js/loads/a/b.js"⟩).directory = ⟨"/site/web/js/loads/a/"⟩ ∧
      ((normalized ⟨"/site/web/css/../js/loads/a/b.js"⟩).directory / specifier).normalized =
        ⟨"/site/web/js/orders/View"⟩ := by
  have hbelow : IsBelow ⟨"/site/web/css/../js/loads/a/b.js"⟩ ⟨"/site/./web/js/"⟩
      ["loads", "a", "b.js"] := by
    unfold IsBelow
    decide +kernel
  have hne : ["loads", "a", "b.js"] ≠ [] := by decide
  obtain ⟨specifier, hspecifier, -, hreaches⟩ :=
    specifier_reaches_target hbelow hne "//orders/View"
  have hspelled : specifierFrom? (components ⟨"/site/web/css/../js/loads/a/b.js"⟩)
      (components ⟨"/site/./web/js/"⟩) "//orders/View" = some "../../orders/View" := by
    decide +kernel
  obtain rfl := Option.some.inj (hspecifier.symm.trans hspelled)
  have htarget : ((⟨"/site/./web/js/"⟩ : Path) /
      String.ofList ("//orders/View".toList.dropWhile (· == '/'))).normalized =
        ⟨"/site/web/js/orders/View"⟩ := by
    decide +kernel
  exact ⟨_, hbelow, hne, hspecifier, rfl, by decide +kernel, hreaches.trans htarget⟩

end Path

end Reclass
