import Reclass.Proofs.Handler.DottedNames
import Reclass.Proofs.Module.Conversion
import Mathlib.Data.List.Nodup

/-!
# The names that a module binds

Three sources give names to the scope of a module: the class that it declares, the parent, and the
renamings of its texts. The imports of renamings are kept apart from each other and from the other
two. Nothing keeps the class apart from its parent.
-/

namespace Reclass

namespace RenamingTable

variable (key : Renaming → String)

/-- An entry that is kept has a key that has not been seen before. -/
private theorem key_of_mem_firstBy {seen : List String} {entries : List Renaming}
    {entry : Renaming} (h : entry ∈ firstBy key seen entries) : key entry ∉ seen := by
  induction entries generalizing seen with
  | nil => simp [firstBy] at h
  | cons first rest ih =>
    rw [firstBy] at h
    split at h
    · exact ih h
    · next hseen =>
      rcases List.mem_cons.mp h with rfl | hrest
      · exact hseen
      · exact fun hmem => ih hrest (List.mem_cons_of_mem _ hmem)

/-- The entries that are kept have different keys. -/
theorem firstBy_nodup (seen : List String) (entries : List Renaming) :
    ((firstBy key seen entries).map key).Nodup := by
  induction entries generalizing seen with
  | nil => simp [firstBy]
  | cons first rest ih =>
    rw [firstBy]
    split
    · exact ih seen
    · rw [List.map_cons, List.nodup_cons]
      refine ⟨?_, ih _⟩
      intro hmem
      obtain ⟨entry, hentry, hkey⟩ := List.mem_map.mp hmem
      exact key_of_mem_firstBy key hentry (hkey ▸ List.mem_cons_self)

/-- No two of the entries to be imported have the same new name. -/
theorem imports_nodup (table : RenamingTable) (texts : List String) :
    ((table.imports texts).map Renaming.name).Nodup :=
  firstBy_nodup Renaming.name [] _

end RenamingTable

namespace ModuleTree

variable {tree : ModuleTree} {disk : Disk} {path : Path}

private theorem importLines_forall₂ {entries : List Renaming} {lines : List ImportLine}
    (h : (entries.mapM fun entry => do
      return (⟨entry.name, ← tree.importSpecifier disk path entry.path⟩ : ImportLine)) =
        .ok lines) :
    List.Forall₂ (fun line entry => line.name = entry.name ∧
      tree.importSpecifier disk path entry.path = .ok line.specifier) lines entries := by
  induction entries generalizing lines with
  | nil =>
    cases h
    exact .nil
  | cons entry rest ih =>
    rw [List.mapM_cons] at h
    obtain ⟨line, hline, h⟩ := Except.bind_eq_ok_iff.mp h
    obtain ⟨specifier, hspecifier, hline⟩ := Except.bind_eq_ok_iff.mp hline
    obtain ⟨others, hothers, h⟩ := Except.bind_eq_ok_iff.mp h
    cases hline
    cases h
    exact .cons ⟨rfl, hspecifier⟩ (ih hothers)

/-- The imports of renamings are those of the entries that are used, each by the path of its
module. -/
theorem renamingImports_forall₂ {bound : List String} {members : List Member}
    {lines : List ImportLine} (h : tree.renamingImports disk path bound members = .ok lines) :
    List.Forall₂ (fun line entry => line.name = entry.name ∧
      tree.importSpecifier disk path entry.path = .ok line.specifier) lines
      ((tree.renamings.imports (members.flatMap Member.texts)).filter (·.name ∉ bound)) :=
  importLines_forall₂ h

/-- The imports of renamings have different names, and none that the module binds anyway. -/
theorem renamingImports_names {bound : List String} {members : List Member}
    {lines : List ImportLine} (h : tree.renamingImports disk path bound members = .ok lines) :
    (lines.map ImportLine.name).Nodup ∧ ∀ name ∈ lines.map ImportLine.name, name ∉ bound := by
  have hnames : lines.map ImportLine.name =
      ((tree.renamings.imports (members.flatMap Member.texts)).filter
        (·.name ∉ bound)).map Renaming.name := by
    have hlines := (renamingImports_forall₂ h).imp fun _ _ hline => hline.1
    rw [← List.forall₂_eq_eq_eq, List.forall₂_map_left_iff, List.forall₂_map_right_iff]
    exact hlines
  rw [hnames]
  constructor
  · have hnodup := tree.renamings.imports_nodup (members.flatMap Member.texts)
    exact hnodup.sublist (List.filter_sublist.map _)
  · intro name hname
    obtain ⟨entry, hentry, rfl⟩ := List.mem_map.mp hname
    simpa using (List.mem_filter.mp hentry).2

end ModuleTree

namespace ClassModule

/-- The names that the module binds in its scope, in the order in which it is written down. -/
def boundNames (m : ClassModule) : List String :=
  m.parent.className :: (m.imports.map ImportLine.name ++ [m.identity.className])

end ClassModule

namespace Identity

/-- The class of a handler that is registered under a name: the words of the last segment joined,
and the suffix of the kind. -/
theorem ofName_eq_ok {s : String} {kind : HandlerKind} {identity : Identity}
    (h : ofName s kind = .ok identity) :
    ∃ name, DottedName.parse s = .ok name ∧
      identity.className = String.ofList (classStem name.leaf.toList) ++ kind.suffix := by
  obtain ⟨name, hname, hidentity⟩ := Except.bind_eq_ok_iff.mp h
  obtain ⟨_, _, hclass, _⟩ := DottedName.identity_eq_ok_iff.mp hidentity
  exact ⟨name, hname, hclass⟩

/-- The base classes are called like handlers with the name `abstract`. -/
theorem base_className (kind : HandlerKind) (package : String) :
    (base kind package).className = "Abstract" ++ kind.suffix := by
  cases kind <;> rfl

end Identity

/-- The class name without its suffix that a handler registered under a name gets. -/
def stemOf (s : String) : Option String :=
  (DottedName.parse s).toOption.map fun name => String.ofList (classStem name.leaf.toList)

/-- The name of the parent class without its suffix. -/
def Registration.parentStem (call : Registration) : Option String :=
  match call.parent with
  | some (name, _) => stemOf name
  | none => some "Abstract"

namespace ModuleTree

variable {tree : ModuleTree} {disk : Disk} {path : Path} {source : String}

private theorem stemOf_className {s : String} {kind : HandlerKind} {identity : Identity}
    (h : Identity.ofName s kind = .ok identity) :
    ∃ stem, stemOf s = some stem ∧ identity.className = stem ++ kind.suffix := by
  obtain ⟨name, hname, hclass⟩ := Identity.ofName_eq_ok h
  refine ⟨_, ?_, hclass⟩
  rw [stemOf, hname]
  rfl

/-- The class is called like its parent when the stems of the two names agree. -/
theorem className_eq_parent_iff {call : Registration} {result : ClassModule}
    (h : tree.classModule disk path source call = .ok result) :
    result.identity.className = result.parent.className ↔ stemOf call.name = call.parentStem := by
  obtain ⟨_, _, hidentity, hparent, _⟩ := classModule_eq_ok_iff.mp h
  obtain ⟨stem, hstem, hclass⟩ := stemOf_className hidentity
  have hparentClass : ∃ stem, call.parentStem = some stem ∧
      result.parent.className = stem ++ call.kind.suffix := by
    cases hcall : call.parent with
    | none =>
      rw [hcall] at hparent
      have hbase : Identity.base call.kind tree.basePackage = result.parent :=
        Except.ok.inj hparent
      refine ⟨"Abstract", by simp [Registration.parentStem, hcall], ?_⟩
      rw [← hbase, Identity.base_className]
    | some named =>
      rw [hcall] at hparent
      obtain ⟨stem, hstem, hclass⟩ := stemOf_className hparent
      exact ⟨stem, by simp [Registration.parentStem, hcall, hstem], hclass⟩
  obtain ⟨parentStem, hparentStem, hparentClass⟩ := hparentClass
  rw [hstem, hparentStem, hclass, hparentClass, Option.some.injEq]
  constructor
  · exact (String.append_left_inj _).mp
  · exact congrArg (· ++ _)

/-- The names of a module are different except perhaps for the class and its parent. -/
theorem boundNames_nodup_iff {call : Registration} {result : ClassModule}
    (h : tree.classModule disk path source call = .ok result) :
    result.boundNames.Nodup ↔ result.identity.className ≠ result.parent.className := by
  obtain ⟨_, _, _, _, _, himports, _⟩ := classModule_eq_ok_iff.mp h
  obtain ⟨hnodup, hbound⟩ := renamingImports_names himports
  rw [ClassModule.boundNames, List.nodup_cons, List.mem_append, List.mem_singleton]
  constructor
  · rintro ⟨hparent, _⟩ heq
    exact hparent (.inr heq.symm)
  · intro hne
    refine ⟨?_, ?_⟩
    · rintro (himport | heq)
      · exact hbound _ himport (by simp)
      · exact hne heq.symm
    · refine List.nodup_append.mpr ⟨hnodup, by simp, ?_⟩
      rintro name hname _ hclass rfl
      exact hbound name hname (by simp [List.mem_singleton.mp hclass])

/-- A converted text binds every name once exactly when the class is not called like its parent,
that is, when the registered name and the name of the parent have different stems. -/
theorem converted_names_nodup_iff {handler : ConvertedHandler}
    (h : tree.convertSource disk path source = .ok (.converted handler)) :
    ∃ call result, Registration.first? source = .ok (some call) ∧
      tree.classModule disk path source call = .ok result ∧
      handler.identity = result.identity ∧ handler.parent = result.parent ∧
      handler.text = result.text tree.style ∧
      (result.boundNames.Nodup ↔ stemOf call.name ≠ call.parentStem) := by
  obtain ⟨_, call, result, hfirst, hresult, rfl⟩ := convertSource_eq_converted_iff.mp h
  refine ⟨call, result, hfirst, hresult, rfl, rfl, rfl, ?_⟩
  rw [boundNames_nodup_iff hresult, ne_eq, ne_eq, className_eq_parent_iff hresult]

/-- A handler and its parent with different names give a module that binds two names. -/
theorem converted_names_nodup_of_two_stems :
    ∃ call result,
      Registration.first? "NGS.createLoad('a.x', \x7b\x7d, 'b.y')" = .ok (some call) ∧
        classModule { root := ⟨"/r"⟩ } ⟨[], []⟩ ⟨"/r/a/b.js"⟩
          "NGS.createLoad('a.x', \x7b\x7d, 'b.y')" call = .ok result ∧
        result.boundNames.Nodup := by
  have hconverted : convertSource { root := ⟨"/r"⟩ } ⟨[], []⟩ ⟨"/r/a/b.js"⟩
      "NGS.createLoad('a.x', \x7b\x7d, 'b.y')" = .ok (.converted ⟨.load, ⟨"a/XLoad", "XLoad"⟩,
        ⟨"b/YLoad", "YLoad"⟩, "import YLoad from '../b/YLoad.js';\n\n" ++
          "export default class XLoad extends YLoad \x7b\n\x7d\n"⟩) := by
    decide +kernel
  obtain ⟨call, result, hfirst, hresult, _, _, _, hnodup⟩ := converted_names_nodup_iff hconverted
  refine ⟨call, result, hfirst, hresult, hnodup.mpr ?_⟩
  have hstems : (Registration.first? "NGS.createLoad('a.x', \x7b\x7d, 'b.y')").map
      (·.map fun call => decide (stemOf call.name = call.parentStem)) = .ok (some false) := by
    decide +kernel
  rw [hfirst] at hstems
  simpa [Except.map] using hstems

/-- A handler whose parent has the same last segment becomes a class that extends itself. -/
theorem converted_class_extends_itself :
    ∃ handler call result,
      convertSource { root := ⟨"/r"⟩ } ⟨[], []⟩ ⟨"/r/a/b.js"⟩
          "NGS.createLoad('a.x', \x7b\x7d, 'b.x')" = .ok (.converted handler) ∧
        Registration.first? "NGS.createLoad('a.x', \x7b\x7d, 'b.x')" = .ok (some call) ∧
        classModule { root := ⟨"/r"⟩ } ⟨[], []⟩ ⟨"/r/a/b.js"⟩
          "NGS.createLoad('a.x', \x7b\x7d, 'b.x')" call = .ok result ∧
        handler.text = "import XLoad from '../b/XLoad.js';\n\n" ++
          "export default class XLoad extends XLoad \x7b\n\x7d\n" ∧
        ¬result.boundNames.Nodup := by
  have hconverted : convertSource { root := ⟨"/r"⟩ } ⟨[], []⟩ ⟨"/r/a/b.js"⟩
      "NGS.createLoad('a.x', \x7b\x7d, 'b.x')" = .ok (.converted ⟨.load, ⟨"a/XLoad", "XLoad"⟩,
        ⟨"b/XLoad", "XLoad"⟩, "import XLoad from '../b/XLoad.js';\n\n" ++
          "export default class XLoad extends XLoad \x7b\n\x7d\n"⟩) := by
    decide +kernel
  obtain ⟨_, call, result, hfirst, hresult, hhandler⟩ :=
    convertSource_eq_converted_iff.mp hconverted
  refine ⟨_, call, result, hconverted, hfirst, hresult, rfl, ?_⟩
  rw [boundNames_nodup_iff hresult, not_not]
  have hidentity := congrArg (fun handler => handler.identity.className) hhandler
  have hparent := congrArg (fun handler => handler.parent.className) hhandler
  exact hidentity.symm.trans hparent

end ModuleTree

end Reclass
