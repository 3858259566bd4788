import Reclass.Proofs.Module.ClassCalls
import Reclass.Proofs.Module.Names
import Reclass.Proofs.Renaming.Entries

/-!
# Which renamings are imported

Renaming a text uses some entries of the table, and the entries that the texts of the members use
are imported, in table order. The whole text of a method is one of these texts, its key included,
while the class repeats its parameters and its body only. An entry that is used by nothing but the
key is imported as well, and takes the place of a later one with the same new name.
-/

namespace Reclass

namespace RenamingTable

/-- That a module imports the entry at an index of a table: it is in use, the module needs it and
does not bind its new name anyway, and no entry before it gives the module that name. -/
structure Imported (entries : List Renaming) (Needed : Renaming → Prop) (bound : List String)
    (i : Nat) (entry : Renaming) : Prop where
  inUse : InUse entries i entry
  needed : Needed entry
  unbound : entry.name ∉ bound
  first : ∀ j < i, ∀ other, InUse entries j other → Needed other → other.name ≠ entry.name

/-- That an old name is renamed in one of some texts. -/
def UsedIn (table : RenamingTable) (texts : List String) (entry : Renaming) : Prop :=
  ∃ text ∈ texts, table.uses entry text = true

/-- The entries that some texts use are imported, those with a name that is bound anyway left
out. -/
theorem imports_inOrder (table : RenamingTable) (texts bound : List String) :
    InOrder (Imported table.entries (table.UsedIn texts) bound)
      ((table.imports texts).filter (·.name ∉ bound)) := by
  have hused := table.usable_inOrder.filter fun entry => texts.any (table.uses entry)
  refine ((hused.firstBy Renaming.name).filter (·.name ∉ bound)).congr fun i entry => ?_
  have hany (entry : Renaming) :
      texts.any (table.uses entry) = true ↔ table.UsedIn texts entry := by
    rw [List.any_eq_true, UsedIn]
  simp only [hany, decide_eq_true_eq]
  constructor
  · rintro ⟨⟨⟨hinUse, hneeded⟩, hfirst⟩, hunbound⟩
    exact ⟨hinUse, hneeded, hunbound, fun j hj other hother hused => hfirst j hj other
      ⟨hother, hused⟩⟩
  · rintro ⟨hinUse, hneeded, hunbound, hfirst⟩
    exact ⟨⟨⟨hinUse, hneeded⟩, fun j hj other hother => hfirst j hj other hother.1 hother.2⟩,
      hunbound⟩

/-- Entries that are imported for one need are those for a narrower one exactly when each of them
has the narrower one. -/
theorem Imported.inOrder_iff {entries imported : List Renaming} {bound : List String}
    {Needed Needed' : Renaming → Prop} (hnarrower : ∀ entry, Needed' entry → Needed entry)
    (h : InOrder (Imported entries Needed bound) imported) :
    InOrder (Imported entries Needed' bound) imported ↔ ∀ entry ∈ imported, Needed' entry := by
  constructor
  · intro h' entry hentry
    obtain ⟨i, hi⟩ := h'.mem_iff.mp hentry
    exact hi.needed
  · intro hneeded
    refine h.congr fun i entry => ?_
    constructor
    · intro hi
      exact ⟨hi.inUse, hneeded entry (h.mem_iff.mpr ⟨i, hi⟩), hi.unbound,
        fun j hj other hother hused => hi.first j hj other hother (hnarrower other hused)⟩
    · intro hi
      refine ⟨hi.inUse, hnarrower entry hi.needed, hi.unbound, fun j => ?_⟩
      -- Of the entries before that give the same name, the first one would be imported itself.
      induction j using Nat.strongRecOn with
      | ind j ih =>
        intro hj other hother hused hname
        have hfirst : Imported entries Needed bound j other :=
          ⟨hother, hused, hname ▸ hi.unbound, fun k hk earlier hearlier hused' hname' =>
            ih k hk (by omega) earlier hearlier hused' (hname'.trans hname)⟩
        have hother' := hneeded other (h.mem_iff.mpr ⟨j, hfirst⟩)
        exact hi.first j hj other hother hother' hname

end RenamingTable

/-- What the class repeats of a member is among the texts that are renamed. -/
theorem Member.emitted_subset_texts (m : Member) : m.emitted ⊆ m.texts := by
  cases hmethod : m.method <;> simp [emitted, texts, hmethod]

namespace ModuleTree

variable {tree : ModuleTree} {disk : Disk} {path : Path} {source : String}

/-- The import lines of a converted text, behind that of the parent, are those of the entries that
the texts of its members use. They are those of the entries that the texts use which the class
repeats exactly when each entry that is imported is used in one of these. -/
theorem converted_imports_needed_iff {handler : ConvertedHandler}
    (h : tree.convertSource disk path source = .ok (.converted handler)) :
    ∃ call members result imported,
      Registration.first? source = .ok (some call) ∧
      Member.ofBody call.body = .ok members ∧
      tree.classModule disk path source call = .ok result ∧
      result.members = members.map (Member.mapText tree.renamings.rename) ∧
      handler.text =
        ImportLine.text tree.style ⟨handler.parent.className, result.parentSpecifier⟩ ++
          String.join (result.imports.map (ImportLine.text tree.style)) ++ "\n" ++
          result.classText tree.style ∧
      List.Forall₂ (fun line entry => line.name = entry.name ∧
        tree.importSpecifier disk path entry.path = .ok line.specifier) result.imports imported ∧
      let bound := [handler.parent.className, handler.identity.className]
      RenamingTable.InOrder (RenamingTable.Imported tree.renamings.entries
        (tree.renamings.UsedIn (members.flatMap Member.texts)) bound) imported ∧
      (RenamingTable.InOrder (RenamingTable.Imported tree.renamings.entries
          (tree.renamings.UsedIn (members.flatMap Member.emitted)) bound) imported ↔
        ∀ entry ∈ imported, tree.renamings.UsedIn (members.flatMap Member.emitted) entry) := by
  obtain ⟨_, call, result, hfirst, hresult, rfl⟩ := convertSource_eq_converted_iff.mp h
  obtain ⟨members, hmembers, _, _, _, himports, hrenamed⟩ := classModule_eq_ok_iff.mp hresult
  refine ⟨call, members, result, _, hfirst, hmembers, hresult, hrenamed, ?_,
    renamingImports_forall₂ himports, tree.renamings.imports_inOrder _ _, ?_⟩
  · rw [ClassModule.text, ClassModule.importText]
    simp
  · refine RenamingTable.Imported.inOrder_iff ?_ (tree.renamings.imports_inOrder _ _)
    rintro entry ⟨text, htext, hused⟩
    obtain ⟨m, hm, htext⟩ := List.mem_flatMap.mp htext
    exact ⟨text, List.mem_flatMap.mpr ⟨m, hm, m.emitted_subset_texts htext⟩, hused⟩

/-- The texts that the class repeats of the members of a source. -/
private theorem flatMap_emitted_eq {call : Registration} {members : List Member}
    {texts : List String} (hfirst : Registration.first? source = .ok (some call))
    (hmembers : Member.ofBody call.body = .ok members)
    (h : (Registration.first? source).toOption.join.bind (fun call =>
      (Member.ofBody call.body).toOption.map (·.flatMap Member.emitted)) = some texts) :
    members.flatMap Member.emitted = texts := by
  rw [hfirst] at h
  simpa [Except.toOption, hmembers] using h

/-- A renaming that is used in a body is imported, and needed. -/
theorem converted_imports_needed_by_body :
    ∃ handler call members,
      convertSource
          { root := ⟨"/r"⟩, renamings := ⟨[⟨"NGS.Dialog", "Dialog", "ngs/util/Dialog"⟩]⟩ }
          ⟨[], []⟩ ⟨"/r/a/b.js"⟩
          "NGS.createLoad('a.x', \x7b f() \x7b NGS.Dialog.open(); \x7d \x7d)" =
        .ok (.converted handler) ∧
      handler.text = "import AbstractLoad from '../ngs/AbstractLoad.js';\n" ++
        "import Dialog from '../ngs/util/Dialog.js';\n\n" ++
        "export default class XLoad extends AbstractLoad \x7b\n" ++
        "  f() \x7b Dialog.open(); \x7d\n\x7d\n" ∧
      Registration.first?
          "NGS.createLoad('a.x', \x7b f() \x7b NGS.Dialog.open(); \x7d \x7d)" = .ok (some call) ∧
      Member.ofBody call.body = .ok members ∧
      ∃ imported, RenamingTable.InOrder (RenamingTable.Imported
        [⟨"NGS.Dialog", "Dialog", "ngs/util/Dialog"⟩]
        (RenamingTable.UsedIn ⟨[⟨"NGS.Dialog", "Dialog", "ngs/util/Dialog"⟩]⟩
          (members.flatMap Member.emitted)) ["AbstractLoad", "XLoad"]) imported := by
  have hconverted : convertSource
      { root := ⟨"/r"⟩, renamings := ⟨[⟨"NGS.Dialog", "Dialog", "ngs/util/Dialog"⟩]⟩ }
      ⟨[], []⟩ ⟨"/r/a/b.js"⟩ "NGS.createLoad('a.x', \x7b f() \x7b NGS.Dialog.open(); \x7d \x7d)" =
        .ok (.converted ⟨.load, ⟨"a/XLoad", "XLoad"⟩, ⟨"ngs/AbstractLoad", "AbstractLoad"⟩,
          "import AbstractLoad from '../ngs/AbstractLoad.js';\n" ++
          "import Dialog from '../ngs/util/Dialog.js';\n\n" ++
          "export default class XLoad extends AbstractLoad \x7b\n" ++
          "  f() \x7b Dialog.open(); \x7d\n\x7d\n"⟩) := by
    decide +kernel
  obtain ⟨call, members, _, imported, hfirst, hmembers, _, _, _, _, himported, hneeded⟩ :=
    converted_imports_needed_iff hconverted
  refine ⟨_, call, members, hconverted, rfl, hfirst, hmembers, imported, hneeded.mpr ?_⟩
  have hemitted : members.flatMap Member.emitted = ["()", "\x7b NGS.Dialog.open(); \x7d"] :=
    flatMap_emitted_eq hfirst hmembers (by decide +kernel)
  intro entry hentry
  obtain ⟨i, hi⟩ := himported.mem_iff.mp hentry
  obtain rfl := List.mem_singleton.mp (List.mem_of_getElem? hi.inUse.index)
  exact ⟨"\x7b NGS.Dialog.open(); \x7d", by simp [hemitted], by decide +kernel⟩

/-- A key that is the old name of a renaming has it imported, though nothing that the class repeats
uses it, and the renaming that a body uses is not imported. -/
theorem import_of_renaming_in_key :
    ∃ handler call members,
      convertSource
          { root := ⟨"/r"⟩, renamings := ⟨[⟨"load", "L", "p/one"⟩, ⟨"foo", "L", "p/two"⟩]⟩ }
          ⟨[], []⟩ ⟨"/r/a/b.js"⟩ "NGS.createLoad('a.x', \x7b load() \x7b foo(); \x7d \x7d)" =
        .ok (.converted handler) ∧
      handler.text = "import AbstractLoad from '../ngs/AbstractLoad.js';\n" ++
        "import L from '../p/one.js';\n\n" ++
        "export default class XLoad extends AbstractLoad \x7b\n" ++
        "  load() \x7b L(); \x7d\n\x7d\n" ∧
      Registration.first? "NGS.createLoad('a.x', \x7b load() \x7b foo(); \x7d \x7d)" =
        .ok (some call) ∧
      Member.ofBody call.body = .ok members ∧
      ¬RenamingTable.UsedIn ⟨[⟨"load", "L", "p/one"⟩, ⟨"foo", "L", "p/two"⟩]⟩
        (members.flatMap Member.emitted) ⟨"load", "L", "p/one"⟩ ∧
      RenamingTable.Imported [⟨"load", "L", "p/one"⟩, ⟨"foo", "L", "p/two"⟩]
        (RenamingTable.UsedIn ⟨[⟨"load", "L", "p/one"⟩, ⟨"foo", "L", "p/two"⟩]⟩
          (members.flatMap Member.emitted))
        ["AbstractLoad", "XLoad"] 1 ⟨"foo", "L", "p/two"⟩ := by
  have hconverted : convertSource
      { root := ⟨"/r"⟩, renamings := ⟨[⟨"load", "L", "p/one"⟩, ⟨"foo", "L", "p/two"⟩]⟩ }
      ⟨[], []⟩ ⟨"/r/a/b.js"⟩ "NGS.createLoad('a.x', \x7b load() \x7b foo(); \x7d \x7d)" =
        .ok (.converted ⟨.load, ⟨"a/XLoad", "XLoad"⟩, ⟨"ngs/AbstractLoad", "AbstractLoad"⟩,
          "import AbstractLoad from '../ngs/AbstractLoad.js';\n" ++
          "import L from '../p/one.js';\n\n" ++
          "export default class XLoad extends AbstractLoad \x7b\n" ++
          "  load() \x7b L(); \x7d\n\x7d\n"⟩) := by
    decide +kernel
  obtain ⟨_, call, result, hfirst, hresult, _⟩ := convertSource_eq_converted_iff.mp hconverted
  obtain ⟨members, hmembers, _⟩ := classModule_eq_ok_iff.mp hresult
  have hemitted : members.flatMap Member.emitted = ["()", "\x7b foo(); \x7d"] :=
    flatMap_emitted_eq hfirst hmembers (by decide +kernel)
  have hload : ¬RenamingTable.UsedIn ⟨[⟨"load", "L", "p/one"⟩, ⟨"foo", "L", "p/two"⟩]⟩
      (members.flatMap Member.emitted) ⟨"load", "L", "p/one"⟩ := by
    rw [hemitted]
    unfold RenamingTable.UsedIn
    decide +kernel
  refine ⟨_, call, members, hconverted, rfl, hfirst, hmembers, hload, ?_⟩
  have hbefore {j : Nat} {other : Renaming} (hj : j < 1)
      (hother : [(⟨"load", "L", "p/one"⟩ : Renaming), ⟨"foo", "L", "p/two"⟩][j]? = some other) :
      other = ⟨"load", "L", "p/one"⟩ := by
    obtain rfl : j = 0 := by omega
    exact (Option.some.inj hother).symm
  exact {
    inUse := ⟨rfl, by decide, fun j hj other hother => by rw [hbefore hj hother]; decide⟩
    needed := ⟨"\x7b foo(); \x7d", by simp [hemitted], by decide +kernel⟩
    unbound := by decide
    first := fun j hj other hother hused => absurd (hbefore hj hother.index ▸ hused) hload }

end ModuleTree

end Reclass
