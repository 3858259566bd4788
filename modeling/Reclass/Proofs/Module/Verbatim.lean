import Reclass.Proofs.Module.ClassTokens
import Reclass.Proofs.Module.Names
import Reclass.Proofs.Segment

/-!
# Converted classes are verbatim

What a converted file holds is, token by token, what the registration held: values, parameter lists
and bodies keep the tokens that they have in the source, and around them there is nothing but the
words and signs of a class.
-/

namespace Reclass

open Script

namespace RenamingTable

/-- Without entries that can be used, a text stays as it is. -/
theorem rename_of_usable_eq_nil {table : RenamingTable} (h : table.usable = []) (text : String) :
    table.rename text = text := by
  have hpieces (s : List Char) : (pieces [] 0 s).flatMap RenamingPiece.text = s := by
    induction s with
    | nil => rfl
    | cons c s ih =>
      have hnone : longest? [] (c :: s) = none := rfl
      rw [pieces, hnone, List.flatMap_cons, ih]
      rfl
  rw [rename, h, hpieces, String.ofList_toList]

end RenamingTable

/-- A change that leaves texts as they are leaves members as they are. -/
theorem Member.mapText_of_forall {f : String → String} (h : ∀ text, f text = text) (m : Member) :
    m.mapText f = m := by
  obtain ⟨key, method, text, offset⟩ := m
  cases method <;> simp [mapText, h]

namespace Identity

/-- The class of a registered name is a name. -/
theorem isName_of_ofName {s : String} {kind : HandlerKind} {identity : Identity}
    (h : ofName s kind = .ok identity) : isName identity.className.toList = true := by
  obtain ⟨_, _, hidentity⟩ := Except.bind_eq_ok_iff.mp h
  exact (DottedName.identity_eq_ok_iff.mp hidentity).1

/-- The class of a parent is a name. -/
theorem isName_of_parent {explicit : Option String} {kind : HandlerKind} {package : String}
    {identity : Identity} (h : parent explicit kind package = .ok identity) :
    isName identity.className.toList = true := by
  cases explicit with
  | some name => exact isName_of_ofName h
  | none =>
    cases h
    change isName kind.baseClass.toList = true
    cases kind <;> decide

end Identity

namespace ModuleTree

variable {tree : ModuleTree} {disk : Disk} {path : Path} {source : String}

/-- That a member is read from a run of the tokens inside a literal, and which of these tokens are
its contents. -/
def StandsIn (body : List Token) (m : Member) (contents : Contents) : Prop :=
  ∃ first others, first :: others <:+: body ∧ Member.read first others = .ok m ∧
    Member.WrittenAs (first :: others) m contents

/-- A member of a registration, with the tokens that it has in the source. -/
theorem exists_contents_of_mem {call : Registration} {members : List Member} {m : Member}
    (hfirst : Registration.first? source = .ok (some call))
    (hmembers : Member.ofBody call.body = .ok members) (hm : m ∈ members) :
    ∃ contents, StandsIn call.body m contents ∧ m.ReadsAs contents.fragments ∧ m.key.Readable := by
  obtain ⟨tokens, htokens, hbody⟩ := Registration.body_isInfix hfirst
  obtain ⟨first, others, contents, hsegment, hread, hwritten⟩ :=
    Member.writtenAs_of_mem_ofBody hmembers hm
  exact ⟨contents, ⟨first, others, hsegment, hread, hwritten⟩,
    readsAs_of_writtenAs htokens (hsegment.trans hbody) hwritten⟩

/-- Without renamings the members of the module are those of the registration. -/
theorem members_eq_of_usable_eq_nil {call : Registration} {result : ClassModule}
    (h : tree.classModule disk path source call = .ok result)
    (hrenamings : tree.renamings.usable = []) :
    Member.ofBody call.body = .ok result.members := by
  obtain ⟨members, hmembers, _, _, _, _, hresult⟩ := classModule_eq_ok_iff.mp h
  have hsame : members.map (Member.mapText tree.renamings.rename) = members := by
    have hmap := Member.mapText_of_forall (RenamingTable.rename_of_usable_eq_nil hrenamings)
    exact List.map_id'' hmap members
  rw [hresult, hsame]
  exact hmembers

/-- The names of a class module are names. -/
theorem isName_of_classModule {call : Registration} {result : ClassModule}
    (h : tree.classModule disk path source call = .ok result) :
    isName result.identity.className.toList = true ∧
      isName result.parent.className.toList = true := by
  obtain ⟨_, _, hidentity, hparent, _⟩ := classModule_eq_ok_iff.mp h
  exact ⟨Identity.isName_of_ofName hidentity, Identity.isName_of_parent hparent⟩

private theorem isSpace_of_blanks {indent : String}
    (h : ∀ c ∈ indent.toList, c = ' ' ∨ c = '\t') : indent.toList.all isSpace = true := by
  rw [List.all_eq_true]
  intro c hc
  rcases h c hc with rfl | rfl <;> decide

/-- The text of a class starts with the word `export`. -/
theorem lead_classText (style : ModuleStyle) (m : ClassModule) :
    lead (m.classText style).toList = ([], (m.classText style).toList) := by
  have hhead : ∃ s, (m.classText style).toList = 'e' :: s := by
    unfold ClassModule.classText
    simp only [String.toList_append, List.append_assoc]
    exact ⟨_, rfl⟩
  obtain ⟨s, hs⟩ := hhead
  rw [hs]
  exact lead_cons (by decide) (by decide)

/-- Without renamings, the class in a converted text is scanned without an error, and its tokens are
exactly those of a class with the given name and parent: each value, parameter list and body has
the tokens that it has in the source. -/
theorem converted_class_tokens {handler : ConvertedHandler}
    (h : tree.convertSource disk path source = .ok (.converted handler))
    (hrenamings : tree.renamings.usable = [])
    (hindent : ∀ c ∈ tree.style.indent.toList, c = ' ' ∨ c = '\t') :
    ∃ call result contents tokens,
      Registration.first? source = .ok (some call) ∧
      tree.classModule disk path source call = .ok result ∧
      handler.text =
        result.importText tree.style ++ "\n" ++ result.classText tree.style ∧
      Member.ofBody call.body = .ok result.members ∧
      List.Forall₂ (StandsIn call.body) result.members contents ∧
      (∀ text ∈ result.identity.className :: result.parent.className ::
          result.members.flatMap (fun m => [m.key.fieldTarget, m.key.methodName]),
        lexemes? true text.toList = some (ownLexemes text)) ∧
      tokenize (result.classText tree.style) = .ok tokens ∧
      tokens.map Token.lexeme =
        ClassModule.classLexemes result.identity.className result.parent.className
          (result.members.zip (contents.map Contents.fragments)) := by
  obtain ⟨_, call, result, hfirst, hresult, rfl⟩ := convertSource_eq_converted_iff.mp h
  have hmembers := members_eq_of_usable_eq_nil hresult hrenamings
  obtain ⟨hname, hparent⟩ := isName_of_classModule hresult
  obtain ⟨contents, hcontents⟩ := List.exists_forall₂_iff.mpr fun m hm =>
    exists_contents_of_mem hfirst hmembers hm
  have hentries : List.Forall₂ (fun m fragments => m.ReadsAs fragments ∧ m.key.Readable)
      result.members (contents.map Contents.fragments) :=
    List.forall₂_map_right_iff.mpr (hcontents.imp fun _ _ hentry => hentry.2)
  obtain ⟨hlength, hzip⟩ := List.forall₂_iff_zip.mp hentries
  have hreads := ClassModule.readsAnywhere_classText (isSpace_of_blanks hindent)
    (List.map_fst_zip (Nat.le_of_eq hlength)) (fun entry hentry => hzip hentry) hname hparent
  obtain ⟨tokens, htokens, hlexemes⟩ :=
    tokenize_of_lexemes? (lead_classText tree.style result) (hreads true).lexemes?
  refine ⟨call, result, contents, tokens, hfirst, hresult, rfl, hmembers,
    hcontents.imp fun _ _ hentry => hentry.1, ?_, htokens, hlexemes⟩
  intro text htext
  simp only [List.mem_cons, List.mem_flatMap, List.not_mem_nil, or_false] at htext
  rcases htext with rfl | rfl | ⟨m, hm, htext⟩
  · exact ((readsAnywhere_name hname).1 true).lexemes?
  · exact ((readsAnywhere_name hparent).1 true).lexemes?
  · obtain ⟨_, _, _, hkey⟩ := exists_contents_of_mem hfirst hmembers hm
    rcases htext with rfl | rfl
    · exact (hkey.fieldTarget.1 true).lexemes?
    · exact (hkey.methodName.1 true).lexemes?

/-- A value and an arrow, token by token. -/
theorem converted_class_tokens_of_value_and_arrow :
    ∃ call result contents tokens,
      Registration.first? "NGS.createLoad('a.x', \x7b a: /b/g, f: c => c \x7d)" = .ok (some call) ∧
      classModule { root := ⟨"/r"⟩ } ⟨[], []⟩ ⟨"/r/a/b.js"⟩
        "NGS.createLoad('a.x', \x7b a: /b/g, f: c => c \x7d)" call = .ok result ∧
      List.Forall₂ (StandsIn call.body) result.members contents ∧
      tokenize (result.classText {}) = .ok tokens ∧
      tokens.map Token.lexeme =
        ClassModule.classLexemes result.identity.className result.parent.className
          (result.members.zip (contents.map Contents.fragments)) := by
  have hconverted : convertSource { root := ⟨"/r"⟩ } ⟨[], []⟩ ⟨"/r/a/b.js"⟩
      "NGS.createLoad('a.x', \x7b a: /b/g, f: c => c \x7d)" = .ok (.converted ⟨.load,
        ⟨"a/XLoad", "XLoad"⟩, ⟨"ngs/AbstractLoad", "AbstractLoad"⟩,
        "import AbstractLoad from '../ngs/AbstractLoad.js';\n\n" ++
          "export default class XLoad extends AbstractLoad \x7b\n  constructor() \x7b\n" ++
          "    super();\n    this.a = /b/g;\n  \x7d\n\n  f(c) \x7b return c; \x7d\n\x7d\n"⟩) := by
    decide +kernel
  obtain ⟨call, result, contents, tokens, hfirst, hresult, _, _, hcontents, _, htokens,
    hlexemes⟩ := converted_class_tokens hconverted (by decide) (by simp)
  exact ⟨call, result, contents, tokens, hfirst, hresult, hcontents, htokens, hlexemes⟩

end ModuleTree

end Reclass
