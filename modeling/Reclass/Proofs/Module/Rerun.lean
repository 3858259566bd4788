import Reclass.Proofs.Module.ClassCalls
import Reclass.Proofs.Module.Verbatim

/-!
# Converting a converted file again

The text of a class module holds the start of a registration exactly where one of its parts does: in
an import statement, a value, a parameter list or a body. Since the first registration of a text is
taken as a whole, one that is made inside of a method stays in the text of that method, and
converting the text again finds it.
-/

namespace Reclass

open Script

/-- That a text consists of whole tokens, whatever is put around it. -/
def IsClosed (text : String) : Prop := ReadsAnywhere text.toList (ownLexemes text)

/-- That the parts of a member consist of whole tokens. -/
def Member.IsClosed (m : Member) : Prop := ∃ fragments, m.ReadsAs fragments

/-! ### Import statements -/

namespace ImportLine

variable {style : ModuleStyle} {line : ImportLine}

/-- An import without the end of its line. -/
def statement (style : ModuleStyle) (line : ImportLine) : String :=
  "import " ++ line.name ++ " from '" ++ line.specifier ++ style.extension ++ "';"

/-- An import line is its statement and the end of the line. -/
theorem text_eq : line.text style = line.statement style ++ "\n" := by
  have hend : "';\n" = "';" ++ "\n" := by decide
  rw [text, statement, hend, ← String.append_assoc]

/-- An import statement starts with the word `import`. -/
theorem head?_ownLexemes (h : IsClosed (line.statement style)) :
    (ownLexemes (line.statement style)).head? = some (word "import") := by
  have htext : ∃ s, (line.statement style).toList = "import".toList ++ ' ' :: s := by
    have hstart : "import ".toList = "import".toList ++ [' '] := by decide
    unfold statement
    simp only [String.toList_append, hstart, List.append_assoc, List.cons_append]
    exact ⟨_, rfl⟩
  obtain ⟨s, hs⟩ := htext
  have hblank : ∀ c ∈ (' ' :: s).head?, continuesName c = false :=
    forall_mem_head?_cons.mpr (by decide)
  have htokens := (h true).lexemes?
  rw [hs, lexemes?_word (by decide) hblank] at htokens
  obtain ⟨others, _, hothers⟩ := Option.map_eq_some_iff.mp htokens
  rw [← hothers]
  rfl

/-- An import of a name by a path without quotes, backslashes and line feeds consists of whole
tokens, and starts no registration. -/
theorem isClosed_statement (hname : isName line.name.toList = true)
    (hplain : (line.specifier ++ style.extension).toList.all isPlain = true) :
    IsClosed (line.statement style) ∧ ¬HoldsCall (ownLexemes (line.statement style)) := by
  obtain ⟨hnameReads, hnameKinds⟩ := readsAnywhere_name hname
  have hend : ReadsAnywhere [';'] [sign ';'] := readsAnywhere_nil.mark (by decide)
  have hfrom := (((readsAnywhere_quoted hplain).append hend rfl).blank (c := ' ')
    (by decide)).word (s := "from") (by decide) rfl
  have himport := ((hnameReads.append (hfrom.blank (c := ' ') (by decide)) rfl).blank
    (c := ' ') (by decide)).word (s := "import") (by decide) rfl
  have hreads : ReadsAnywhere (line.statement style).toList (word "import" ::
      (ownLexemes line.name ++ (word "from" :: ([⟨.str,
        '\'' :: ((line.specifier ++ style.extension).toList ++ ['\''])⟩] ++ [sign ';'])))) := by
    simpa [statement] using himport
  refine ⟨hreads.own, ?_⟩
  rw [ownLexemes_eq hreads]
  refine not_holdsCall_of_no_point fun hmem => ?_
  simp only [List.mem_cons, List.mem_append, List.not_mem_nil, or_false] at hmem
  rcases hmem with h | h | h | h | h
  · exact absurd h (by decide)
  · exact hnameKinds _ h rfl
  · exact absurd h (by decide)
  · exact absurd (congrArg Lexeme.kind h) (by simp [sign])
  · exact absurd h (by decide)

end ImportLine

namespace ClassModule

variable {style : ModuleStyle}

/-- The imports, that of the parent first. -/
def importLines (m : ClassModule) : List ImportLine :=
  ⟨m.parent.className, m.parentSpecifier⟩ :: m.imports

/-- The parts that a module is put together from: its import statements, and the texts that it
repeats from its members. -/
def parts (style : ModuleStyle) (m : ClassModule) : List String :=
  m.importLines.map (ImportLine.statement style) ++ m.members.flatMap Member.emitted

/-- Import statements before a text. -/
private theorem readsAnywhere_importLines {lines : List ImportLine} {text : List Char}
    {tokens : List Lexeme} (hlines : ∀ line ∈ lines, IsClosed (line.statement style))
    (htext : ReadsAnywhere text tokens) :
    ReadsAnywhere ((String.join (lines.map (ImportLine.text style))).toList ++ text)
      ((lines.flatMap fun line => ownLexemes (line.statement style)) ++ tokens) := by
  induction lines with
  | nil => simpa using htext
  | cons line lines ih =>
    have hrest := ih fun line hline => hlines line (List.mem_cons_of_mem _ hline)
    have hline : ReadsAnywhere (line.statement style).toList
        (ownLexemes (line.statement style)) := hlines line List.mem_cons_self
    have hcons := hline.append (hrest.blank (c := '\n') (by decide)) rfl
    simpa [ImportLine.text_eq] using hcons

/-- Import statements before tokens that start with one that belongs to no start of a
registration. -/
private theorem holdsCall_importLines {lines : List ImportLine} {tokens : List Lexeme}
    {token : Lexeme} (hlines : ∀ line ∈ lines, IsClosed (line.statement style))
    (hhead : tokens.head? = some token) (htoken : IsApart token) :
    HoldsCall ((lines.flatMap fun line => ownLexemes (line.statement style)) ++ tokens) ↔
      (∃ line ∈ lines, HoldsCall (ownLexemes (line.statement style))) ∨ HoldsCall tokens := by
  have himport : IsApart (word "import") := by
    intro kind
    cases kind <;> decide
  induction lines with
  | nil => simp
  | cons line lines ih =>
    have hrest : ∀ line ∈ lines, IsClosed (line.statement style) := fun line hline =>
      hlines line (List.mem_cons_of_mem _ hline)
    rw [List.flatMap_cons, List.append_assoc, List.exists_mem_cons_iff, or_assoc]
    refine Iff.trans ?_ (or_congr_right (ih hrest))
    cases lines with
    | nil => exact holdsCall_append_of_head hhead htoken
    | cons next lines =>
      refine holdsCall_append_of_head ?_ himport
      have hnext := ImportLine.head?_ownLexemes (hrest next List.mem_cons_self)
      obtain ⟨others, hothers⟩ := List.head?_eq_some_iff.mp hnext
      rw [List.flatMap_cons, hothers]
      rfl

/-- The text of a module starts with the word `import`. -/
private theorem lead_text (m : ClassModule) :
    lead (m.text style).toList = ([], (m.text style).toList) := by
  have hhead : ∃ s, (m.text style).toList = 'i' :: s := by
    unfold text importText
    simp only [List.map_cons, String.join_cons, ImportLine.text, String.toList_append,
      List.append_assoc]
    exact ⟨_, rfl⟩
  obtain ⟨s, hs⟩ := hhead
  rw [hs]
  exact lead_cons (by decide) (by decide)

/-- The tokens of a module are those of its import statements and those of its class. -/
theorem exists_tokens_text {m : ClassModule} {entries : List (Member × Fragments)}
    (hindent : style.indent.toList.all isSpace = true)
    (hlines : ∀ line ∈ m.importLines, IsClosed (line.statement style))
    (hmembers : entries.map Prod.fst = m.members)
    (hentries : ∀ entry ∈ entries, entry.1.ReadsAs entry.2 ∧ entry.1.key.Readable)
    (hname : isName m.identity.className.toList = true)
    (hparent : isName m.parent.className.toList = true) :
    ∃ tokens, tokenize (m.text style) = .ok tokens ∧
      tokens.map Token.lexeme =
        (m.importLines.flatMap fun line => ownLexemes (line.statement style)) ++
          classLexemes m.identity.className m.parent.className entries := by
  have hclass := readsAnywhere_classText hindent hmembers hentries hname hparent
  have hreads := readsAnywhere_importLines hlines (hclass.blank (c := '\n') (by decide))
  have htext : (m.text style).toList =
      (String.join (m.importLines.map (ImportLine.text style))).toList ++
        '\n' :: (m.classText style).toList := by
    rw [text, String.toList_append, String.toList_append, List.append_assoc]
    rfl
  rw [← htext] at hreads
  exact tokenize_of_lexemes? (lead_text m) (hreads true).lexemes?

/-- The text of a module registers a handler exactly when one of its parts holds the start of a
registration. -/
theorem first?_text_eq_none_iff {m : ClassModule} {entries : List (Member × Fragments)}
    (hindent : style.indent.toList.all isSpace = true)
    (hlines : ∀ line ∈ m.importLines, IsClosed (line.statement style))
    (hmembers : entries.map Prod.fst = m.members)
    (hentries : ∀ entry ∈ entries, entry.1.ReadsAs entry.2 ∧ entry.1.key.Readable)
    (hname : isName m.identity.className.toList = true)
    (hparent : isName m.parent.className.toList = true) :
    Registration.first? (m.text style) = .ok none ↔
      ∀ part ∈ m.parts style, ¬HoldsCall (ownLexemes part) := by
  obtain ⟨tokens, htokens, hlexemes⟩ :=
    exists_tokens_text hindent hlines hmembers hentries hname hparent
  have hexport : IsApart (word "export") := by
    intro kind
    cases kind <;> decide
  have hcalls : HoldsCall (tokens.map Token.lexeme) ↔
      ∃ part ∈ m.parts style, HoldsCall (ownLexemes part) := by
    rw [hlexemes, holdsCall_importLines hlines rfl hexport,
      holdsCall_classLexemes hname hparent hentries, exists_holdCall_iff hmembers hentries]
    simp [parts, or_and_right, exists_or]
  rw [Registration.first?, Registration.find?_eq_none_iff]
  constructor
  · rintro ⟨tokens', htokens', hnone⟩ part hpart hcall
    rw [htokens] at htokens'
    cases htokens'
    exact Registration.findStart?_eq_none_iff.mp hnone (hcalls.mpr ⟨part, hpart, hcall⟩)
  · intro h
    refine ⟨tokens, htokens, Registration.findStart?_eq_none_iff.mpr fun hcall => ?_⟩
    obtain ⟨part, hpart, hcall⟩ := hcalls.mp hcall
    exact h part hpart hcall

end ClassModule

namespace ModuleTree

variable {tree : ModuleTree} {disk : Disk} {path : Path} {source : String}

/-- Each member of a converted file consists of whole tokens when the renamings have left it so. -/
theorem exists_entries {call : Registration} {members : List Member}
    (hfirst : Registration.first? source = .ok (some call))
    (hmembers : Member.ofBody call.body = .ok members) {f : String → String}
    (hrenamed : ∀ m ∈ members, m.mapText f ≠ m → (m.mapText f).IsClosed) :
    ∃ entries : List (Member × Fragments),
      entries.map Prod.fst = members.map (Member.mapText f) ∧
      ∀ entry ∈ entries, entry.1.ReadsAs entry.2 ∧ entry.1.key.Readable := by
  have hclosed : ∀ m ∈ members.map (Member.mapText f),
      ∃ fragments, m.ReadsAs fragments ∧ m.key.Readable := by
    intro m hm
    obtain ⟨m, hold, rfl⟩ := List.mem_map.mp hm
    obtain ⟨contents, _, hreads, hkey⟩ := exists_contents_of_mem hfirst hmembers hold
    by_cases hsame : m.mapText f = m
    · rw [hsame]
      exact ⟨contents.fragments, hreads, hkey⟩
    · obtain ⟨fragments, hreads⟩ := hrenamed m hold hsame
      exact ⟨fragments, hreads, hkey⟩
  obtain ⟨fragments, hfragments⟩ := List.exists_forall₂_iff.mpr hclosed
  obtain ⟨hlength, hzip⟩ := List.forall₂_iff_zip.mp hfragments
  exact ⟨_, List.map_fst_zip (Nat.le_of_eq hlength), fun entry hentry => hzip hentry⟩

/-- A converted file is left alone when it is converted again, on whatever disk, exactly when its
text mentions no factory, or when none of its parts holds the start of a registration. This takes
blanks for an indentation, and parts that consist of whole tokens. What a member is made of does, as
long as no renaming changes it. -/
theorem rerun_unchanged_iff {handler : ConvertedHandler}
    (h : tree.convertSource disk path source = .ok (.converted handler))
    (hindent : tree.style.indent.toList.all isSpace = true) :
    ∃ call members result,
      Registration.first? source = .ok (some call) ∧
      Member.ofBody call.body = .ok members ∧
      tree.classModule disk path source call = .ok result ∧
      handler.text = result.text tree.style ∧
      ((∀ line ∈ result.importLines, IsClosed (line.statement tree.style)) →
        (∀ m ∈ members, m.mapText tree.renamings.rename ≠ m →
          (m.mapText tree.renamings.rename).IsClosed) →
        ∀ disk', tree.convertSource disk' path handler.text = .ok .unchanged ↔
          HandlerKind.mentionedIn? handler.text = none ∨
            ∀ part ∈ result.parts tree.style, ¬HoldsCall (ownLexemes part)) := by
  obtain ⟨_, call, result, hfirst, hresult, rfl⟩ := convertSource_eq_converted_iff.mp h
  obtain ⟨members, hmembers, _, _, _, _, hrenamed⟩ := classModule_eq_ok_iff.mp hresult
  obtain ⟨hname, hparent⟩ := isName_of_classModule hresult
  refine ⟨call, members, result, hfirst, hmembers, hresult, rfl, fun hlines hclosed disk' => ?_⟩
  obtain ⟨entries, hentries, hreads⟩ := exists_entries hfirst hmembers hclosed
  rw [← hrenamed] at hentries
  rw [convertSource_eq_unchanged_iff,
    ClassModule.first?_text_eq_none_iff hindent hlines hentries hreads hname hparent]

/-- A factory that is mentioned in a string only. -/
theorem rerun_unchanged_of_mention_in_string :
    ∃ handler, convertSource { root := ⟨"/r"⟩ } ⟨[], []⟩ ⟨"/r/a/b.js"⟩
        "NGS.createLoad('a.x', \x7b s: 'NGS.createLoad(' \x7d)" = .ok (.converted handler) ∧
      (HandlerKind.mentionedIn? handler.text).isSome ∧
      ∀ disk', convertSource { root := ⟨"/r"⟩ } disk' ⟨"/r/a/b.js"⟩ handler.text =
        .ok .unchanged := by
  have hconverted : convertSource { root := ⟨"/r"⟩ } ⟨[], []⟩ ⟨"/r/a/b.js"⟩
      "NGS.createLoad('a.x', \x7b s: 'NGS.createLoad(' \x7d)" = .ok (.converted ⟨.load,
        ⟨"a/XLoad", "XLoad"⟩, ⟨"ngs/AbstractLoad", "AbstractLoad"⟩,
        "import AbstractLoad from '../ngs/AbstractLoad.js';\n\n" ++
          "export default class XLoad extends AbstractLoad \x7b\n  constructor() \x7b\n" ++
          "    super();\n    this.s = 'NGS.createLoad(';\n  \x7d\n\x7d\n"⟩) := by
    decide +kernel
  have hparts : (Registration.first?
      "NGS.createLoad('a.x', \x7b s: 'NGS.createLoad(' \x7d)").map (·.map fun call =>
        (Member.ofBody call.body, classModule { root := ⟨"/r"⟩ } ⟨[], []⟩ ⟨"/r/a/b.js"⟩
          "NGS.createLoad('a.x', \x7b s: 'NGS.createLoad(' \x7d)" call)) =
      .ok (some (.ok [⟨⟨"s", "s", .ident⟩, none, "'NGS.createLoad('", 24⟩],
        .ok ⟨⟨"a/XLoad", "XLoad"⟩, ⟨"ngs/AbstractLoad", "AbstractLoad"⟩,
          "../ngs/AbstractLoad", [⟨⟨"s", "s", .ident⟩, none, "'NGS.createLoad('", 24⟩], []⟩)) := by
    decide +kernel
  obtain ⟨call, members, result, hfirst, hmembers, hresult, _, hrerun⟩ :=
    rerun_unchanged_iff hconverted (by decide)
  rw [hfirst] at hparts
  simp only [Except.map, Option.map, hmembers, hresult, Except.ok.injEq, Option.some.injEq,
    Prod.mk.injEq] at hparts
  obtain ⟨rfl, rfl⟩ := hparts
  have himport : IsClosed (ImportLine.statement {} ⟨"AbstractLoad", "../ngs/AbstractLoad"⟩) ∧
      ¬HoldsCall (ownLexemes (ImportLine.statement {} ⟨"AbstractLoad", "../ngs/AbstractLoad"⟩)) :=
    ImportLine.isClosed_statement (by decide) (by decide)
  have hvalue : ownLexemes "'NGS.createLoad('" = [⟨.str, "'NGS.createLoad('".toList⟩] :=
    ownLexemes_eq (readsAnywhere_quoted (s := "NGS.createLoad(".toList) (by decide))
  refine ⟨_, hconverted, by decide +kernel, fun disk' => ?_⟩
  refine (hrerun ?_ ?_ disk').mpr (.inr ?_)
  · rintro line hline
    cases List.mem_singleton.mp hline
    exact himport.1
  · intro m _ hchanged
    refine absurd (Member.mapText_of_forall ?_ m) hchanged
    exact RenamingTable.rename_of_usable_eq_nil rfl
  · intro part hpart
    rcases List.mem_cons.mp hpart with rfl | hpart
    · exact himport.2
    · cases List.mem_singleton.mp hpart
      rw [hvalue]
      exact not_holdsCall_of_no_point (by decide)

/-- That a text, when it is converted, becomes one that is left alone when it is converted again. -/
def IsStable (tree : ModuleTree) (disk : Disk) (path : Path) (source : String) : Prop :=
  ∀ handler, tree.convertSource disk path source = .ok (.converted handler) →
    tree.convertSource disk path handler.text = .ok .unchanged

instance : Decidable (tree.IsStable disk path source) :=
  match h : tree.convertSource disk path source with
  | .ok (.converted handler) =>
    decidable_of_iff (tree.convertSource disk path handler.text = .ok .unchanged)
      (by simp [IsStable, h])
  | .ok .unchanged => isTrue (by simp [IsStable, h])
  | .error _ => isTrue (by simp [IsStable, h])

/-- A handler that is registered inside of a method is registered by the converted text as well.
Besides that, a renaming can write the start of a registration, a quote in the package of the
parent leaves the end of a string open, and the indentation is whatever the settings say. -/
theorem nested_registration_not_isStable :
    ¬IsStable { root := ⟨"/r"⟩ } ⟨[], []⟩ ⟨"/r/a/b.js"⟩
        "NGS.createLoad('a.x', \x7b f() \x7b NGS.createLoad('q.y', \x7b\x7d); \x7d \x7d)" ∧
      ¬IsStable { root := ⟨"/r"⟩, renamings := ⟨[⟨"m", "NGS.createLoad", "n"⟩]⟩ } ⟨[], []⟩
        ⟨"/r/b.js"⟩ "NGS.createLoad('x', \x7bf() \x7bm('y', \x7b\x7d)\x7d\x7d)" ∧
      ¬IsStable { root := ⟨"/r"⟩ } ⟨[], []⟩ ⟨"/r/b.js"⟩
        "NGS.createLoad('x', \x7bs: 'NGS.createLoad'\x7d, \"it's.y\")" ∧
      ¬IsStable { root := ⟨"/r"⟩, style := { indent := "NGS.createLoad('y', \x7b\x7d);" } }
        ⟨[], []⟩ ⟨"/r/b.js"⟩ "NGS.createLoad('x', \x7bf() \x7b\x7d\x7d)" := by
  refine ⟨?_, ?_, ?_, ?_⟩ <;> decide +kernel

end ModuleTree

end Reclass
