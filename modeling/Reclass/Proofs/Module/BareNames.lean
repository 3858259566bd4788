import Reclass.Proofs.Module.Rerun
import Reclass.Proofs.Script.Tiling

/-!
# Names without quotes

A class writes its own name and that of its parent without quotes, and the keys that are names.
What is a name is not decided by reading tokens: beyond ASCII every character passes, and so do the
spaces that separate tokens. A name is one token exactly when it holds none of them.
-/

namespace Reclass

namespace Script

/-- That a text is one name token, from its first character to its last. -/
def IsNameToken (s : String) : Prop :=
  ∃ t, tokenize s = .ok [t] ∧ t.kind = .ident ∧ t.start = 0 ∧
    t.stop = Text.byteLength s.toList ∧ t.text = s.toList

/-- A word is read as one token. -/
theorem lexemes?_of_isWord {slash : Bool} {s : List Char} (h : isWord s = true) :
    lexemes? slash s = some [⟨.ident, s⟩] := by
  have hread : lexemes? slash (s ++ []) =
      (lexemes? (opensRegex .ident s) []).map (⟨.ident, s⟩ :: ·) :=
    lexemes?_word h (by simp)
  have hgap : (gap []).2 = [] := by rw [gap_of_separator?_eq_none rfl]
  rw [List.append_nil] at hread
  rw [hread, lexemes?_of_gap_eq_nil hgap]
  rfl

/-- A text that is read as one name is a word. -/
theorem isWord_of_lexemes? {slash : Bool} {s text : List Char}
    (h : lexemes? slash s = some [⟨.ident, text⟩]) : isWord text = true := by
  obtain ⟨_, hread, -⟩ := exists_read_of_lexemes? h
  exact hread.isWord_text rfl (separator?_gap s)

/-- A text that is a name token is a word. -/
theorem isNameToken_iff_isWord {s : String} : IsNameToken s ↔ isWord s.toList = true := by
  constructor
  · rintro ⟨t, htokens, hkind, -, -, htext⟩
    exact htext ▸ isWord_of_mem htokens (List.mem_singleton_self t) hkind
  · intro hword
    have hlead : lead s.toList = ([], s.toList) := by
      cases hs : s.toList with
      | nil => rfl
      | cons c rest =>
        rw [hs, isWord, Bool.and_eq_true, Bool.and_eq_true] at hword
        refine lead_cons ?_ ?_
        · rintro rfl
          exact absurd hword.1.2 (by decide)
        · rintro rfl
          exact absurd hword.1.1 (by decide)
    obtain ⟨t, htokens, hlexeme, hspans⟩ :=
      exists_spans_of_lexemes? hlead (lexemes?_of_isWord hword) rfl
    exact ⟨t, htokens, congrArg Lexeme.kind hlexeme, hspans⟩

/-- A text is a name token when it is a name without spaces. -/
theorem isNameToken_iff {s : String} :
    IsNameToken s ↔ isName s.toList = true ∧ ∀ c ∈ s.toList, isSpace c = false := by
  constructor
  · intro h
    have hword := isNameToken_iff_isWord.mp h
    obtain ⟨t, htokens, hkind, -, -, htext⟩ := h
    have hname : isName s.toList = true :=
      htext ▸ isName_of_mem htokens (List.mem_singleton_self t) hkind
    exact ⟨hname, (isWord_iff_of_isName hname).mp hword⟩
  · rintro ⟨hname, hspaces⟩
    exact isNameToken_iff_isWord.mpr ((isWord_iff_of_isName hname).mpr hspaces)

end Script

open Script

/-- A name that stands somewhere is one token there exactly when it is one on its own. -/
theorem ownLexemes_eq_word_iff {s : String} (h : isName s.toList = true) :
    ownLexemes s = [word s] ↔ IsNameToken s := by
  rw [isNameToken_iff_isWord]
  constructor
  · intro hown
    have hread := ((readsAnywhere_name h).1 true).lexemes?
    rw [hown] at hread
    exact isWord_of_lexemes? hread
  · intro hword
    rw [ownLexemes, lexemes?_of_isWord hword]
    rfl

/-! ### Keys -/

namespace PropertyKey

variable {key : PropertyKey} {name : String}

/-- The name that stands for a key without quotes and brackets, if there is one. -/
def bareName? (key : PropertyKey) : Option String :=
  match key.form with
  | .ident => some key.raw
  | .str => if isName key.name.toList then some key.name else none
  | .number => none

/-- A key with a bare name is assigned to behind a point, and declares a method of that name. -/
theorem text_of_bareName? (h : key.bareName? = some name) :
    key.fieldTarget = "this." ++ name ∧ key.methodName = name := by
  unfold bareName? at h
  unfold fieldTarget methodName
  cases hform : key.form with
  | ident =>
    rw [hform] at h
    cases h
    exact ⟨rfl, rfl⟩
  | str =>
    rw [hform] at h
    obtain ⟨hname, hsame⟩ := Option.ite_none_right_eq_some.mp h
    obtain rfl := Option.some.inj hsame
    simp only [if_pos hname, and_self]
  | number =>
    rw [hform] at h
    exact absurd h (by simp)

/-- A bare name of a key is a name. -/
theorem Readable.isName_of_bareName? (hkey : key.Readable) (h : key.bareName? = some name) :
    isName name.toList = true := by
  unfold Readable at hkey
  unfold bareName? at h
  cases hform : key.form with
  | ident =>
    rw [hform] at hkey h
    cases h
    exact hkey
  | str =>
    rw [hform] at h
    obtain ⟨hname, hsame⟩ := Option.ite_none_right_eq_some.mp h
    obtain rfl := Option.some.inj hsame
    exact hname
  | number =>
    rw [hform] at h
    exact absurd h (by simp)

end PropertyKey

/-- A key that is written as a name is one token. -/
theorem Member.isNameToken_of_ident {source : String} {call : Registration}
    {members : List Member} {m : Member} (hfirst : Registration.first? source = .ok (some call))
    (hmembers : ofBody call.body = .ok members) (hm : m ∈ members) (hform : m.key.form = .ident) :
    IsNameToken m.key.raw := by
  obtain ⟨tokens, htokens, hbody⟩ := Registration.body_isInfix hfirst
  obtain ⟨_, _, _, hsegment, _, hwritten⟩ := writtenAs_of_mem_ofBody hmembers hm
  obtain ⟨t, ht, hkey⟩ := hwritten.exists_key
  have hmem : t ∈ tokens := hbody.subset (hsegment.subset ht)
  unfold readKey at hkey
  split at hkey
  · next hkind =>
    rw [isNameToken_iff_isWord, ← Except.ok.inj hkey, Token.word, String.toList_ofList]
    exact isWord_of_mem htokens hmem hkind
  · rw [← Except.ok.inj hkey] at hform
    exact absurd hform (by simp)
  · rw [← Except.ok.inj hkey] at hform
    exact absurd hform (by simp)
  · exact absurd hkey (by simp)

/-- The names that a class writes without quotes: its own, that of its parent, and those of its
members. -/
def ClassModule.bareNames (m : ClassModule) : List String :=
  m.identity.className :: m.parent.className :: m.members.filterMap (·.key.bareName?)

namespace ModuleTree

/-- The test for names agrees with the tokens of a text exactly when the text is no name, or holds
no space. So in the tokens of a converted file, where each bare name has a place of its own, it is
one token exactly when it holds no space; a key that is written as a name never does. This takes
blanks for an indentation, and parts that consist of whole tokens. -/
theorem bare_names_are_tokens_iff (s : String) :
    ((isName s.toList = true ↔ IsNameToken s) ↔
      (isName s.toList = true → ∀ c ∈ s.toList, isSpace c = false)) ∧
    ∀ (tree : ModuleTree) (disk : Disk) (path : Path) (source : String)
      (handler : ConvertedHandler),
      tree.convertSource disk path source = .ok (.converted handler) →
      tree.style.indent.toList.all isSpace = true →
      ∃ call members result,
        Registration.first? source = .ok (some call) ∧
        Member.ofBody call.body = .ok members ∧
        tree.classModule disk path source call = .ok result ∧
        handler.text = result.text tree.style ∧
        ((∀ line ∈ result.importLines, IsClosed (line.statement tree.style)) →
          (∀ m ∈ members, m.mapText tree.renamings.rename ≠ m →
            (m.mapText tree.renamings.rename).IsClosed) →
          ∃ tokens entries, tokenize handler.text = .ok tokens ∧
            entries.map Prod.fst = result.members ∧
            (∀ entry ∈ entries, entry.1.ReadsAs entry.2) ∧
            tokens.map Token.lexeme =
              (result.importLines.flatMap fun line => ownLexemes (line.statement tree.style)) ++
                ClassModule.classLexemes result.identity.className result.parent.className
                  entries) ∧
        (∀ m ∈ result.members, ∀ name, m.key.bareName? = some name →
          m.key.methodName = name ∧
          ownLexemes m.key.fieldTarget = word "this" :: sign '.' :: ownLexemes name ∧
          (m.key.form = .ident → IsNameToken name)) ∧
        ∀ name ∈ result.bareNames, isName name.toList = true ∧
          (ownLexemes name = [word name] ↔ ∀ c ∈ name.toList, isSpace c = false) := by
  refine ⟨?_, ?_⟩
  · rw [isNameToken_iff]
    exact ⟨fun h hname => (h.mp hname).2, fun h => ⟨fun hname => ⟨hname, h hname⟩, And.left⟩⟩
  intro tree disk path source handler h hindent
  obtain ⟨_, call, result, hfirst, hresult, rfl⟩ := convertSource_eq_converted_iff.mp h
  obtain ⟨members, hmembers, _, _, _, _, hrenamed⟩ := classModule_eq_ok_iff.mp hresult
  obtain ⟨hname, hparent⟩ := isName_of_classModule hresult
  -- Renaming leaves the keys as they are.
  have hkeys : ∀ m ∈ result.members, m.key.Readable ∧
      (m.key.form = .ident → IsNameToken m.key.raw) := by
    rw [hrenamed]
    intro m hm
    obtain ⟨m, hold, rfl⟩ := List.mem_map.mp hm
    obtain ⟨_, _, _, hkey⟩ := exists_contents_of_mem hfirst hmembers hold
    have hident : m.key.form = .ident → IsNameToken m.key.raw :=
      Member.isNameToken_of_ident hfirst hmembers hold
    exact ⟨hkey, hident⟩
  have hnames : ∀ name ∈ result.bareNames, isName name.toList = true := by
    intro name hmem
    rw [ClassModule.bareNames, List.mem_cons, List.mem_cons, List.mem_filterMap] at hmem
    obtain rfl | rfl | ⟨m, hm, hbare⟩ := hmem
    · exact hname
    · exact hparent
    · exact (hkeys m hm).1.isName_of_bareName? hbare
  refine ⟨call, members, result, hfirst, hmembers, hresult, rfl, fun hlines hclosed => ?_,
    fun m hm name hbare => ?_, fun name hmem => ⟨hnames name hmem, ?_⟩⟩
  · obtain ⟨entries, hentries, hreads⟩ := exists_entries hfirst hmembers hclosed
    rw [← hrenamed] at hentries
    obtain ⟨tokens, htokens, hlexemes⟩ :=
      ClassModule.exists_tokens_text hindent hlines hentries hreads hname hparent
    exact ⟨tokens, entries, htokens, hentries, fun entry hmem => (hreads entry hmem).1, hlexemes⟩
  · obtain ⟨hkey, hident⟩ := hkeys m hm
    obtain ⟨htarget, hmethod⟩ := PropertyKey.text_of_bareName? hbare
    refine ⟨hmethod, ?_, fun hform => ?_⟩
    · rw [htarget]
      exact ownLexemes_eq (PropertyKey.readsAnywhere_point (hkey.isName_of_bareName? hbare))
    · have hraw : m.key.bareName? = some m.key.raw := by rw [PropertyKey.bareName?, hform]
      obtain rfl := Option.some.inj (hraw.symm.trans hbare)
      exact hident hform
  · rw [ownLexemes_eq_word_iff (hnames name hmem), isNameToken_iff]
    exact and_iff_right (hnames name hmem)

/-- A string key, a method and the names of the two classes, each one token. -/
theorem bare_names_are_tokens_of_string_key :
    ∃ handler tokens entries, convertSource { root := ⟨"/r"⟩ } ⟨[], []⟩ ⟨"/r/a/b.js"⟩
        "NGS.createLoad('a.x', \x7b 'é': 1, c() \x7b\x7d \x7d)" = .ok (.converted handler) ∧
      tokenize handler.text = .ok tokens ∧
      tokens.map Token.lexeme =
        ownLexemes "import AbstractLoad from '../ngs/AbstractLoad.js';" ++
          ClassModule.classLexemes "XLoad" "AbstractLoad" entries ∧
      (isName "é".toList = true ↔ IsNameToken "é") ∧
      ownLexemes "this.é" = [word "this", sign '.', word "é"] ∧
      ∀ name ∈ ["XLoad", "AbstractLoad", "é", "c"], ownLexemes name = [word name] := by
  have hconverted : convertSource { root := ⟨"/r"⟩ } ⟨[], []⟩ ⟨"/r/a/b.js"⟩
      "NGS.createLoad('a.x', \x7b 'é': 1, c() \x7b\x7d \x7d)" = .ok (.converted ⟨.load,
        ⟨"a/XLoad", "XLoad"⟩, ⟨"ngs/AbstractLoad", "AbstractLoad"⟩,
        "import AbstractLoad from '../ngs/AbstractLoad.js';\n\n" ++
          "export default class XLoad extends AbstractLoad \x7b\n  constructor() \x7b\n" ++
          "    super();\n    this.é = 1;\n  \x7d\n\n  c() \x7b\x7d\n\x7d\n"⟩) := by
    decide +kernel
  have hparts : (Registration.first?
      "NGS.createLoad('a.x', \x7b 'é': 1, c() \x7b\x7d \x7d)").map (·.map fun call =>
        classModule { root := ⟨"/r"⟩ } ⟨[], []⟩ ⟨"/r/a/b.js"⟩
          "NGS.createLoad('a.x', \x7b 'é': 1, c() \x7b\x7d \x7d)" call) =
      .ok (some (.ok ⟨⟨"a/XLoad", "XLoad"⟩, ⟨"ngs/AbstractLoad", "AbstractLoad"⟩,
        "../ngs/AbstractLoad", [⟨⟨"'é'", "é", .str⟩, none, "1", 24⟩,
          ⟨⟨"c", "c", .ident⟩, some ⟨.plain, "()", "\x7b\x7d", false⟩, "c() \x7b\x7d", 33⟩],
        []⟩)) := by
    decide +kernel
  obtain ⟨hagree, houtput⟩ := bare_names_are_tokens_iff "é"
  obtain ⟨call, members, result, hfirst, _, hresult, _, htokens, hkeys, hnames⟩ :=
    houtput _ _ _ _ _ hconverted (by decide)
  rw [hfirst] at hparts
  simp only [Except.map, Option.map, hresult, Except.ok.injEq, Option.some.injEq] at hparts
  subst hparts
  have himport : IsClosed (ImportLine.statement {} ⟨"AbstractLoad", "../ngs/AbstractLoad"⟩) :=
    (ImportLine.isClosed_statement (by decide) (by decide)).1
  have hstatement : ImportLine.statement {} ⟨"AbstractLoad", "../ngs/AbstractLoad"⟩ =
      "import AbstractLoad from '../ngs/AbstractLoad.js';" := by
    decide
  obtain ⟨tokens, entries, htokens, _, _, hlexemes⟩ := htokens (by
      rintro line hline
      cases List.mem_singleton.mp hline
      exact himport) fun m _ hchanged => by
    refine absurd (Member.mapText_of_forall ?_ m) hchanged
    exact RenamingTable.rename_of_usable_eq_nil rfl
  have hspaces : (["XLoad", "AbstractLoad", "é", "c"].all fun name =>
      name.toList.all fun c => !isSpace c) = true := by
    decide
  simp only [List.all_eq_true, Bool.not_eq_true'] at hspaces
  have hbare : ∀ name ∈ ["XLoad", "AbstractLoad", "é", "c"], ownLexemes name = [word name] :=
    fun name hmem => (hnames name hmem).2.mpr (hspaces name hmem)
  rw [ClassModule.importLines, List.flatMap_cons, List.flatMap_nil, List.append_nil,
    hstatement] at hlexemes
  refine ⟨_, tokens, entries, hconverted, htokens, hlexemes,
    hagree.mpr fun _ => hspaces "é" (by decide), ?_, hbare⟩
  have htarget := (hkeys _ List.mem_cons_self "é" (by decide)).2.1
  rw [hbare "é" (by decide)] at htarget
  exact htarget

/-- A no-break space passes in a name, and so does a byte order mark, where a text starts as well as
inside of it. The class that is made of such a key, or has such a name, holds two tokens for it. -/
theorem name_with_space_is_two_tokens :
    (isName "a\u00a0b".toList = true ∧ ¬IsNameToken "a\u00a0b" ∧
      (tokenize "a\u00a0b").map (·.map Token.word) = .ok ["a", "b"]) ∧
    (isName "\ufeffa".toList = true ∧ ¬IsNameToken "\ufeffa" ∧
      (tokenize "\ufeffa").map (·.map fun t => (t.word, t.start)) = .ok [("a", 3)]) ∧
    convertSource { root := ⟨"/r"⟩ } ⟨[], []⟩ ⟨"/r/b.js"⟩
      "NGS.createLoad('x\u00a0y', \x7b 'a\u00a0b': 1 \x7d)" = .ok (.converted ⟨.load,
        ⟨"X\u00a0yLoad", "X\u00a0yLoad"⟩, ⟨"ngs/AbstractLoad", "AbstractLoad"⟩,
        "import AbstractLoad from './ngs/AbstractLoad.js';\n\n" ++
          "export default class X\u00a0yLoad extends AbstractLoad \x7b\n  constructor() \x7b\n" ++
          "    super();\n    this.a\u00a0b = 1;\n  \x7d\n\x7d\n"⟩) := by
  refine ⟨⟨by decide, fun h => ?_, by decide +kernel⟩, ⟨by decide, fun h => ?_, by decide +kernel⟩,
    by decide +kernel⟩
  · exact absurd ((isNameToken_iff.mp h).2 '\u00a0' (by decide)) (by decide)
  · exact absurd ((isNameToken_iff.mp h).2 '\ufeff' (by decide)) (by decide)

end ModuleTree

end Reclass
