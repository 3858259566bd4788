import Reclass.Proofs.Handler.Calls
import Reclass.Proofs.Module.Verbatim
import Reclass.Proofs.Script.Quoted

/-!
# Reading import lines back

An import line puts its path between single quotes as it is. Read back, the line is the statement
it was written for exactly when every character of the path stands for itself there, and the name is
one word: what the path is made of, the packages of a dotted name, may hold any characters.
-/

namespace Reclass

open Script

namespace ImportLine

variable {style : ModuleStyle} {line : ImportLine}

/-- That an import line is read as an import of its name from its path, with the extension behind
it. -/
def ReadsBack (style : ModuleStyle) (line : ImportLine) : Prop :=
  ∃ first name link path last,
    tokenize (line.text style) = .ok [first, name, link, path, last] ∧
      first.isIdent "import" ∧ name.isIdent line.name ∧ link.isIdent "from" ∧
      path.kind = .str ∧ path.textValue? = some (line.specifier ++ style.extension) ∧
      last.isPunct ";"

/-! ### The path between its quotes -/

/-- A path that is read back from between two quotes, before the end of its line, stands for
itself. -/
private theorem all_isPlain_of_stringTail {path text rest : List Char}
    (h : stringTail '\'' (path ++ ['\'', ';', '\n']) = .ok (text, rest))
    (hvalue : Text.unescape text.dropLast = path) : path.all isPlain = true := by
  obtain ⟨inside, rfl, hinside⟩ := quoted_of_stringTail h
  rw [List.dropLast_concat] at hvalue
  have hsplit : path ++ ['\'', ';', '\n'] = inside ++ '\'' :: rest := by
    rw [(stringTail_append h).1, List.append_assoc]
    rfl
  -- The string cannot end behind the quote that was meant to close it.
  have hle : inside.length ≤ path.length := by
    rcases List.append_eq_append_iff.mp hsplit with ⟨more, hmore, hends⟩ | ⟨more, hmore, _⟩
    · cases more with
      | nil => simp [hmore]
      | cons c more =>
        have hquote : '\'' ∈ [';', '\n'] := by
          rw [(List.cons.inj hends).2]
          simp
        exact absurd hquote (by decide)
    · simp [hmore]
  have hlength := congrArg List.length hvalue
  have hplain := hinside.all_of_length_le (by omega)
  have hself : path = inside := by
    rw [← hvalue]
    exact Text.unescape_eq_self fun hmem => (hplain _ hmem).2.1 rfl
  rw [hself, List.all_eq_true]
  intro c hc
  obtain ⟨hquote, hescape, hfeed⟩ := hplain c hc
  simp [isPlain, hquote, hescape, hfeed]

/-! ### The line -/

/-- An import line, character by character. -/
theorem toList_text : (line.text style).toList =
    "import".toList ++ ' ' :: (line.name.toList ++ ' ' :: ("from".toList ++
      ' ' :: '\'' :: ((line.specifier ++ style.extension).toList ++ ['\'', ';', '\n']))) := by
  have himport : "import ".toList = "import".toList ++ [' '] := by decide
  have hfrom : " from '".toList = ' ' :: ("from".toList ++ [' ', '\'']) := by decide
  have hend : "';\n".toList = ['\'', ';', '\n'] := by decide
  simp only [text, String.toList_append, himport, hfrom, hend, List.append_assoc, List.cons_append,
    List.nil_append]

/-- An import line starts with no byte order mark and no line that a script would skip. -/
theorem lead_text : lead (line.text style).toList = ([], (line.text style).toList) := by
  have hhead : ∃ s, (line.text style).toList = 'i' :: s := by
    rw [toList_text]
    exact ⟨_, rfl⟩
  obtain ⟨s, hs⟩ := hhead
  rw [hs]
  exact lead_cons (by decide) (by decide)

/-- The tokens of an import line are those before its path, and those from the path on. -/
theorem lexemes?_text (hname : isWord line.name.toList = true) :
    lexemes? true (line.text style).toList =
      (lexemes? false ('\'' :: ((line.specifier ++ style.extension).toList ++
        ['\'', ';', '\n']))).map ([word "import", word line.name, word "from"] ++ ·) := by
  have hspace (s : List Char) : ∀ c ∈ (' ' :: s).head?, continuesName c = false :=
    forall_mem_head?_cons.mpr (by decide)
  have hfrom : opensRegex .ident "from".toList = false := by decide
  rw [toList_text, lexemes?_word (by decide) (hspace _), lexemes?_space (by decide),
    lexemes?_word hname (hspace _), lexemes?_space (by decide),
    lexemes?_word (by decide) (hspace _), lexemes?_space (by decide), hfrom, Option.map_map,
    Option.map_map]
  rfl

/-- The name of a line that is read back is one word. -/
theorem ReadsBack.isWord (h : line.ReadsBack style) : isWord line.name.toList = true := by
  obtain ⟨_, name, _, _, _, htokens, _, hname, _⟩ := h
  obtain ⟨hkind, htext⟩ := Token.isIdent_iff.mp hname
  rw [← htext]
  exact isWord_of_mem htokens (by simp) hkind

/-- Every character of the path of a line that is read back stands for itself. -/
theorem ReadsBack.all_isPlain (h : line.ReadsBack style) :
    (line.specifier ++ style.extension).toList.all isPlain = true := by
  have hword := h.isWord
  obtain ⟨first, name, link, path, last, htokens, _, _, _, hkind, hvalue, _⟩ := h
  have hlexemes := lexemes?_of_tokenize lead_text htokens
  rw [lexemes?_text hword] at hlexemes
  obtain ⟨others, hothers, hcons⟩ := Option.map_eq_some_iff.mp hlexemes
  have hpath : others = [path.lexeme, last.lexeme] := by
    simp only [List.cons_append, List.nil_append, List.map_cons, List.map_nil,
      List.cons.injEq] at hcons
    exact hcons.2.2.2
  rw [hpath] at hothers
  obtain ⟨rest, hread, _⟩ := exists_read_of_lexemes? hothers
  have hgap (s : List Char) : (gap ('\'' :: s)).2 = '\'' :: s := by
    rw [gap_of_separator?_eq_none (separator?_eq_none s (by decide) fun h => absurd h (by decide))]
  rw [hgap] at hread
  obtain ⟨text, htext, _, htail⟩ := hread.stringTail_eq hkind
  refine all_isPlain_of_stringTail htail ?_
  have htext : path.text = '\'' :: text := htext
  rw [Token.textValue?, hkind, Token.inside, htext, Option.some.injEq] at hvalue
  rw [← hvalue, String.toList_ofList]
  rfl

/-- A line is read back when its name is one word and every character of its path stands for
itself. -/
theorem readsBack_of_plain (hword : isWord line.name.toList = true)
    (hplain : (line.specifier ++ style.extension).toList.all isPlain = true) :
    line.ReadsBack style := by
  have hend : ReadsAnywhere [';', '\n'] [sign ';'] :=
    (readsAnywhere_nil.blank (c := '\n') (by decide)).mark (by decide)
  have hquoted := ((readsAnywhere_quoted hplain).append hend rfl false).lexemes?
  have hlexemes : lexemes? true (line.text style).toList = some [word "import", word line.name,
      word "from", ⟨.str, '\'' :: ((line.specifier ++ style.extension).toList ++ ['\''])⟩,
      sign ';'] := by
    simp only [List.cons_append, List.append_assoc, List.nil_append] at hquoted
    rw [lexemes?_text hword, hquoted]
    rfl
  obtain ⟨tokens, htokens, hmap⟩ := tokenize_of_lexemes? lead_text hlexemes
  obtain ⟨first, _, rfl, hfirst, hmap⟩ := List.map_eq_cons_iff.mp hmap
  obtain ⟨name, _, rfl, hname, hmap⟩ := List.map_eq_cons_iff.mp hmap
  obtain ⟨link, _, rfl, hlink, hmap⟩ := List.map_eq_cons_iff.mp hmap
  obtain ⟨path, _, rfl, hpath, hmap⟩ := List.map_eq_cons_iff.mp hmap
  obtain ⟨last, _, rfl, hlast, hmap⟩ := List.map_eq_cons_iff.mp hmap
  obtain rfl := List.map_eq_nil_iff.mp hmap
  have hkind : path.kind = .str := congrArg Lexeme.kind hpath
  have htext : path.text = '\'' :: ((line.specifier ++ style.extension).toList ++ ['\'']) :=
    congrArg Lexeme.text hpath
  have hescape : '\\' ∉ (line.specifier ++ style.extension).toList := fun hmem =>
    absurd (List.all_eq_true.mp hplain _ hmem) (by decide)
  have hvalue : path.textValue? = some (line.specifier ++ style.extension) := by
    rw [Token.textValue?, hkind, Token.inside, htext, List.drop_succ_cons, List.drop_zero,
      List.dropLast_concat, Text.unescape_eq_self hescape, String.ofList_toList]
  exact ⟨first, name, link, path, last, htokens, Token.isIdent_iff_lexeme.mpr hfirst,
    Token.isIdent_iff_lexeme.mpr hname, Token.isIdent_iff_lexeme.mpr hlink, hkind, hvalue,
    (Token.isPunct_iff_lexeme rfl).mpr hlast⟩

/-- An import line is read back when its name is a word and its path has only plain characters. -/
theorem readsBack_iff : line.ReadsBack style ↔
    isWord line.name.toList = true ∧
      (line.specifier ++ style.extension).toList.all isPlain = true :=
  ⟨fun h => ⟨h.isWord, h.all_isPlain⟩, fun h => readsBack_of_plain h.1 h.2⟩

end ImportLine

/-! ### The path of an import -/

/-- A climb and the way down to a module hold no other characters than the path of the module. -/
theorem importSpecifier_all_isPlain (depth : Nat) (target : String) :
    (importSpecifier depth target).toList.all isPlain = target.toList.all isPlain := by
  have hslash : (target.toList.takeWhile (· == '/')).all isPlain = true := by
    rw [List.all_eq_true]
    intro c hc
    have hc : c = '/' := by simpa using List.mem_takeWhile_imp hc
    rw [hc]
    decide
  have hdown : (target.toList.dropWhile (· == '/')).all isPlain = target.toList.all isPlain := by
    conv_rhs => rw [← List.takeWhile_append_dropWhile (p := (· == '/')) (l := target.toList)]
    rw [List.all_append, hslash, Bool.true_and]
  have hclimb : (String.join (List.replicate depth "../")).toList.all isPlain = true := by
    rw [String.toList_join, List.all_eq_true]
    intro c hc
    obtain ⟨step, hstep, hc⟩ := List.mem_flatMap.mp hc
    rw [List.eq_of_mem_replicate hstep] at hc
    exact List.all_eq_true.mp (by decide : "../".toList.all isPlain = true) c hc
  have hhere : "./".toList.all isPlain = true := by decide
  unfold importSpecifier
  split
  · rw [String.toList_append, List.all_append, hhere, Bool.true_and, String.toList_ofList, hdown]
  · rw [String.toList_append, List.all_append, hclimb, Bool.true_and, String.toList_ofList, hdown]

/-- Joined parts pass a test that the separator passes when all parts do. -/
theorem Text.join_all {p : Char → Bool} {sep : Char} (hsep : p sep = true)
    (fields : List (List Char)) : (join sep fields).all p = fields.all (·.all p) := by
  fun_induction join sep fields with
  | case1 => rfl
  | case2 field => simp
  | case3 field rest _ ih => simp [hsep, ih]

/-- The path to the class of a dotted name holds what the packages of the name hold. -/
theorem Identity.modulePath_all_isPlain {s : String} {kind : HandlerKind} {identity : Identity}
    (h : ofName s kind = .ok identity) :
    ∃ name, DottedName.parse s = .ok name ∧
      (identity.modulePath.toList.all isPlain = true ↔
        ∀ package ∈ name.packages, package.toList.all isPlain = true) := by
  have hclass : identity.className.toList.all isPlain = true := by
    rw [List.all_eq_true]
    intro c hc
    have hpart := isNamePart_of_isName (isName_of_ofName h) c hc
    have hne (d : Char) (hd : isNamePart d = false) : c ≠ d := by
      rintro rfl
      exact absurd hpart (by simp [hd])
    simp [isPlain, hne '\'' (by decide), hne '\\' (by decide), hne '\n' (by decide)]
  obtain ⟨name, hname, hidentity⟩ := Except.bind_eq_ok_iff.mp h
  obtain ⟨_, _, _, hpath⟩ := DottedName.identity_eq_ok_iff.mp hidentity
  have hjoin := Text.ofList_join '/' (name.packages ++ [identity.className])
  refine ⟨name, hname, ?_⟩
  rw [hpath.trans hjoin.symm, String.toList_ofList, Text.join_all (by decide), List.all_map,
    List.all_append]
  simp only [List.all_cons, List.all_nil, Bool.and_true, Bool.and_eq_true, List.all_eq_true,
    Function.comp_apply]
  exact and_iff_left (List.all_eq_true.mp hclass)

namespace ModuleTree

variable {tree : ModuleTree} {disk : Disk} {path : Path} {source : String}

/-- However a file reaches a module, the path by which it does is that of the module behind a
climb. -/
theorem importSpecifier_eq_ok {target specifier : String}
    (h : tree.importSpecifier disk path target = .ok specifier) :
    ∃ depth, specifier = Reclass.importSpecifier depth target := by
  have hfrom {source root : List Component}
      (h : specifierFrom? source root target = some specifier) :
      ∃ depth, specifier = Reclass.importSpecifier depth target := by
    obtain ⟨depth, _, hdepth⟩ := Option.map_eq_some_iff.mp h
    exact ⟨depth, hdepth.symm⟩
  unfold importSpecifier at h
  split at h
  · next hspelled =>
    cases h
    exact hfrom hspelled
  · split at h
    · next hresolved =>
      cases h
      obtain ⟨_, _, hresolved⟩ := Option.bind_eq_some_iff.mp hresolved
      obtain ⟨_, _, hresolved⟩ := Option.bind_eq_some_iff.mp hresolved
      obtain ⟨_, _, hresolved⟩ := Option.bind_eq_some_iff.mp hresolved
      exact hfrom hresolved
    · exact absurd h (by simp)

/-- Without renamings there are no imports besides that of the parent. -/
theorem imports_of_usable_eq_nil {call : Registration} {result : ClassModule}
    (h : tree.classModule disk path source call = .ok result)
    (hrenamings : tree.renamings.usable = []) : result.imports = [] := by
  obtain ⟨_, _, _, _, _, himports, _⟩ := classModule_eq_ok_iff.mp h
  rw [renamingImports, RenamingTable.imports, hrenamings] at himports
  exact (Except.ok.inj himports).symm

/-- Without renamings, a converted text is one import line, a blank line and the class. The line is
read back, with the path to the parent, exactly when the class name of the parent is one word
and its module path holds no quote, no backslash and no line feed. For a parent that is given by
name, these are to be looked for in the packages of the name. -/
theorem converted_import_readsBack_iff {handler : ConvertedHandler}
    (h : tree.convertSource disk path source = .ok (.converted handler))
    (hrenamings : tree.renamings.usable = []) :
    ∃ call result, ∃ line : ImportLine,
      Registration.first? source = .ok (some call) ∧
      tree.classModule disk path source call = .ok result ∧
      handler.parent = result.parent ∧
      handler.text = line.text tree.style ++ "\n" ++ result.classText tree.style ∧
      line.name = handler.parent.className ∧
      tree.importSpecifier disk path handler.parent.modulePath = .ok line.specifier ∧
      (line.ReadsBack tree.style ↔
        (∀ c ∈ handler.parent.className.toList, isSpace c = false) ∧
          handler.parent.modulePath.toList.all isPlain = true ∧
          tree.style.extension.toList.all isPlain = true) ∧
      ∀ s offset, call.parent = some (s, offset) →
        ∃ name, DottedName.parse s = .ok name ∧
          (handler.parent.modulePath.toList.all isPlain = true ↔
            ∀ package ∈ name.packages, package.toList.all isPlain = true) := by
  obtain ⟨_, call, result, hfirst, hresult, rfl⟩ := convertSource_eq_converted_iff.mp h
  obtain ⟨_, _, _, hparent, hspecifier, _, _⟩ := classModule_eq_ok_iff.mp hresult
  refine ⟨call, result, ⟨result.parent.className, result.parentSpecifier⟩, hfirst, hresult, rfl, ?_,
    rfl, hspecifier, ?_, ?_⟩
  · rw [ClassModule.text, ClassModule.importText, imports_of_usable_eq_nil hresult hrenamings]
    simp
  · obtain ⟨depth, hdepth⟩ := importSpecifier_eq_ok hspecifier
    rw [ImportLine.readsBack_iff, isWord_iff_of_isName (isName_of_classModule hresult).2,
      String.toList_append, List.all_append, hdepth, importSpecifier_all_isPlain, Bool.and_eq_true]
  · intro s offset hcall
    rw [hcall] at hparent
    exact Identity.modulePath_all_isPlain hparent

/-- The import of a parent with a plain name is read back. -/
theorem converted_import_readsBack_of_plain_parent :
    ∃ handler result, ∃ line : ImportLine,
      convertSource { root := ⟨"/r"⟩ } ⟨[], []⟩ ⟨"/r/a/b.js"⟩
        "NGS.createLoad('a.x', \x7b\x7d, \"b.y\")" = .ok (.converted handler) ∧
      handler.text = line.text {} ++ "\n" ++ ClassModule.classText {} result ∧
      line.specifier = "../b/YLoad" ∧ line.ReadsBack {} := by
  have hconverted : convertSource { root := ⟨"/r"⟩ } ⟨[], []⟩ ⟨"/r/a/b.js"⟩
      "NGS.createLoad('a.x', \x7b\x7d, \"b.y\")" = .ok (.converted ⟨.load,
        ⟨"a/XLoad", "XLoad"⟩, ⟨"b/YLoad", "YLoad"⟩,
        "import YLoad from '../b/YLoad.js';\n\n" ++
          "export default class XLoad extends YLoad \x7b\n\x7d\n"⟩) := by
    decide +kernel
  obtain ⟨_, result, line, _, _, _, htext, _, hspecifier, hreads, _⟩ :=
    converted_import_readsBack_iff hconverted rfl
  have hpath : importSpecifier { root := ⟨"/r"⟩ } ⟨[], []⟩ ⟨"/r/a/b.js"⟩ "b/YLoad" =
      .ok "../b/YLoad" := by
    decide +kernel
  rw [hpath] at hspecifier
  have hword : ∀ c ∈ "YLoad".toList, isSpace c = false :=
    (isWord_iff_of_isName (by decide)).mp (by decide)
  exact ⟨_, result, line, hconverted, htext, (Except.ok.inj hspecifier).symm,
    hreads.mpr ⟨hword, by decide, by decide⟩⟩

/-- A quote in a package of the parent ends the string of the path, and what follows it opens
another one. -/
theorem import_of_package_with_quote_not_readsBack :
    ∃ handler, convertSource { root := ⟨"/r"⟩ } ⟨[], []⟩ ⟨"/r/a/b.js"⟩
        "NGS.createLoad('a.x', \x7b\x7d, \"it's.y\")" = .ok (.converted handler) ∧
      handler.text = ImportLine.text {} ⟨"YLoad", "../it's/YLoad"⟩ ++ "\n" ++
        "export default class XLoad extends YLoad \x7b\n\x7d\n" ∧
      importSpecifier { root := ⟨"/r"⟩ } ⟨[], []⟩ ⟨"/r/a/b.js"⟩ handler.parent.modulePath =
        .ok "../it's/YLoad" ∧
      ¬ImportLine.ReadsBack {} ⟨"YLoad", "../it's/YLoad"⟩ := by
  refine ⟨⟨.load, ⟨"a/XLoad", "XLoad"⟩, ⟨"it's/YLoad", "YLoad"⟩,
    "import YLoad from '../it's/YLoad.js';\n\n" ++
      "export default class XLoad extends YLoad \x7b\n\x7d\n"⟩, by decide +kernel,
    by decide +kernel, by decide +kernel, ?_⟩
  rw [ImportLine.readsBack_iff]
  decide

end ModuleTree

end Reclass
