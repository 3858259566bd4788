import Reclass.Proofs.Script.Quoted
import Reclass.Proofs.Script.Relayout

/-!
# Templates in templates

The code of a substitution may hold templates again, to any depth, and everything in it may hold
braces, quotes and back quotes of its own. A template is one token all the same: its substitutions
are read token by token, and only the braces of their code are counted.

The templates are given as trees, which are printed with a blank between the parts of their code.
-/

namespace Reclass

namespace Script

/-! ### The code of a substitution -/

section Substitution

variable {depth depth' : Nat} {slash : Bool} {s rest inner after : List Char} {token : Lexeme}

/-- A token that closes nothing stands before what is left of the substitution. -/
theorem substitution?_token (hgap : separator? s = none) (hread : LexemeRead slash s token rest)
    (hdepth : depthAfter? depth token = some depth')
    (htail : substitution? depth' token.slash rest = some (inner, after)) :
    substitution? depth slash s = some (token.text ++ inner, after) := by
  have hskip := gap_of_separator?_eq_none hgap
  have hmore : SubstitutionRead depth slash s ((gap s).1 ++ token.text ++ inner) after :=
    .more (by rwa [hskip]) hdepth htail
  rw [hskip, List.nil_append] at hmore
  exact substitution?_eq_some_iff.mpr hmore

/-- What is skipped at the start of the code belongs to the substitution. -/
theorem substitution?_skipped (text : List Char) (hgap : (gap (text ++ s)).2 = (gap s).2)
    (h : substitution? depth slash s = some (inner, after)) :
    substitution? depth slash (text ++ s) = some (text ++ inner, after) := by
  have hskip : (gap (text ++ s)).1 = text ++ (gap s).1 := by
    have happend : (gap (text ++ s)).1 ++ (gap s).2 = text ++ (gap s).1 ++ (gap s).2 := by
      rw [List.append_assoc, gap_append, ← hgap, gap_append]
    exact List.append_cancel_right happend
  rw [substitution?_eq_some_iff] at h ⊢
  cases h with
  | closed hread hdepth =>
    rw [← List.append_assoc, ← hskip]
    exact .closed (by rwa [hgap]) hdepth
  | more hread hdepth htail =>
    rw [← List.append_assoc, ← List.append_assoc, ← hskip]
    exact .more (by rwa [hgap]) hdepth htail

/-- A blank in front of the code belongs to the substitution. -/
theorem substitution?_blank (h : substitution? depth slash s = some (inner, after)) :
    substitution? depth slash (' ' :: s) = some (' ' :: inner, after) :=
  substitution?_skipped [' '] (by rw [List.singleton_append, gap_space (by decide)]) h

end Substitution

/-- That a text leaves a substitution as it is: where the substitution goes on behind the text with
something that continues no token, it is read up to there, with as many braces open as before. -/
def IsCode (text : List Char) : Prop :=
  ∀ depth rest inner after, Neutral rest →
    (∀ slash, substitution? depth slash rest = some (inner, after)) →
    ∀ slash, substitution? depth slash (text ++ rest) = some (text ++ inner, after)

/-- An empty text leaves every substitution as it is. -/
theorem isCode_nil : IsCode [] := fun _ _ _ _ _ h => h

/-- Code before code that starts with a neutral sign. -/
theorem IsCode.append {s t : List Char} (hs : IsCode s) (ht : IsCode t)
    (hneutral : t.head?.any isNeutral) : IsCode (s ++ t) := by
  intro depth rest inner after hrest h slash
  rw [List.append_assoc, List.append_assoc]
  exact hs depth (t ++ rest) (t ++ inner) after (forall_mem_head?_append hneutral rest)
    (ht depth rest inner after hrest h) slash

/-- A gap, a token that is no sign, and code behind it. -/
theorem IsCode.cons {s skipped after rest : List Char} {token : Lexeme}
    (hgap : gap s = (skipped, after)) (hread : ∀ slash, LexemeRead slash after token rest)
    (hkind : token.kind ≠ .punct) (hrest : IsCode rest) : IsCode s := by
  intro depth new inner last hnew h slash
  obtain rfl : after = (gap s).2 := by rw [hgap]
  -- The token ends before `rest`; where `rest` is empty, what follows continues no token.
  have hends : token.EndsBefore (rest ++ new) := by
    have hold : token.EndsBefore (rest ++ []) := by
      rw [List.append_nil]
      exact (hread slash).endsBefore (separator?_gap s)
    exact hold.extend hnew
  have hsplit (t : List Char) : s ++ t = (gap s).1 ++ (token.text ++ (rest ++ t)) := by
    rw [← List.append_assoc token.text, ← (hread slash).append.1, ← List.append_assoc, gap_append]
  have hskip := (hread slash).gap_again hends
  have hdepth : depthAfter? depth token = some depth := by
    obtain ⟨kind, text⟩ := token
    have hkind : kind ≠ .punct := hkind
    simp [depthAfter?, hkind]
  have hmore : SubstitutionRead depth slash ((gap s).1 ++ (token.text ++ (rest ++ new))) _ last :=
    .more (by rw [hskip]; exact (hread slash).again hends) hdepth
      (hrest depth new inner last hnew h token.slash)
  rw [hskip, List.append_assoc] at hmore
  rw [hsplit new, hsplit inner]
  exact substitution?_eq_some_iff.mpr hmore

/-- A token that is no sign and does not start like a comment, on its own. -/
theorem isCode_token {c : Char} {s : List Char} {kind : TokenKind} (hspace : isSpace c = false)
    (hslash : c ≠ '/') (hread : ∀ slash, LexemeRead slash (c :: s) ⟨kind, c :: s⟩ [])
    (hkind : kind ≠ .punct) : IsCode (c :: s) := by
  have hgap : separator? (c :: s) = none := separator?_eq_none s hspace fun h => absurd h hslash
  exact .cons (gap_of_separator?_eq_none hgap) hread hkind isCode_nil

/-- A name is code, also with spaces beyond ASCII in it. -/
theorem ReadsNames.isCode {s : List Char} (h : ReadsNames s) : IsCode s := by
  induction h with
  | nil => exact isCode_nil
  | space hc _ ih =>
    intro depth rest inner after hrest hinner slash
    refine substitution?_skipped [_] ?_ (ih depth rest inner after hrest hinner slash)
    rw [List.singleton_append, gap_space hc]
  | token hgap hread hkind _ ih => exact .cons hgap hread hkind ih

/-- A block comment is code. -/
theorem isCode_comment {s : List Char} (hs : ¬['*', '/'] <:+: s) :
    IsCode ('/' :: '*' :: (s ++ ['*', '/'])) := by
  intro depth rest inner after _ h slash
  have hfirst : ¬['*', '/'] <:+: s ++ ['*'] := by
    rw [List.infix_concat_iff, not_or]
    refine ⟨?_, hs⟩
    rintro ⟨t, ht⟩
    have hlast := congrArg List.getLast? ht
    simp at hlast
  have hfiller : IsFiller ('/' :: '*' :: (s ++ '*' :: '/' :: [])) := .block hfirst .nil
  exact substitution?_skipped _ (gap_filler hfiller rest) (h slash)

/-- A sign of one character that closes nothing stands before what is left of the substitution. -/
private theorem substitution?_mark {depth depth' : Nat} {c : Char} {rest inner after : List Char}
    (hc : isMark c = true) (hdepth : depthAfter? depth (sign c) = some depth')
    (h : ∀ slash, substitution? depth' slash rest = some (inner, after)) (slash : Bool) :
    substitution? depth slash (c :: rest) = some (c :: inner, after) := by
  obtain ⟨hgap, hread⟩ := lexemeRead_mark slash rest hc
  exact substitution?_token hgap hread hdepth (h _)

/-- Code between two delimiters is code. -/
theorem IsCode.group {text : List Char} (h : IsCode text) (b : Bracket) :
    IsCode (b.opener :: ' ' :: (text ++ [' ', b.closer])) := by
  intro depth rest inner after hrest hinner slash
  have hmarks : isMark b.opener = true ∧ isMark b.closer = true := by cases b <;> decide
  obtain ⟨depth', hopened, hclosed⟩ : ∃ depth', depthAfter? depth (sign b.opener) = some depth' ∧
      depthAfter? depth' (sign b.closer) = some depth := by
    cases b with
    | round => exact ⟨depth, rfl, rfl⟩
    | square => exact ⟨depth, rfl, rfl⟩
    | curly => exact ⟨depth + 1, rfl, rfl⟩
  have hend (slash : Bool) : substitution? depth' slash (' ' :: b.closer :: rest) =
      some (' ' :: b.closer :: inner, after) :=
    substitution?_blank (substitution?_mark hmarks.2 hclosed hinner slash)
  have hinside (slash : Bool) : substitution? depth' slash
      (' ' :: (text ++ ' ' :: b.closer :: rest)) =
      some (' ' :: (text ++ ' ' :: b.closer :: inner), after) :=
    substitution?_blank (h depth' _ _ after (neutral_cons (by decide)) hend slash)
  have hgroup := substitution?_mark hmarks.1 hopened hinside slash
  simpa using hgroup

/-- A substitution is read up to the brace behind its code. -/
theorem IsCode.substitution? {text : List Char} (h : IsCode text) (rest : List Char) :
    substitution? 0 true (' ' :: (text ++ ' ' :: '\x7d' :: rest)) =
      some (' ' :: (text ++ [' ', '\x7d']), rest) := by
  have hclose (slash : Bool) :
      Script.substitution? 0 slash ('\x7d' :: rest) = some (['\x7d'], rest) := by
    obtain ⟨hgap, hread⟩ := lexemeRead_mark (c := '\x7d') slash rest (by decide)
    have hskip := gap_of_separator?_eq_none hgap
    have hbehind : LexemeRead slash (gap ('\x7d' :: rest)).2 (sign '\x7d') rest := by rwa [hskip]
    have hdepth : depthAfter? 0 (sign '\x7d') = none := rfl
    have hclosed := SubstitutionRead.closed hbehind hdepth
    rw [hskip] at hclosed
    exact substitution?_eq_some_iff.mpr hclosed
  have hend (slash : Bool) :
      Script.substitution? 0 slash (' ' :: '\x7d' :: rest) = some ([' ', '\x7d'], rest) :=
    substitution?_blank (hclose slash)
  exact substitution?_blank (h 0 _ _ rest (neutral_cons (by decide)) hend true)

/-! ### Trees -/

/-- That a text means nothing else in a template: it has no back quote and no backslash, and it
opens no substitution. -/
def IsPlainRun (s : List Char) : Prop :=
  '\x60' ∉ s ∧ '\\' ∉ s ∧ ¬['$', '\x7b'] <:+: s

instance : DecidablePred IsPlainRun := fun _ => inferInstanceAs (Decidable (_ ∧ _))

mutual

/-- What stands between the back quotes of a template: a run of plain text, and behind it an escaped
character or a substitution with more of the template, or nothing. A run may be empty, and two runs
never meet, so every sequence of longest runs, escaped characters and substitutions is a tree. -/
inductive TemplateTree where
  | last (run : List Char) (hrun : IsPlainRun run)
  | escaped (run : List Char) (hrun : IsPlainRun run) (c : Char) (rest : TemplateTree)
  | substituted (run : List Char) (hrun : IsPlainRun run) (code : CodeTree) (rest : TemplateTree)

/-- The code of a substitution: items one after the other. -/
inductive CodeTree where
  | nil
  | cons (item : CodeItem) (rest : CodeTree)

/-- An item of the code. -/
inductive CodeItem where
  | name (s : List Char) (hs : isName s = true)
  | string (quote : Char) (s : List Char) (hquote : quote = '"' ∨ quote = '\'')
      (hs : Quoted quote s)
  | comment (s : List Char) (hs : ¬['*', '/'] <:+: s)
  | group (b : Bracket) (code : CodeTree)
  | template (tree : TemplateTree)

end

mutual

/-- The text between the back quotes. -/
def TemplateTree.inside : TemplateTree → List Char
  | .last run _ => run
  | .escaped run _ c rest => run ++ '\\' :: c :: rest.inside
  | .substituted run _ code rest =>
    run ++ '$' :: '\x7b' :: ' ' :: (code.text ++ ' ' :: '\x7d' :: rest.inside)

/-- The items with a blank between each two. -/
def CodeTree.text : CodeTree → List Char
  | .nil => []
  | .cons item .nil => item.text
  | .cons item (.cons next rest) => item.text ++ ' ' :: (CodeTree.cons next rest).text

/-- An item as it is written. -/
def CodeItem.text : CodeItem → List Char
  | .name s _ => s
  | .string quote s _ _ => quote :: (s ++ [quote])
  | .comment s _ => '/' :: '*' :: (s ++ ['*', '/'])
  | .group b code => b.opener :: ' ' :: (code.text ++ [' ', b.closer])
  | .template tree => '\x60' :: (tree.inside ++ ['\x60'])

end

/-- A template, back quotes included. -/
def TemplateTree.text (tree : TemplateTree) : List Char := '\x60' :: (tree.inside ++ ['\x60'])

/-- A run of plain text is read before everything that a template can go on with. -/
theorem template?_run {run s text rest : List Char} (hrun : IsPlainRun run)
    (hs : s.head? ≠ some '\x7b') (h : template? s = some (text, rest)) :
    template? (run ++ s) = some (run ++ text, rest) := by
  induction run with
  | nil => exact h
  | cons c run ih =>
    obtain ⟨hquote, hescape, hopen⟩ := hrun
    simp only [List.mem_cons, not_or] at hquote hescape
    rw [List.infix_cons_iff, not_or] at hopen
    -- A dollar sign meets no brace: inside the run by its plainness, at its end by what follows.
    have hdollar : c = '$' → (run ++ s).head? ≠ some '\x7b' := by
      rintro rfl hhead
      cases run with
      | nil => exact hs hhead
      | cons d run =>
        obtain rfl : d = '\x7b' := by simpa using hhead
        exact hopen.1 ⟨run, rfl⟩
    have htail := ih ⟨hquote.2, hescape.2, hopen.2⟩
    exact template?_eq_some_iff.mpr (.plain (Ne.symm hquote.1) (Ne.symm hescape.1) hdollar htail)

/-- A string is code. -/
theorem Quoted.isCode {quote : Char} {s : List Char} (h : Quoted quote s)
    (hquote : quote = '"' ∨ quote = '\'') : IsCode (quote :: (s ++ [quote])) := by
  have hread (slash : Bool) : LexemeRead slash (quote :: (s ++ [quote]))
      ⟨.str, quote :: (s ++ [quote])⟩ [] :=
    .str hquote (h.stringTail_eq hquote [])
  refine isCode_token ?_ ?_ hread (by decide)
  · rcases hquote with rfl | rfl <;> decide
  · rcases hquote with rfl | rfl <;> decide

mutual

/-- What stands between the back quotes is read up to the second one, whatever follows it. -/
theorem TemplateTree.template?_inside (tree : TemplateTree) (rest : List Char) :
    template? (tree.inside ++ '\x60' :: rest) = some (tree.inside ++ ['\x60'], rest) := by
  match tree with
  | .last run hrun =>
    exact template?_run hrun (by simp) (template?_quote rest)
  | .escaped run hrun c tail =>
    have htail := tail.template?_inside rest
    have hescaped := template?_eq_some_iff.mpr (TemplateRead.escaped c htail)
    simpa [TemplateTree.inside] using template?_run hrun (by simp) hescaped
  | .substituted run hrun code tail =>
    have htail := tail.template?_inside rest
    have hcode := code.isCode.substitution? (tail.inside ++ '\x60' :: rest)
    have hsubstituted := template?_eq_some_iff.mpr (TemplateRead.substitution hcode htail)
    simpa [TemplateTree.inside] using template?_run hrun (by simp) hsubstituted

/-- The printed items are code. -/
theorem CodeTree.isCode (code : CodeTree) : IsCode code.text := by
  match code with
  | .nil => exact isCode_nil
  | .cons item .nil => exact item.isCode
  | .cons item (.cons next rest) =>
    have hnext := (CodeTree.cons next rest).isCode
    have hrest : IsCode (' ' :: (CodeTree.cons next rest).text) := by
      intro depth new inner after hnew h slash
      exact substitution?_blank (hnext depth new inner after hnew h slash)
    exact item.isCode.append hrest rfl

/-- A printed item is code. -/
theorem CodeItem.isCode (item : CodeItem) : IsCode item.text := by
  match item with
  | .name s hs => exact (readsNames_of_isNamePart s (isNamePart_of_isName hs)).isCode
  | .string quote s hquote hs => exact hs.isCode hquote
  | .comment s hs => exact isCode_comment hs
  | .group b code => exact code.isCode.group b
  | .template tree =>
    exact isCode_token (by decide) (by decide)
      (fun slash => .template (tree.template?_inside [])) (by decide)

end

/-- A template is one token, whatever its strings, its comments and the templates in its code hold:
it goes from the first back quote to the last one. -/
theorem template_tree_is_one_token (tree : TemplateTree) :
    ∃ t, tokenize (String.ofList tree.text) = .ok [t] ∧ t.kind = .template ∧
      Spans (String.ofList tree.text) t := by
  have hlist : (String.ofList tree.text).toList = tree.text := String.toList_ofList
  have hread : LexemeRead true tree.text ⟨.template, tree.text⟩ [] :=
    .template (tree.template?_inside [])
  have hlead : lead tree.text = ([], tree.text) := lead_cons (by decide) (by decide)
  have hgap : separator? tree.text = none :=
    separator?_eq_none _ (by decide) fun h => absurd h (by decide)
  rw [← hlist] at hlead hgap hread
  obtain ⟨t, htokens, hlexeme, hspans⟩ := exists_spans_of_read hlead hgap hread
  exact ⟨t, htokens, congrArg Lexeme.kind hlexeme, hspans⟩

/-- A run that ends in a dollar sign, then the code of a substitution: in braces a string and a
template with an escaped back quote, and behind them a comment. -/
example :
    (TemplateTree.substituted ['a', '$'] (by decide)
      (.cons (.group .curly
          (.cons (.string '"' ['\x7d'] (.inl rfl) (.plain (by decide) (by decide) (by decide) .nil))
            (.cons (.template (.escaped [] (by decide) '\x60' (.last ['\x7b'] (by decide)))) .nil)))
        (.cons (.comment ['\x60', '\x7d'] (by decide)) .nil))
      (.last [] (by decide))).text =
      "\x60a$$\x7b \x7b \"\x7d\" \x60\\\x60\x7b\x60 \x7d /*\x60\x7d*/ \x7d\x60".toList := by
  decide

end Script

end Reclass
