import Reclass.Proofs.Script.LineEnds
import Reclass.Proofs.Script.Substitution

/-!
# Tokens with line ends of two characters

With a carriage return in front of every line feed, a script has the same tokens, provided that no
string and no regular expression in it goes on behind an escaped line end. The code of the templates
counts as well: tokens, templates and substitutions are read again by one induction.
-/

namespace Reclass

namespace Script

open Text

/-- A token with a carriage return in front of every line feed. -/
def Lexeme.crlf (token : Lexeme) : Lexeme := { token with text := Text.crlf token.text }

/-! ### Literals on one line -/

/-- That a token is another one, or is written in it: in the code of a substitution of a template,
or in that of a template written there. -/
inductive WrittenIn (u : Lexeme) : Lexeme → Prop
  | self : WrittenIn u u
  | inside {text inner : List Char} {tokens : List Lexeme} {t : Lexeme}
      (hinner : Substitutes text inner) (htokens : lexemes? true inner = some tokens)
      (ht : t ∈ tokens) (h : WrittenIn u t) : WrittenIn u ⟨.template, '\x60' :: text⟩

/-- That a string or a regular expression runs over the end of a line. -/
def Lexeme.IsBroken (token : Lexeme) : Prop :=
  (token.kind = .str ∨ token.kind = .regex) ∧ '\n' ∈ token.text

/-- That no string and no regular expression written in a token runs over the end of a line. -/
def Lexeme.IsUnbroken (token : Lexeme) : Prop := ∀ u, WrittenIn u token → ¬u.IsBroken

/-- The same, for the substitutions of a template. -/
private def UnbrokenInside (text : List Char) : Prop :=
  ∀ inner tokens, Substitutes text inner → lexemes? true inner = some tokens →
    ∀ t ∈ tokens, t.IsUnbroken

/-- In a template only its substitutions count. -/
private theorem isUnbroken_template_iff {text : List Char} :
    Lexeme.IsUnbroken ⟨.template, '\x60' :: text⟩ ↔ UnbrokenInside text := by
  constructor
  · intro h inner tokens hinner htokens t ht u hu
    exact h u (.inside hinner htokens ht hu)
  · intro h u hu
    cases hu with
    | self => simp [Lexeme.IsBroken]
    | inside hinner htokens ht hu => exact h _ _ hinner htokens _ ht u hu

/-- Nothing is written in a token that is no template. -/
private theorem isUnbroken_iff {token : Lexeme} (hkind : token.kind ≠ .template) :
    token.IsUnbroken ↔ ¬token.IsBroken := by
  constructor
  · exact fun h => h token .self
  · intro h u hu
    cases hu with
    | self => exact h
    | inside => exact absurd rfl hkind

/-! ### Tokens -/

/-- What a slash starts behind a token is not up to its line ends. -/
private theorem slash_crlf (token : Lexeme) : token.crlf.slash = token.slash := by
  obtain ⟨kind, text⟩ := token
  change opensRegex kind (crlf text) = opensRegex kind text
  cases kind with
  | ident =>
    rw [Bool.eq_iff_iff, opensRegex_ident_iff, opensRegex_ident_iff]
    have hwords : ∀ w ∈ expressionWords.map String.toList, '\n' ∉ w := by decide
    constructor
    · intro h
      rwa [(crlf_eq_iff (hwords _ h)).mp rfl]
    · intro h
      rwa [crlf_eq_self (hwords _ h)]
  | punct =>
    have hsingle {c : Char} (hc : c ≠ '\n') : (crlf text == [c]) = (text == [c]) := by
      rw [Bool.eq_iff_iff, beq_iff_eq, beq_iff_eq, crlf_eq_iff (by simpa using hc.symm)]
    simp only [opensRegex]
    rw [hsingle (by decide), hsingle (by decide), hsingle (by decide)]
  | _ => rfl

/-- Neither is how many braces are open behind it. -/
private theorem depthAfter?_crlf (depth : Nat) (token : Lexeme) :
    depthAfter? depth token.crlf = depthAfter? depth token := by
  obtain ⟨kind, text⟩ := token
  have hbrace {c : Char} (hc : c ≠ '\n') :
      (⟨kind, text⟩ : Lexeme).crlf = ⟨.punct, [c]⟩ ↔ (⟨kind, text⟩ : Lexeme) = ⟨.punct, [c]⟩ := by
    rw [Lexeme.crlf, Lexeme.mk.injEq, Lexeme.mk.injEq, crlf_eq_iff (by simpa using hc.symm)]
  simp only [depthAfter?, hbrace (c := '\x7b') (by decide), hbrace (c := '\x7d') (by decide)]

/-- That a template is read again when nothing in it is broken. -/
private def TemplateCrlf (s : List Char) : Prop :=
  ∀ text rest, template? s = some (text, rest) →
    Gives (UnbrokenInside text) (template? (crlf s)) (crlf text, crlf rest)

/-- That a substitution is read again when nothing in it is broken. -/
private def SubstitutionCrlf (depth : Nat) (slash : Bool) (s : List Char) : Prop :=
  ∀ inner rest, substitution? depth slash s = some (inner, rest) →
    ∃ tokens, lexemes? slash inner = some tokens ∧
      Gives (∀ t ∈ tokens, t.IsUnbroken) (substitution? depth slash (crlf s))
        (crlf inner, crlf rest)

/-- A token is read again when nothing in it is broken. -/
private theorem LexemeRead.crlf_of {slash : Bool} {s rest : List Char} {token : Lexeme}
    (h : LexemeRead slash s token rest) (hgap : separator? s = none)
    (htemplate : ∀ t, s = '\x60' :: t → TemplateCrlf t) :
    Gives token.IsUnbroken (lexeme? slash (crlf s)) (token.crlf, crlf rest) := by
  have hfeed {c : Char} {s : List Char} (hgap : separator? (c :: s) = none) : c ≠ '\n' := by
    rintro rfl
    exact absurd (not_isSpace_of_separator?_eq_none hgap) (by decide)
  have hsame {token : Lexeme} {s rest : List Char} (hkind : ¬(token.kind = .str ∨
      token.kind = .regex ∨ token.kind = .template)) (h : LexemeRead slash s token.crlf rest) :
      Gives token.IsUnbroken (lexeme? slash s) (token.crlf, rest) := by
    refine .of_eq_some ?_ (lexeme?_eq_some_iff.mpr h)
    rw [isUnbroken_iff fun h => hkind (.inr (.inr h))]
    exact fun hbroken => hkind (hbroken.1.imp_right .inl)
  cases h with
  | @str c s text rest hquote h =>
    rw [crlf_cons (hfeed hgap), lexeme?_cons, if_pos hquote, Lexeme.crlf, crlf_cons (hfeed hgap)]
    refine ((stringTail_crlf h).map _).congr ?_
    rw [isUnbroken_iff (by simp)]
    simp [Lexeme.IsBroken, (hfeed hgap).symm]
  | @template s text rest h =>
    rw [crlf_cons (by decide), lexeme?_cons, if_neg (by decide), if_pos rfl, Lexeme.crlf,
      crlf_cons (by decide)]
    exact ((htemplate s rfl text rest h).map _).congr isUnbroken_template_iff
  | @regex s text rest hslash hstar h =>
    have hstar' : (crlf s).head? ≠ some '*' := by
      rwa [ne_eq, head?_crlf_eq_iff (by decide) (by decide)]
    rw [crlf_cons (by decide), lexeme?_cons, if_neg (by decide), if_neg (by decide),
      if_neg fun h => hstar' h.2, if_pos ⟨rfl, hslash⟩, Lexeme.crlf, crlf_cons (by decide)]
    refine ((regexTail_crlf h).map _).congr ?_
    rw [isUnbroken_iff (by simp)]
    simp [Lexeme.IsBroken]
  | @number c s hc =>
    have h : LexemeRead slash (c :: crlf s) _ _ := .number (by rwa [head?_any_crlf])
    rw [number_crlf (hfeed hgap)] at h
    rw [crlf_cons (hfeed hgap)]
    exact hsame (by simp) h
  | @ident c s hc =>
    have h : LexemeRead slash (c :: crlf s) _ _ := .ident hc
    obtain ⟨htake, hdrop⟩ := span_crlf (p := continuesName) (by decide) (by decide) s
    have hname : '\n' ∉ s.takeWhile continuesName := fun hmem =>
      absurd (List.mem_takeWhile_imp hmem) (by decide)
    rw [htake, hdrop] at h
    rw [crlf_cons (hfeed hgap)]
    refine hsame (by simp) ?_
    rwa [Lexeme.crlf, crlf_cons (hfeed hgap), crlf_eq_self hname]
  | @punct c s hquote hback hslash hdigit hname =>
    have h : LexemeRead slash (c :: crlf s) _ _ := .punct hquote hback (fun hc => by
      rw [ne_eq, head?_crlf_eq_iff (by decide) (by decide)]
      exact hslash hc) (by rwa [head?_any_crlf]) hname
    rw [punctuation_crlf (hfeed hgap)] at h
    rw [crlf_cons (hfeed hgap)]
    exact hsame (by simp) h

/-- The start of a template is read again when what follows it is. -/
private theorem template_crlf {s : List Char}
    (htemplate : ∀ t : List Char, t.length < s.length → TemplateCrlf t)
    (hsubstitution : ∀ t : List Char, t.length < s.length → SubstitutionCrlf 0 true t) :
    TemplateCrlf s := by
  intro text rest h
  cases template?_eq_some_iff.mp h with
  | quote =>
    rw [crlf_cons (by decide)]
    exact .of_eq_some (fun inner _ hinner => absurd hinner not_substitutes_quote)
      (template?_quote _)
  | @escaped s tail _ c hs =>
    have hread := htemplate s (by simp only [List.length_cons]; omega) tail _ hs
    have hinside : UnbrokenInside ('\\' :: c :: tail) ↔ UnbrokenInside tail := by
      simp only [UnbrokenInside, substitutes_escaped_iff]
    simp only [crlf_cons (c := '\\') (by decide)]
    by_cases hc : c = '\n'
    · -- in a template the carriage return may stand apart from its line feed
      subst hc
      simp only [crlf_feed]
      rw [template?_escaped,
        template?_plain (by decide) (by decide) fun h => absurd h (by decide), Option.map_map]
      exact (hread.map _).congr hinside
    · simp only [crlf_cons hc]
      rw [template?_escaped]
      exact (hread.map _).congr hinside
  | @substitution s inner after tail _ hs ht =>
    obtain ⟨⟨rfl, _⟩, hagain⟩ := (cutAgain s).2 0 true inner after hs
    obtain ⟨tokens, htokens, hinner⟩ :=
      hsubstitution _ (by simp only [List.length_cons]; omega) inner after hs
    have htail := htemplate after
      (by simp only [List.length_cons, List.length_append]; omega) tail _ ht
    have hinside : UnbrokenInside ('$' :: '\x7b' :: (inner ++ tail)) ↔
        (∀ t ∈ tokens, t.IsUnbroken) ∧ UnbrokenInside tail := by
      simp only [UnbrokenInside, substitutes_substitution_iff (hagain tail)]
      constructor
      · exact fun h => ⟨h inner tokens (.inl rfl) htokens,
          fun inner' tokens' hinner' => h inner' tokens' (.inr hinner')⟩
      · rintro ⟨hfirst, hothers⟩ inner' tokens' (rfl | hinner') htokens'
        · cases htokens.symm.trans htokens'
          exact hfirst
        · exact hothers inner' tokens' hinner' htokens'
    simp only [crlf_cons (c := '$') (by decide), crlf_cons (c := '\x7b') (by decide), crlf_append]
    rw [← crlf_append, template?_substitution]
    exact (hinner.bind (htail.map _)).congr hinside
  | @plain c s tail _ hquote hescape hdollar hs =>
    have hread := htemplate s (by simp) tail _ hs
    have hinside : UnbrokenInside (c :: tail) ↔ UnbrokenInside tail := by
      have hdollar' : c = '$' → tail.head? ≠ some '\x7b' := by
        obtain ⟨⟨rfl, hne⟩, _⟩ := (cutAgain s).1 tail _ hs
        rwa [List.head?_append_of_ne_nil _ hne] at hdollar
      simp only [UnbrokenInside, substitutes_plain_iff hquote hescape hdollar']
    by_cases hc : c = '\n'
    · subst hc
      rw [crlf_feed, crlf_feed,
        template?_plain (by decide) (by decide) fun h => absurd h (by decide),
        template?_plain (by decide) (by decide) fun h => absurd h (by decide), Option.map_map]
      exact (hread.map _).congr hinside
    · rw [crlf_cons hc, crlf_cons hc, template?_plain hquote hescape fun hdollar' => by
        rw [ne_eq, head?_crlf_eq_iff (by decide) (by decide)]
        exact hdollar hdollar']
      exact (hread.map _).congr hinside

/-- The start of a substitution is read again when what follows it is. -/
private theorem substitution_crlf {depth : Nat} {slash : Bool} {s : List Char}
    (htemplate : ∀ t : List Char, t.length < s.length → TemplateCrlf t)
    (hsubstitution : ∀ (t : List Char) (depth : Nat) (slash : Bool), t.length < s.length →
      SubstitutionCrlf depth slash t) :
    SubstitutionCrlf depth slash s := by
  intro inner rest h
  have hcrlf {token : Lexeme} {after : List Char} (hread : LexemeRead slash (gap s).2 token after) :
      Gives token.IsUnbroken (lexeme? slash (crlf (gap s).2)) (token.crlf, crlf after) := by
    refine hread.crlf_of (separator?_gap s) fun t ht => htemplate t ?_
    have hle := gap_length s
    rw [ht, List.length_cons] at hle
    omega
  -- the tokens of the substitution are the first one and those of the text behind it
  have htokens {token : Lexeme} {after tail : List Char}
      (hread : LexemeRead slash (gap s).2 token after) (hends : token.EndsBefore tail) :
      lexemes? slash ((gap s).1 ++ token.text ++ tail) =
        (lexemes? token.slash tail).map (token :: ·) := by
    rw [List.append_assoc]
    exact lexemes?_of_read (congrArg Prod.snd (hread.gap_again hends)) (hread.again hends)
  rw [substitution?_eq, gap_crlf]
  cases substitution?_eq_some_iff.mp h with
  | @closed token _ hread hdepth =>
    have hnil : lexemes? token.slash [] = some [] :=
      lexemes?_of_gap_eq_nil (by rw [gap_of_separator?_eq_none rfl])
    have hlast := htokens hread token.endsBefore_nil
    rw [List.append_nil, hnil] at hlast
    refine ⟨[token], hlast, ?_⟩
    refine ((hcrlf hread).bind (q := True) ?_).congr (by simp)
    simp only [depthAfter?_crlf, hdepth]
    exact .of_eq_some trivial (by rw [crlf_append]; rfl)
  | @more token depth' after tail _ hread hdepth htail =>
    obtain ⟨tokens, htailTokens, htailCrlf⟩ :=
      hsubstitution after depth' _ hread.length_lt tail _ htail
    obtain ⟨⟨rfl, _⟩, _⟩ := (cutAgain after).2 depth' _ tail _ htail
    have hends : token.EndsBefore (tail ++ []) :=
      (hread.endsBefore (separator?_gap s)).extend (by simp [Neutral])
    rw [List.append_nil] at hends
    refine ⟨token :: tokens, ?_, ?_⟩
    · rw [htokens hread hends, Lexeme.slash, htailTokens]
      rfl
    · refine ((hcrlf hread).bind (q := ∀ t ∈ tokens, t.IsUnbroken) ?_).congr List.forall_mem_cons
      simp only [depthAfter?_crlf, hdepth]
      change Gives _ ((substitution? depth' token.crlf.slash _).map _) _
      rw [slash_crlf]
      simp only [crlf_append] at htailCrlf ⊢
      exact htailCrlf.map fun read => (crlf (gap s).1 ++ crlf token.text ++ read.1, read.2)

/-- Templates and their substitutions are read again when nothing in them is broken. -/
private theorem inside_crlf (s : List Char) :
    TemplateCrlf s ∧ ∀ depth slash, SubstitutionCrlf depth slash s := by
  induction hn : s.length using Nat.strongRecOn generalizing s with
  | ind n ih =>
    subst hn
    have htemplate : ∀ t : List Char, t.length < s.length → TemplateCrlf t :=
      fun t ht => (ih t.length ht t rfl).1
    have hsubstitution : ∀ (t : List Char) (depth : Nat) (slash : Bool), t.length < s.length →
        SubstitutionCrlf depth slash t :=
      fun t depth slash ht => (ih t.length ht t rfl).2 depth slash
    exact ⟨template_crlf htemplate fun t => hsubstitution t 0 true,
      fun depth slash => substitution_crlf htemplate hsubstitution⟩

/-- A token is read again when nothing in it is broken. -/
theorem LexemeRead.crlf {slash : Bool} {s rest : List Char} {token : Lexeme}
    (h : LexemeRead slash s token rest) (hgap : separator? s = none) :
    Gives token.IsUnbroken (lexeme? slash (Text.crlf s)) (token.crlf, Text.crlf rest) :=
  h.crlf_of hgap fun t _ => (inside_crlf t).1

/-! ### Scripts -/

/-- The tokens of a text are read again when nothing in them is broken. -/
theorem lexemes?_crlf {slash : Bool} {s : List Char} {tokens : List Lexeme}
    (h : lexemes? slash s = some tokens) :
    Gives (∀ t ∈ tokens, t.IsUnbroken) (lexemes? slash (crlf s)) (tokens.map Lexeme.crlf) := by
  induction tokens generalizing slash s with
  | nil =>
    have hgap : (gap s).2 = [] := by
      by_contra hne
      rw [lexemes?_eq, if_neg hne] at h
      obtain ⟨_, _, hmap⟩ := Option.bind_eq_some_iff.mp h
      obtain ⟨_, _, hcons⟩ := Option.map_eq_some_iff.mp hmap
      exact List.cons_ne_nil _ _ hcons
    exact .of_eq_some (by simp) (lexemes?_of_gap_eq_nil (by rw [gap_crlf, hgap]; rfl))
  | cons token tokens ih =>
    obtain ⟨rest, hread, hrest⟩ := exists_read_of_lexemes? h
    have hne : crlf (gap s).2 ≠ [] := by
      obtain ⟨hs, hne⟩ := hread.append
      rw [hs, crlf_append]
      simp [crlf_eq_iff, hne]
    rw [lexemes?_eq, gap_crlf, if_neg hne, List.map_cons]
    refine ((hread.crlf (separator?_gap s)).bind (q := ∀ t ∈ tokens, t.IsUnbroken) ?_).congr
      List.forall_mem_cons
    change Gives _ ((lexemes? token.crlf.slash _).map _) _
    rw [slash_crlf]
    exact (ih hrest).map _

/-! ### The start of a script -/

/-- A text from the end of its first line on, when that line starts with `#!`. -/
private def behindHash (s : List Char) : List Char :=
  if s.head? = some '#' ∧ s.tail.head? = some '!' then s.dropWhile (· != '\n') else s

private theorem lead_snd (s : List Char) :
    (lead s).2 = behindHash (if s.head? = some '\ufeff' then s.tail else s) := by
  unfold lead
  split
  next mark after hpair =>
    have hafter : after = if s.head? = some '\ufeff' then s.tail else s := by
      split at hpair
      · cases hpair
        rfl
      · next hmark =>
        cases hpair
        refine (if_neg fun h => ?_).symm
        obtain ⟨t, rfl⟩ := List.head?_eq_some_iff.mp h
        exact hmark t rfl
    rw [← hafter]
    split
    · rfl
    · next hother =>
      refine (if_neg ?_).symm
      rintro ⟨hfirst, hsecond⟩
      obtain ⟨t, rfl⟩ := List.head?_eq_some_iff.mp hfirst
      obtain ⟨u, rfl⟩ := List.head?_eq_some_iff.mp hsecond
      exact hother u rfl

/-- Behind a line that starts with `#!`, only the carriage return at its end is gone. -/
private theorem lexemes?_behindHash_crlf (slash : Bool) (s : List Char) :
    lexemes? slash (behindHash (crlf s)) = lexemes? slash (crlf (behindHash s)) := by
  have hhash : (crlf s).head? = some '#' ∧ (crlf s).tail.head? = some '!' ↔
      s.head? = some '#' ∧ s.tail.head? = some '!' := by
    rw [head?_crlf_eq_iff (by decide) (by decide)]
    refine and_congr_right fun hfirst => ?_
    obtain ⟨t, rfl⟩ := List.head?_eq_some_iff.mp hfirst
    rw [crlf_cons (by decide)]
    exact head?_crlf_eq_iff (by decide) (by decide)
  unfold behindHash
  rw [if_congr hhash rfl rfl]
  split
  · have hline : ∀ c ∈ s.takeWhile (· != '\n'), (c != '\n') = true := by
      intro c hc
      exact List.mem_takeWhile_imp (p := (· != '\n')) hc
    rw [crlf_eq_line_append s, List.dropWhile_append_of_pos hline]
    rcases dropWhile_line s with hnil | hfeed
    · rw [hnil]
      rfl
    · obtain ⟨t, ht⟩ := List.head?_eq_some_iff.mp hfeed
      rw [ht, crlf_feed]
      exact (lexemes?_space (by decide)).symm
  · rfl

/-- What only the start of a script may hold is skipped up to the same place. -/
private theorem lexemes?_lead_crlf (slash : Bool) (s : List Char) :
    lexemes? slash (lead (crlf s)).2 = lexemes? slash (crlf (lead s).2) := by
  rw [lead_snd, lead_snd, if_congr (head?_crlf_eq_iff (by decide) (by decide)) rfl rfl]
  split
  · next hmark =>
    obtain ⟨t, rfl⟩ := List.head?_eq_some_iff.mp hmark
    rw [crlf_cons (by decide)]
    exact lexemes?_behindHash_crlf slash t
  · exact lexemes?_behindHash_crlf slash s

/-- With a carriage return in front of every line feed a script has the same tokens exactly when no
string and no regular expression in it, be it in the code of a template, runs over the end of a
line. Otherwise it is refused. -/
theorem crlf_same_tokens_iff {source : String} {tokens : List Token}
    (h : tokenize source = .ok tokens) :
    ((∃ tokens', tokenize (String.ofList (crlf source.toList)) = .ok tokens' ∧
        tokens'.map Token.lexeme = tokens.map fun t => t.lexeme.crlf) ↔
      ∀ t ∈ tokens, t.lexeme.IsUnbroken) ∧
    ((∃ e, tokenize (String.ofList (crlf source.toList)) = .error e) ↔
      ¬∀ t ∈ tokens, t.lexeme.IsUnbroken) := by
  have htokens := tokenize_lexemes? source
  rw [h] at htokens
  have hread := lexemes?_crlf htokens.symm
  have hagain := tokenize_lexemes? (String.ofList (crlf source.toList))
  rw [String.toList_ofList, lexemes?_lead_crlf] at hagain
  rw [← hagain, List.forall_mem_map, List.map_map] at hread
  constructor
  · rw [← hread.eq_some_iff, Option.map_eq_some_iff]
    simp only [Except.toOption_eq_some_iff]
    rfl
  · rw [← hread.eq_none_iff, Option.map_eq_none_iff, Except.toOption_eq_none_iff]

/-- A script with line ends in a comment, in the text of a template and in its code has the same
tokens, so nothing in it is broken. -/
theorem crlf_same_tokens_of_template :
    ∃ tokens, tokenize "#!n\n\x60\\\n$\x7b/*\n*/'a'\n\x7d\x60//\n;" = .ok tokens ∧
      (∃ tokens', tokenize "#!n\r\n\x60\\\r\n$\x7b/*\r\n*/'a'\r\n\x7d\x60//\r\n;" = .ok tokens' ∧
        tokens'.map Token.lexeme = tokens.map fun t => t.lexeme.crlf) ∧
      tokens.length = 2 ∧ ∀ t ∈ tokens, t.lexeme.IsUnbroken := by
  have h : tokenize "#!n\n\x60\\\n$\x7b/*\n*/'a'\n\x7d\x60//\n;" = .ok
      [⟨.template, ['\n'], 4, "\x60\\\n$\x7b/*\n*/'a'\n\x7d\x60".toList⟩,
        ⟨.punct, "//\n".toList, 23, [';']⟩] := by
    decide +kernel
  have hagain : tokenize "#!n\r\n\x60\\\r\n$\x7b/*\r\n*/'a'\r\n\x7d\x60//\r\n;" = .ok
      [⟨.template, ['\n'], 5, "\x60\\\r\n$\x7b/*\r\n*/'a'\r\n\x7d\x60".toList⟩,
        ⟨.punct, "//\r\n".toList, 28, [';']⟩] := by
    decide +kernel
  have hcrlf : String.ofList (crlf "#!n\n\x60\\\n$\x7b/*\n*/'a'\n\x7d\x60//\n;".toList) =
      "#!n\r\n\x60\\\r\n$\x7b/*\r\n*/'a'\r\n\x7d\x60//\r\n;" := by
    decide +kernel
  have hsame := (crlf_same_tokens_iff h).1.mp
  rw [hcrlf] at hsame
  exact ⟨_, h, ⟨_, hagain, by decide +kernel⟩, rfl, hsame ⟨_, hagain, by decide +kernel⟩⟩

/-- A string that goes on behind an escaped line end is refused with the other line ends, also in
the code of a template. -/
theorem crlf_refuses_continued_string :
    (∃ tokens, tokenize "('a\\\nb')" = .ok tokens) ∧
    tokenize (String.ofList (crlf "('a\\\nb')".toList)) = .error ⟨.unterminatedString, 1⟩ ∧
    (∃ tokens, tokenize "\x60$\x7b'a\\\nb'\x7d\x60" = .ok tokens) ∧
    tokenize (String.ofList (crlf "\x60$\x7b'a\\\nb'\x7d\x60".toList)) =
      .error ⟨.unterminatedString, 3⟩ := by
  refine ⟨⟨[⟨.punct, [], 0, ['(']⟩, ⟨.str, [], 1, "'a\\\nb'".toList⟩, ⟨.punct, [], 7, [')']⟩], ?_⟩,
    ?_, ⟨[⟨.template, [], 0, "\x60$\x7b'a\\\nb'\x7d\x60".toList⟩], ?_⟩, ?_⟩
  all_goals decide +kernel

end Script

end Reclass
