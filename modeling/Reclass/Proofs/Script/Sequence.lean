import Reclass.Proofs.Script.Lexemes

/-!
# Runs of tokens

Tokens that follow each other in a script. Any run of them can be cut out: between its first and its
last character it holds the same tokens again, wherever it is put.
-/

namespace Reclass

namespace Token

/-- The text of neighbouring tokens, the gap before the first one included. -/
def run (tokens : List Token) : List Char := tokens.flatMap fun t => t.gap ++ t.text

/-- No tokens have no text. -/
@[simp] theorem run_nil : run [] = [] := rfl

/-- The text of some tokens is the gap and the text of the first, and then that of the others. -/
@[simp] theorem run_cons (t : Token) (tokens : List Token) :
    run (t :: tokens) = t.gap ++ (t.text ++ run tokens) := by
  simp [run]

/-- From the first character on, the gap of the first token is left out. -/
theorem span_cons (t : Token) (tokens : List Token) :
    span (t :: tokens) = t.text ++ run tokens := rfl

end Token

namespace Script

/-- Only regular expressions and signs start with a slash. -/
theorem LexemeRead.head?_ne_slash {slash : Bool} {s rest : List Char} {token : Lexeme}
    (h : LexemeRead slash s token rest) (hregex : token.kind ≠ .regex)
    (hpunct : token.kind ≠ .punct) : s.head? ≠ some '/' := by
  cases h with
  | str hquote =>
    rintro h
    cases h
    exact absurd hquote (by decide)
  | template => simp
  | regex => exact absurd rfl hregex
  | number hdigit =>
    rintro h
    cases h
    exact absurd hdigit (by simp)
  | ident hname =>
    rintro h
    cases h
    exact absurd hname (by decide)
  | punct => exact absurd rfl hpunct

/-- The text of a name token is a name. -/
theorem LexemeRead.isName_text {slash : Bool} {s rest : List Char} {token : Lexeme}
    (h : LexemeRead slash s token rest) (hkind : token.kind = .ident) :
    isName token.text = true := by
  cases h with
  | ident hname =>
    simp only [isName, hname, Bool.true_and, List.all_eq_true]
    exact fun d hd => isNamePart_of_continuesName (List.mem_takeWhile_imp hd)
  | _ => exact absurd hkind (by simp)

/-- Where no gap is left, the text of a name token is one word. -/
theorem LexemeRead.isWord_text {slash : Bool} {s rest : List Char} {token : Lexeme}
    (h : LexemeRead slash s token rest) (hkind : token.kind = .ident)
    (hgap : separator? s = none) : isWord token.text = true := by
  cases h with
  | @ident c s hname =>
    have hcontinues : continuesName c = true :=
      continuesName_of_isNamePart (by simp [isNamePart, hname])
        (not_isSpace_of_separator?_eq_none hgap)
    simp only [isWord, hname, hcontinues, Bool.true_and, List.all_eq_true]
    exact fun d hd => List.mem_takeWhile_imp hd
  | _ => exact absurd hkind (by simp)

/-- That some tokens are read one after the other at the start of a text, and what is left then. -/
inductive ReadsTokens : Bool → List Char → List Token → Bool → List Char → Prop
  | nil (slash : Bool) (s : List Char) : ReadsTokens slash s [] slash s
  | cons {slash slash' : Bool} {s after rest rest' : List Char} {t : Token} {tokens : List Token}
      (hgap : gap s = (t.gap, after)) (hread : LexemeRead slash after t.lexeme rest)
      (htail : ReadsTokens t.lexeme.slash rest tokens slash' rest') :
      ReadsTokens slash s (t :: tokens) slash' rest'

namespace ReadsTokens

variable {slash slash' : Bool} {s rest : List Char} {tokens tokens' : List Token}

/-- The tokens and what is left are the text. -/
theorem text (h : ReadsTokens slash s tokens slash' rest) : s = Token.run tokens ++ rest := by
  induction h with
  | nil => rfl
  | @cons _ _ s after _ _ t _ hgap hread _ ih =>
    have hs := gap_append s
    rw [hgap, hread.append.1, ih] at hs
    rw [← hs]
    simp [Token.lexeme]

/-- Tokens are read in two parts. -/
theorem of_append (h : ReadsTokens slash s (tokens ++ tokens') slash' rest) :
    ∃ slash'' mid, ReadsTokens slash s tokens slash'' mid ∧
      ReadsTokens slash'' mid tokens' slash' rest := by
  induction tokens generalizing slash s with
  | nil => exact ⟨slash, s, .nil slash s, h⟩
  | cons t tokens ih =>
    cases h with
    | cons hgap hread htail =>
      obtain ⟨slash'', mid, hfirst, hsecond⟩ := ih htail
      exact ⟨slash'', mid, .cons hgap hread hfirst, hsecond⟩

/-- What is left behind a token begins with no part of it. -/
private theorem endsBefore {after : List Char} {t : Token} (hgap : gap s = (t.gap, after))
    (hread : LexemeRead slash after t.lexeme rest) : t.lexeme.EndsBefore rest := by
  have hnone := separator?_gap s
  rw [hgap] at hnone
  exact hread.endsBefore hnone

/-- A token that is followed by some others is complete before them when the rest is cut off. -/
private theorem endsBefore_run {after mid : List Char} {t : Token} (hgap : gap s = (t.gap, after))
    (hread : LexemeRead slash after t.lexeme mid)
    (htail : ReadsTokens t.lexeme.slash mid tokens slash' rest) :
    t.lexeme.EndsBefore (Token.run tokens) := by
  have hends := endsBefore hgap hread
  rw [htail.text] at hends
  have hcut : t.lexeme.EndsBefore (Token.run tokens ++ []) := hends.extend (by simp [Neutral])
  rwa [List.append_nil] at hcut

/-- The tokens are read again when the rest of the text is cut off. -/
theorem cut (h : ReadsTokens slash s tokens slash' rest) :
    ReadsTokens slash (Token.run tokens) tokens slash' [] := by
  induction h with
  | nil slash => exact .nil slash []
  | @cons slash _ s after mid _ t tokens hgap hread htail ih =>
    have hends := endsBefore_run hgap hread htail
    have hagain := hread.again hends
    obtain rfl : after = (gap s).2 := by rw [hgap]
    have hskip := hread.gap_again hends
    rw [show (gap s).1 = t.gap by rw [hgap]] at hskip
    refine .cons ?_ hagain ih
    rw [Token.run_cons]
    exact hskip

/-- A text that is nothing but tokens has these tokens of its own. -/
theorem readsAs (h : ReadsTokens slash s tokens slash' []) :
    ReadsAs slash s (tokens.map Token.lexeme) := by
  generalize hrest : ([] : List Char) = rest at h
  induction h with
  | nil slash =>
    subst hrest
    exact readsAnywhere_nil slash
  | cons hgap hread _ ih => exact .cons hgap hread (ih hrest)

/-- A run of tokens that is cut out of a text has these tokens of its own. -/
theorem span {t : Token} (h : ReadsTokens slash s (t :: tokens) slash' rest) :
    ReadsAs slash (Token.span (t :: tokens)) ((t :: tokens).map Token.lexeme) := by
  cases h with
  | cons hgap hread htail =>
    have hends := endsBefore_run hgap hread htail
    have hnone := separator?_gap s
    rw [hgap] at hnone
    have hnone' := hread.separator?_eq_none hnone hends
    exact .cons (gap_of_separator?_eq_none hnone') (hread.again hends) htail.cut.readsAs

/-- Behind the last token it is that token that decides what a slash would start. -/
theorem slash_of_concat {t : Token} (h : ReadsTokens slash s (tokens ++ [t]) slash' rest) :
    slash' = t.lexeme.slash := by
  obtain ⟨_, _, _, hlast⟩ := h.of_append
  cases hlast with
  | cons _ _ htail =>
    cases htail
    rfl

/-- Every token is read somewhere behind its gap. -/
theorem of_mem {t : Token} (h : ReadsTokens slash s tokens slash' rest) (ht : t ∈ tokens) :
    ∃ slash s after rest, gap s = (t.gap, after) ∧ LexemeRead slash after t.lexeme rest := by
  induction h with
  | nil => exact absurd ht (by simp)
  | cons hgap hread _ ih =>
    rcases List.mem_cons.mp ht with rfl | ht
    · exact ⟨_, _, _, _, hgap, hread⟩
    · exact ih ht

end ReadsTokens

/-! ### The tokens of a stream -/

/-- Reading the next token of a stream. -/
theorem next_eq_some {stream stream' : TokenStream} {t : Token}
    (h : stream.next = (.ok (some t), stream')) :
    ∃ after, gap stream.rest = (t.gap, after) ∧
      LexemeRead stream.slash after t.lexeme stream'.rest ∧ stream'.slash = t.lexeme.slash := by
  unfold TokenStream.next at h
  split at h
  · exact absurd h (by simp)
  · next c s hgap =>
    split at h
    · next token rest hlt hread =>
      simp only [Prod.mk.injEq, Except.ok.injEq, Option.some.injEq] at h
      obtain ⟨rfl, rfl⟩ := h
      refine ⟨c :: s, Prod.ext rfl hgap, lexeme?_eq_some_iff.mp ?_, rfl⟩
      rw [lexeme?, hread]
      rfl
    · exact absurd h (by simp)

/-- A token that can be read behind the gap is the next one. -/
theorem exists_next_of_read {stream : TokenStream} {rest : List Char} {token : Lexeme}
    (h : LexemeRead stream.slash (gap stream.rest).2 token rest) :
    ∃ t after, stream.next = (.ok (some t), after) ∧ t.lexeme = token ∧ after.rest = rest := by
  have hread := lexeme?_eq_some_iff.mpr h
  unfold TokenStream.next
  split
  · next hgap => simp [hgap, lexeme?] at hread
  · next c s hgap =>
    rw [hgap, lexeme?] at hread
    split
    · next value after hlt hdone =>
      rw [hdone] at hread
      cases hread
      exact ⟨_, _, rfl, rfl, rfl⟩
    · next failure hfailed =>
      rw [hfailed] at hread
      exact absurd hread (by simp [Reading.result?])

private theorem next_eq_none {stream stream' : TokenStream}
    (h : stream.next = (.ok none, stream')) : (gap stream.rest).2 = [] := by
  unfold TokenStream.next at h
  split at h
  · next hgap => exact hgap
  · split at h <;> exact absurd h (by simp)

private theorem next_eq_error {stream stream' : TokenStream} {e : SyntaxError}
    (h : stream.next = (.error e, stream')) :
    (gap stream.rest).2 ≠ [] ∧ lexeme? stream.slash (gap stream.rest).2 = none := by
  unfold TokenStream.next at h
  split at h
  · exact absurd h (by simp)
  · next c s hgap =>
    split at h
    · exact absurd h (by simp)
    · next failure hread =>
      rw [hgap, lexeme?, hread]
      exact ⟨List.cons_ne_nil _ _, rfl⟩

/-- The tokens of a stream are read one after the other, and behind them only a gap is left. -/
theorem readsTokens_of_tokens {stream : TokenStream} {tokens : List Token}
    (h : stream.tokens = .ok tokens) :
    ∃ slash rest, ReadsTokens stream.slash stream.rest tokens slash rest ∧ (gap rest).2 = [] := by
  fun_induction TokenStream.tokens stream generalizing tokens with
  | case1 => exact absurd h (by simp)
  | case2 stream _ hnext =>
    cases h
    exact ⟨stream.slash, stream.rest, .nil _ _, next_eq_none hnext⟩
  | case3 stream t stream' hnext ih =>
    obtain ⟨tokens', htokens, rfl⟩ := Except.map_eq_ok_iff.mp h
    obtain ⟨after, hgap, hread, hslash⟩ := next_eq_some hnext
    obtain ⟨slash, rest, htail, hrest⟩ := ih htokens
    rw [hslash] at htail
    exact ⟨slash, rest, .cons hgap hread htail, hrest⟩

/-- Without their places, the tokens of a stream are those of its text. -/
theorem tokens_lexemes? (stream : TokenStream) :
    stream.tokens.toOption.map (·.map Token.lexeme) = lexemes? stream.slash stream.rest := by
  fun_induction TokenStream.tokens stream with
  | case1 stream e _ hnext =>
    obtain ⟨hgap, hread⟩ := next_eq_error hnext
    rw [lexemes?_eq, if_neg hgap, hread]
    rfl
  | case2 stream _ hnext =>
    rw [lexemes?_of_gap_eq_nil (next_eq_none hnext)]
    rfl
  | case3 stream t stream' hnext ih =>
    obtain ⟨after, hgap, hread, hslash⟩ := next_eq_some hnext
    rw [lexemes?_of_read (by rw [hgap]) hread, ← hslash, ← ih]
    cases stream'.tokens <;> rfl

/-- Without their places, the tokens of a script are those of its text behind the lead. -/
theorem tokenize_lexemes? (source : String) :
    (tokenize source).toOption.map (·.map Token.lexeme) = lexemes? true (lead source.toList).2 :=
  tokens_lexemes? (TokenStream.ofSource source)

section Source

variable {source : String} {tokens : List Token} (h : tokenize source = .ok tokens)

include h

/-- A run of the tokens of a script has these tokens of its own, where a slash means what it means
at the start of the run. -/
theorem exists_readsAs_of_run {run : List Token} (hrun : run <:+: tokens) (hne : run ≠ []) :
    ∃ slash, ReadsAs slash (Token.span run) (run.map Token.lexeme) := by
  obtain ⟨_, _, hall, _⟩ := readsTokens_of_tokens h
  obtain ⟨before, after, hsplit⟩ := hrun
  obtain ⟨t, others, rfl⟩ := List.exists_cons_of_ne_nil hne
  rw [← hsplit, List.append_assoc] at hall
  obtain ⟨slash, _, _, htail⟩ := hall.of_append
  obtain ⟨_, _, hrun, _⟩ := htail.of_append
  exact ⟨slash, hrun.span⟩

/-- Behind a token, it is that token that decides what a slash means. -/
theorem readsAs_of_run {p : Token} {run : List Token} (hrun : p :: run <:+: tokens)
    (hne : run ≠ []) : ReadsAs p.lexeme.slash (Token.span run) (run.map Token.lexeme) := by
  obtain ⟨_, _, hall, _⟩ := readsTokens_of_tokens h
  obtain ⟨before, after, hsplit⟩ := hrun
  obtain ⟨t, others, rfl⟩ := List.exists_cons_of_ne_nil hne
  have hsplit' : tokens = before ++ [p] ++ (t :: others ++ after) := by
    rw [← hsplit]
    simp
  rw [hsplit'] at hall
  obtain ⟨slash, _, hbefore, htail⟩ := hall.of_append
  obtain ⟨_, _, hrun, _⟩ := htail.of_append
  rw [hbefore.slash_of_concat] at hrun
  exact hrun.span

/-- A name, a string, a number or a template of a script is read anywhere. -/
theorem readsAnywhere_of_mem {t : Token} (ht : t ∈ tokens) (hregex : t.kind ≠ .regex)
    (hpunct : t.kind ≠ .punct) : ReadsAnywhere t.text [t.lexeme] := by
  obtain ⟨_, _, hall, _⟩ := readsTokens_of_tokens h
  obtain ⟨slash, s, after, rest, hgap, hread⟩ := hall.of_mem ht
  have hnone := separator?_gap s
  rw [hgap] at hnone
  have hends := t.lexeme.endsBefore_nil
  have hagain := hread.again hends
  have hnone' := hread.separator?_eq_none hnone hends
  rw [List.append_nil] at hagain hnone'
  have hreads := ReadsAs.cons (gap_of_separator?_eq_none hnone') hagain (readsAnywhere_nil _)
  have hhead := hagain.head?_ne_slash hregex hpunct
  obtain ⟨c, u, hc⟩ := List.exists_cons_of_ne_nil hread.append.2
  rw [hc] at hreads hhead hnone'
  have htext : t.text = c :: u := hc
  rw [htext]
  exact hreads.anywhere (not_isSpace_of_separator?_eq_none hnone') fun h => hhead (by simp [h])

/-- The text of a name token is a name. -/
theorem isName_of_mem {t : Token} (ht : t ∈ tokens) (hkind : t.kind = .ident) :
    isName t.text = true := by
  obtain ⟨_, _, hall, _⟩ := readsTokens_of_tokens h
  obtain ⟨slash, s, after, rest, hgap, hread⟩ := hall.of_mem ht
  exact hread.isName_text hkind

/-- The text of a name token is one word. -/
theorem isWord_of_mem {t : Token} (ht : t ∈ tokens) (hkind : t.kind = .ident) :
    isWord t.text = true := by
  obtain ⟨_, _, hall, _⟩ := readsTokens_of_tokens h
  obtain ⟨slash, s, after, rest, hgap, hread⟩ := hall.of_mem ht
  have hnone := separator?_gap s
  rw [hgap] at hnone
  exact hread.isWord_text hkind hnone

end Source

/-- What only the start of a script may hold stands before everything else. -/
theorem lead_append (s : List Char) : (lead s).1 ++ (lead s).2 = s := by
  unfold lead
  split
  next mark after hpair =>
    have hs : s = mark ++ after := by
      split at hpair <;> cases hpair <;> rfl
    split
    · rw [List.append_assoc, List.takeWhile_append_dropWhile, hs]
    · exact hs.symm

/-- A run of the tokens of a script stands in the script as it was written. -/
theorem span_isInfix {source : String} {tokens run : List Token}
    (h : tokenize source = .ok tokens) (hrun : run <:+: tokens) :
    Token.span run <:+: source.toList := by
  obtain ⟨_, rest, hall, _⟩ := readsTokens_of_tokens h
  have hsource : (lead source.toList).1 ++ (Token.run tokens ++ rest) = source.toList := by
    rw [← hall.text]
    exact lead_append source.toList
  obtain ⟨before, after, rfl⟩ := hrun
  cases run with
  | nil => exact List.nil_infix
  | cons t others =>
    refine ⟨(lead source.toList).1 ++ Token.run before ++ t.gap, Token.run after ++ rest, ?_⟩
    refine Eq.trans ?_ hsource
    rw [Token.span_cons]
    simp [Token.run]

/-- A text that starts with neither a byte order mark nor `#!` is read from its start. -/
theorem lead_eq_nil {s : List Char} (hmark : s.head? ≠ some '\ufeff')
    (hhash : ∀ t, s ≠ '#' :: '!' :: t) : lead s = ([], s) := by
  unfold lead
  split
  next mark after hpair =>
    split at hpair
    · exact absurd rfl hmark
    · cases hpair
      split
      · exact absurd rfl (hhash _)
      · rfl

/-- A script that starts with neither a byte order mark nor a hash is read from its start. -/
theorem lead_cons {c : Char} {s : List Char} (hmark : c ≠ '\ufeff') (hhash : c ≠ '#') :
    lead (c :: s) = ([], c :: s) :=
  lead_eq_nil (by simpa using hmark) fun _ h => hhash (List.cons.inj h).1

/-- The text of such a script has its tokens. -/
theorem lexemes?_of_tokenize {source : String} {tokens : List Token}
    (hlead : lead source.toList = ([], source.toList)) (h : tokenize source = .ok tokens) :
    lexemes? true source.toList = some (tokens.map Token.lexeme) := by
  have htokens := tokenize_lexemes? source
  rw [h, hlead] at htokens
  exact htokens.symm

/-- The tokens of such a script are those of its text. -/
theorem tokenize_of_lexemes? {source : String} {lexemes : List Lexeme}
    (hlead : lead source.toList = ([], source.toList))
    (h : lexemes? true source.toList = some lexemes) :
    ∃ tokens, tokenize source = .ok tokens ∧ tokens.map Token.lexeme = lexemes := by
  have hread := tokenize_lexemes? source
  rw [hlead, h] at hread
  obtain ⟨tokens, htokens, hlexemes⟩ := Option.map_eq_some_iff.mp hread
  exact ⟨tokens, Except.toOption_eq_some_iff.mp htokens, hlexemes⟩

end Script

end Reclass
