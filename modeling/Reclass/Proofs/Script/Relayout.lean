import Reclass.Proofs.Script.Tiling

/-!
# Other separators between the same tokens

White space and comments separate tokens and do nothing else. A script whose tokens are written
again, each with a separator behind it, has the same tokens: no token goes on over a blank, and what
a slash starts is decided by the token before it, whatever stands between the two.
-/

namespace Reclass

namespace Script

/-- Text without tokens: white space, block comments, and line comments with the line feeds that end
them. -/
inductive IsFiller : List Char → Prop
  | nil : IsFiller []
  | blank {c : Char} {s : List Char} (hc : IsBlank c) (hs : IsFiller s) : IsFiller (c :: s)
  | block {comment s : List Char} (hfirst : ¬['*', '/'] <:+: comment ++ ['*']) (hs : IsFiller s) :
      IsFiller ('/' :: '*' :: (comment ++ '*' :: '/' :: s))
  | line {comment s : List Char} (hline : '\n' ∉ comment) (hs : IsFiller s) :
      IsFiller ('/' :: '/' :: (comment ++ '\n' :: s))

/-- Filler that starts with white space of ASCII. -/
def IsSeparator (s : List Char) : Prop :=
  ∃ c filler, s = c :: filler ∧ c ∈ [' ', '\t', '\n', '\r', '\x0c'] ∧ IsFiller filler

/-- That a text is some tokens as they are written, one after the other, each with a separator
behind it. -/
inductive LaysOut : List Token → List Char → Prop
  | nil : LaysOut [] []
  | cons {t : Token} {tokens : List Token} {separator text : List Char}
      (hseparator : IsSeparator separator) (htail : LaysOut tokens text) :
      LaysOut (t :: tokens) (t.text ++ (separator ++ text))

/-- A block comment is cut off behind the first `*/`. -/
private theorem commentTail_of_first {comment : List Char}
    (hfirst : ¬['*', '/'] <:+: comment ++ ['*']) (s : List Char) :
    commentTail (comment ++ '*' :: '/' :: s) = some (comment ++ ['*', '/'], s) := by
  induction comment with
  | nil => rfl
  | cons c comment ih =>
    have hend : ∀ t, c = '*' → comment ++ '*' :: '/' :: s = '/' :: t → False := by
      rintro t rfl ht
      cases comment with
      | nil => exact absurd (List.cons.inj ht).1 (by decide)
      | cons d comment =>
        obtain ⟨rfl, _⟩ := List.cons.inj ht
        exact hfirst ⟨[], comment ++ ['*'], by simp⟩
    have htail : ¬['*', '/'] <:+: comment ++ ['*'] := fun hoccurs =>
      hfirst (hoccurs.trans (List.infix_cons_iff.mpr (.inr List.infix_rfl)))
    rw [List.cons_append, commentTail.eq_3 _ _ hend, ih htail]
    rfl

/-- Filler is skipped, whatever follows it. -/
theorem gap_filler {filler : List Char} (h : IsFiller filler) (s : List Char) :
    (gap (filler ++ s)).2 = (gap s).2 := by
  induction h with
  | nil => rfl
  | @blank c filler hc _ ih =>
    rw [List.cons_append, gap_space (isSpace_iff.mpr hc), ih]
  | @block comment filler hfirst _ ih =>
    have hcut : separator? ('/' :: '*' :: (comment ++ '*' :: '/' :: (filler ++ s))) =
        some ('/' :: '*' :: (comment ++ ['*', '/']), filler ++ s) :=
      separator?_eq_some_iff.mpr (.block (commentTail_of_first hfirst _))
    simp only [List.cons_append, List.append_assoc]
    rw [gap_of_separator?_eq_some hcut, ih]
  | @line comment filler hline _ ih =>
    have hcut : separator? ('/' :: '/' :: (comment ++ '\n' :: (filler ++ s))) =
        some ('/' :: '/' :: comment, '\n' :: (filler ++ s)) :=
      separator?_line hline (.inr rfl)
    simp only [List.cons_append, List.append_assoc]
    rw [gap_of_separator?_eq_some hcut, gap_space (by decide), ih]

/-- Every token is complete before a separator. -/
theorem IsSeparator.neutral {separator : List Char} (h : IsSeparator separator) (s : List Char) :
    Neutral (separator ++ s) := by
  obtain ⟨c, filler, rfl, hc, _⟩ := h
  refine neutral_cons ?_
  simp only [List.mem_cons, List.not_mem_nil, or_false] at hc
  rcases hc with rfl | rfl | rfl | rfl | rfl <;> decide

/-- A separator holds no tokens. -/
theorem IsSeparator.lexemes? {separator : List Char} (h : IsSeparator separator) (slash : Bool)
    (s : List Char) : lexemes? slash (separator ++ s) = lexemes? slash s := by
  obtain ⟨c, filler, rfl, hc, hfiller⟩ := h
  exact lexemes?_congr_gap (gap_filler (.blank (.inl hc) hfiller) s)

/-- Tokens that are laid out are read again. -/
theorem ReadsTokens.lexemes?_of_laysOut {slash slash' : Bool} {s rest text : List Char}
    {tokens : List Token} (h : ReadsTokens slash s tokens slash' rest)
    (hlayout : LaysOut tokens text) :
    lexemes? slash text = some (tokens.map Token.lexeme) := by
  induction h generalizing text with
  | nil =>
    cases hlayout
    exact lexemes?_of_gap_eq_nil (by rw [gap_of_separator?_eq_none rfl])
  | @cons _ _ s after _ _ t tokens hgap hread _ ih =>
    cases hlayout with
    | @cons _ _ separator text hseparator htail =>
      have hnone := separator?_gap s
      rw [hgap] at hnone
      have hends := t.lexeme.endsBefore_of_neutral (hseparator.neutral text)
      have hskip := gap_of_separator?_eq_none (hread.separator?_eq_none hnone hends)
      have hfirst := lexemes?_of_read (congrArg Prod.snd hskip) (hread.again hends)
      rw [hseparator.lexemes?, ih htail] at hfirst
      exact hfirst

/-- A token that starts with a hash is that sign. -/
private theorem LexemeRead.text_of_hash {slash : Bool} {s rest : List Char} {token : Lexeme}
    (h : LexemeRead slash ('#' :: s) token rest) : token.text = ['#'] := by
  cases h with
  | str hquote => exact absurd hquote (by decide)
  | number hdigit => exact absurd hdigit (by simp)
  | ident hname => exact absurd hname (by decide)
  | punct =>
    rw [punctuation_single (fun h => absurd h (by decide)) fun h => absurd h (by decide)]

/-- Tokens that are laid out start with nothing that only the start of a script may hold. -/
private theorem ReadsTokens.lead_of_laysOut {slash slash' : Bool} {s rest text : List Char}
    {tokens : List Token} (h : ReadsTokens slash s tokens slash' rest)
    (hlayout : LaysOut tokens text) : lead text = ([], text) := by
  cases hlayout with
  | nil => rfl
  | @cons t _ separator text hseparator =>
    cases h with
    | cons hgap hread =>
      have hnone := separator?_gap s
      rw [hgap] at hnone
      have hends := t.lexeme.endsBefore_of_neutral (hseparator.neutral text)
      have hnone' := hread.separator?_eq_none hnone hends
      have hagain := hread.again hends
      obtain ⟨c, u, hc⟩ := List.exists_cons_of_ne_nil hread.append.2
      rw [show t.text = c :: u from hc]
      rw [hc] at hnone' hagain
      refine lead_eq_nil ?_ fun v hv => ?_
      · rintro hmark
        obtain rfl : c = '\ufeff' := by simpa using hmark
        exact absurd (not_isSpace_of_separator?_eq_none hnone') (by decide)
      · obtain ⟨rfl, hrest⟩ := List.cons.inj hv
        have hhash := LexemeRead.text_of_hash hagain
        obtain rfl : u = [] := by simpa using hc.symm.trans hhash
        obtain ⟨d, filler, rfl, hd, _⟩ := hseparator
        obtain rfl : d = '!' := (List.cons.inj hrest).1
        exact absurd hd (by decide)

/-- The tokens of a script do not depend on what separates them: written again with other
separators, they are accepted, and they are the same tokens. -/
theorem tokenize_relaid {source new : String} {tokens : List Token}
    (h : tokenize source = .ok tokens) (hlayout : LaysOut tokens new.toList) :
    ∃ tokens', tokenize new = .ok tokens' ∧
      tokens'.map Token.lexeme = tokens.map Token.lexeme := by
  obtain ⟨_, _, hreads, _⟩ := readsTokens_of_tokens h
  exact tokenize_of_lexemes? (hreads.lead_of_laysOut hlayout) (hreads.lexemes?_of_laysOut hlayout)

/-- A regular expression that is divided by a number with an exponent, laid out anew with comments
that start like other tokens. -/
theorem tokenize_relaid_with_comments :
    ∃ source new tokens, source = "x=/[/]/g/1e-3" ∧
      new = "x =\n/* '*/ /[/]/g\t// /*\n/\r\u3000// '\n1e-3 " ∧
      tokenize source = .ok tokens ∧ LaysOut tokens new.toList ∧
      ∃ tokens', tokenize new = .ok tokens' ∧
        tokens'.map Token.lexeme = tokens.map Token.lexeme := by
  have h : tokenize "x=/[/]/g/1e-3" = .ok
      [⟨.ident, [], 0, ['x']⟩, ⟨.punct, [], 1, ['=']⟩, ⟨.regex, [], 2, "/[/]/g".toList⟩,
        ⟨.punct, [], 8, ['/']⟩, ⟨.number, [], 9, "1e-3".toList⟩] := by
    decide +kernel
  have hblank : IsSeparator [' '] := ⟨' ', [], rfl, by decide, .nil⟩
  have hblock : IsSeparator ('\n' :: '/' :: '*' :: ([' ', '\''] ++ '*' :: '/' :: [' '])) :=
    ⟨'\n', _, rfl, by decide, .block (by decide) (.blank (.inl (by decide)) .nil)⟩
  have hline : IsSeparator ('\t' :: '/' :: '/' :: ([' ', '/', '*'] ++ '\n' :: [])) :=
    ⟨'\t', _, rfl, by decide, .line (by decide) .nil⟩
  have hwide : IsSeparator ('\r' :: '\u3000' :: '/' :: '/' :: ([' ', '\''] ++ '\n' :: [])) :=
    ⟨'\r', _, rfl, by decide, .blank (.inr (by decide)) (.line (by decide) .nil)⟩
  have hlayout : LaysOut
      [⟨.ident, [], 0, ['x']⟩, ⟨.punct, [], 1, ['=']⟩, ⟨.regex, [], 2, "/[/]/g".toList⟩,
        ⟨.punct, [], 8, ['/']⟩, ⟨.number, [], 9, "1e-3".toList⟩]
      "x =\n/* '*/ /[/]/g\t// /*\n/\r\u3000// '\n1e-3 ".toList :=
    .cons hblank (.cons hblock (.cons hline (.cons hwide (.cons hblank .nil))))
  exact ⟨_, _, _, rfl, rfl, h, hlayout, tokenize_relaid h hlayout⟩

end Script

end Reclass
